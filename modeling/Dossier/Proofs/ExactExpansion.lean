import Dossier.Proofs.PromotedSchemas

/-! Exactness of expansion. The schemas of a definition are its own and one for every
reference that can be reached from it, and each is made of one declaration under one parent. -/
namespace Dossier

theorem length_lt_derivedName (parent submodel : String) : parent.length < (derivedName parent submodel).length := by
  rw [← String.length_toList, ← String.length_toList, toList_derivedName]
  simp

/-! ### Visits that are reached -/

namespace Visit
variable {visit next : Visit} {declaration : Declaration} {name : String} {position : Position}

theorem Leads.length_lt (leads : visit.Leads next) : visit.schema.length < next.schema.length := by
  obtain ⟨name, _, _, _, rfl⟩ := leads
  exact length_lt_derivedName _ name

theorem Opens.leads (opens : visit.Opens name position declaration) :
    visit.Leads (visit.next name position declaration) :=
  ⟨_, _, _, opens, rfl⟩

end Visit

namespace Declaration
variable {definition declaration further : Declaration} {visit other : Visit} {visits : List Visit}
  {out : Expansion} {name : String} {position place : Position}

theorem Reaches.placed (reached : definition.Reaches visit) : visit.around.Placed definition := by
  induction reached with
  | refl => exact .root definition
  | tail _ leads ih =>
    obtain ⟨_, _, _, opens, rfl⟩ := leads
    exact ih.enter opens.found opens.closed

theorem Reaches.length_le (reached : definition.Reaches visit) : definition.name.length ≤ visit.schema.length := by
  induction reached with
  | refl => exact le_rfl
  | tail _ leads ih => exact ih.trans leads.length_lt.le

/-- A reference that is reached under a parent makes a schema of the declaration at a position. -/
def Promotes (definition : Declaration) (parent : String) (position : Position) (declaration : Declaration)
    (schema : String) : Prop :=
  ∃ visit name, definition.Reaches visit ∧ visit.schema = parent ∧ visit.Opens name position declaration ∧
    schema = derivedName parent name

/-- The declaration is that of its position, and the schema is named after it and the parent. -/
theorem Promotes.named {parent schema : String} (promotes : definition.Promotes parent position declaration schema) :
    definition.at? position = some declaration ∧ schema = derivedName parent declaration.name := by
  obtain ⟨visit, name, reached, rfl, opens, rfl⟩ := promotes
  obtain ⟨here, rfl⟩ := reached.placed.at?_found opens.found
  exact ⟨here, rfl⟩

/-! ### The visits of an expansion that succeeds -/

/-- Only the definition itself has its name, all schemas that are promoted have longer ones. -/
theorem schema_ne_name {made : Promotions}
    (leaves : Leaves definition.visit (.fields "" definition.fields) {} visits made) (member : visit ∈ visits) :
    visit.schema ≠ definition.name := by
  obtain ⟨outer, _, before, last⟩ := leaves.leads .self visit member
  have reached : definition.Reaches outer := before
  have longer := reached.length_le.trans_lt last.length_lt
  exact fun same => lt_irrefl _ (same ▸ longer)

/-- The visits after the first one and what they leave, to which the end adds the first. -/
theorem Expands.leaves (expands : definition.Expands visits (.ok out)) :
    ∃ later made, visits = definition.visit :: later ∧
      Leaves definition.visit (.fields "" definition.fields) {} later made ∧
      out = made.schemas.insert definition.name (Field.rewrittenAll definition.name definition.fields) := by
  obtain ⟨later, resolved, run, rfl, outcome⟩ := expands
  obtain ⟨⟨_, made⟩, done, rest⟩ := bind_eq_ok.mp outcome.symm
  obtain ⟨_, added, finished⟩ := bind_eq_ok.mp rest
  cases finished
  obtain ⟨rfl, leaves⟩ := run.leaves done
  obtain ⟨_, rfl⟩ := Promotions.parts_of_add added
  exact ⟨later, made, rfl, leaves, rfl⟩

theorem Expands.reaches (expands : definition.Expands visits (.ok out)) (member : visit ∈ visits) :
    definition.Reaches visit := by
  obtain ⟨later, _, rfl, leaves, _⟩ := expands.leaves
  rcases List.mem_cons.mp member with rfl | among
  · exact .refl
  · obtain ⟨_, _, before, last⟩ := leaves.leads .self visit among
    exact before.tail last

theorem Expands.nodup (expands : definition.Expands visits (.ok out)) : (visits.map Visit.schema).Nodup := by
  obtain ⟨later, _, rfl, leaves, _⟩ := expands.leaves
  refine List.nodup_cons.mpr ⟨fun again => ?_, leaves.fresh.1⟩
  obtain ⟨visit, among, same⟩ := List.mem_map.mp again
  exact schema_ne_name leaves among same

theorem Expands.eq_of_schema_eq (expands : definition.Expands visits (.ok out)) (member : visit ∈ visits)
    (also : other ∈ visits) (same : visit.schema = other.schema) : visit = other :=
  List.inj_on_of_nodup_map expands.nodup member also same

/-- Every reference of a visit finds a declaration that is not open, and begins the visit of it. -/
theorem Expands.opens (expands : definition.Expands visits (.ok out)) (member : visit ∈ visits)
    (mention : Field.Mention visit.fields name) :
    ∃ position declaration, visit.Opens name position declaration ∧
      visit.next name position declaration ∈ visits := by
  have reached {visit : Visit} (listed : visit ∈ visits) := expands.reaches listed
  have same {visit other : Visit} (listed : visit ∈ visits) (also : other ∈ visits) :=
    expands.eq_of_schema_eq listed also
  obtain ⟨later, made, rfl, leaves, _⟩ := expands.leaves
  obtain ⟨position, declaration, found, closed, noted⟩ : visit.Settles made name := by
    obtain ⟨own, deeper⟩ := leaves.settles
    rcases List.mem_cons.mp member with rfl | among
    · exact own name mention
    · exact deeper visit among name mention
  refine ⟨position, declaration, ⟨mention, found, closed⟩, ?_⟩
  obtain ⟨begun, among, origin⟩ : ∃ begun ∈ later, begun.origin = (derivedName visit.schema name, position) := by
    have listed := mem_of_lookup noted
    simpa [leaves.origins_eq] using listed
  obtain ⟨outer, listed, _, next, place, further, opens, rfl⟩ := leaves.leads .self begun among
  obtain ⟨derived, rfl⟩ : derivedName outer.schema next = derivedName visit.schema name ∧ place = position :=
    Prod.mk.inj origin
  obtain ⟨here, rfl⟩ := (reached member).placed.at?_found found
  obtain ⟨also, rfl⟩ := (reached listed).placed.at?_found opens.found
  obtain rfl := Option.some.inj (here.symm.trans also)
  obtain rfl := same listed member (derivedName_injective derived)
  exact List.mem_cons_of_mem _ among

/-- The visits are those that references lead to. -/
theorem Expands.mem_iff (expands : definition.Expands visits (.ok out)) :
    visit ∈ visits ↔ definition.Reaches visit := by
  refine ⟨expands.reaches, fun reached => ?_⟩
  induction reached with
  | refl =>
    obtain ⟨later, _, rfl, _⟩ := expands.leaves
    exact List.mem_cons_self
  | tail _ leads ih =>
    obtain ⟨name, position, declaration, opens, rfl⟩ := leads
    obtain ⟨_, _, also, begun⟩ := expands.opens ih opens.mention
    obtain ⟨rfl, rfl⟩ := Prod.mk.inj (Option.some.inj (opens.found.symm.trans also.found))
    exact begun

/-- Expansion yields the schema of every visit and no other. -/
theorem Expands.find?_iff (expands : definition.Expands visits (.ok out)) {schema : String} {fields : List Field} :
    out.find? schema = some fields ↔
      ∃ visit, definition.Reaches visit ∧ visit.schema = schema ∧
        fields = Field.rewrittenAll schema visit.fields := by
  have member (visit : Visit) : visit ∈ visits ↔ definition.Reaches visit := expands.mem_iff
  have distinct := expands.nodup
  obtain ⟨later, made, rfl, leaves, rfl⟩ := expands.leaves
  have others : made.schemas.find? schema = some fields ↔ _ := leaves.schemas_iff
  simp only [Keyed.find?, reduceCtorEq, false_or] at others
  simp only [← member, List.mem_cons, exists_eq_or_imp, Keyed.find?_insert]
  split
  · rename_i own
    have fresh : ¬ ∃ visit ∈ later, visit.schema = schema ∧ fields = Field.rewrittenAll schema visit.fields := by
      rintro ⟨visit, among, same, _⟩
      exact (List.nodup_cons.mp distinct).1 (List.mem_map.mpr ⟨visit, among, same.trans own.symm⟩)
    subst own
    rw [or_iff_left fresh, Option.some.injEq, eq_comm]
    exact (and_iff_right rfl).symm
  · rename_i other
    simp [others, visit, other]

/-- A schema is promoted from one declaration under one parent. -/
theorem Expands.promotes_unique (expands : definition.Expands visits (.ok out)) {schema parent another : String}
    (promotes : definition.Promotes parent position declaration schema)
    (also : definition.Promotes another place further schema) :
    parent = another ∧ position = place ∧ declaration = further := by
  obtain ⟨first, name, reached, rfl, opens, rfl⟩ := promotes
  obtain ⟨second, other, reachedToo, rfl, opensToo, same⟩ := also
  have next : first.next name position declaration = second.next other place further :=
    expands.eq_of_schema_eq (expands.mem_iff.mpr (reached.tail opens.leads))
      (expands.mem_iff.mpr (reachedToo.tail opensToo.leads)) same
  obtain rfl : position = place := congrArg (·.around.inside) next
  obtain ⟨here, rfl⟩ := reached.placed.at?_found opens.found
  obtain ⟨hereToo, rfl⟩ := reachedToo.placed.at?_found opensToo.found
  obtain rfl := Option.some.inj (here.symm.trans hereToo)
  exact ⟨derivedName_injective same, rfl, rfl⟩

end Declaration

/-! ### Names that two declarations derive -/

/-- References that are reached promote two declarations, each at its position, under one name. -/
def Declaration.DerivesTwice (definition : Declaration) (schema : String) : Prop :=
  ∃ parent position declaration other place further, definition.Promotes parent position declaration schema ∧
    definition.Promotes other place further schema ∧ position ≠ place

/-- Origins are noted of schemas that are promoted, and of all that are made. -/
structure Promotions.Sound (made : Promotions) (definition : Declaration) : Prop where
  origins : ∀ entry ∈ made.origins, ∃ parent declaration, definition.Promotes parent entry.2 declaration entry.1
  schemas : ∀ schema fields, made.schemas.find? schema = some fields → schema ∈ made.origins.map Prod.fst

theorem Promotions.Sound.noting {made : Promotions} {definition declaration : Declaration} {schema parent : String}
    {position : Position} (sound : made.Sound definition)
    (promotes : definition.Promotes parent position declaration schema) :
    (made.noting schema position).Sound definition where
  origins := List.forall_mem_cons.mpr ⟨⟨parent, declaration, promotes⟩, sound.origins⟩
  schemas other fields found := List.mem_cons_of_mem _ (sound.schemas other fields found)

theorem Leaves.sound {definition : Declaration} {visit : Visit} {task : Task} {made after : Promotions}
    {visits : List Visit} (leaves : Leaves visit task made visits after) (reached : definition.Reaches visit)
    (within : task.Within visit.fields) (before : made.Sound definition) : after.Sound definition where
  origins := by
    intro entry listed
    rw [leaves.origins_eq] at listed
    rcases List.mem_append.mp listed with begun | earlier
    · obtain ⟨later, member, rfl⟩ := List.mem_map.mp (List.mem_reverse.mp begun)
      obtain ⟨outer, _, before, name, position, declaration, opens, rfl⟩ := leaves.leads within later member
      exact ⟨outer.schema, declaration, outer, name, reached.trans before, rfl, opens, rfl⟩
    · exact before.origins entry earlier
  schemas := by
    intro schema fields found
    rw [leaves.origins_eq, List.map_append]
    rcases leaves.schemas_iff.mp found with earlier | ⟨later, member, rfl, _⟩
    · exact List.mem_append_right _ (before.schemas schema fields earlier)
    · refine List.mem_append_left _ ?_
      simpa using ⟨later, member, rfl⟩

/-- A run that ends with a name used twice has come to two declarations that derive it. -/
theorem Runs.derivesTwice {definition : Declaration} {visit : Visit} {task : Task} {made : Promotions}
    {visits : List Visit} {outcome : Except CompileError (task.Result × Promotions)}
    (run : Runs visit task made visits outcome) {schema : String}
    (failed : outcome = .error (.duplicateModel schema)) (reached : definition.Reaches visit)
    (within : task.Within visit.fields) (sound : made.Sound definition) : definition.DerivesTwice schema := by
  induction run with
  | missing | cyclic | again | plain | none => cases failed
  | @clash visit _ name _ position origin declaration found closed known different =>
    cases failed
    obtain ⟨parent, further, promotes⟩ := sound.origins _ (mem_of_lookup known)
    exact ⟨parent, origin, further, visit.schema, position, declaration, promotes,
      ⟨visit, name, reached, rfl, ⟨within name rfl, found, closed⟩, rfl⟩, different⟩
  | @opened visit _ name made _ _ _ _ found closed fresh running ih =>
    have opens : visit.Opens name _ _ := ⟨within name rfl, found, closed⟩
    have noted := sound.noting ⟨visit, name, reached, rfl, opens, rfl⟩
    rcases bind_eq_error.mp failed with deeper | ⟨⟨_, between⟩, ended, taken⟩
    · exact ih deeper (reached.tail opens.leads) .self noted
    · -- The name was free when it was noted, and no schema below takes it.
      have leaves := (running.leaves ended).2
      obtain ⟨_, held, there⟩ := Promotions.taken_of_finish taken
      rcases leaves.schemas_iff.mp there with earlier | ⟨later, member, same, _⟩
      · exact absurd (sound.schemas _ _ earlier) (lookup_eq_none.mp fresh)
      · exact absurd (same ▸ List.mem_cons_self) (leaves.fresh.2 later member)
  | referring kind _ ih =>
    rcases bind_eq_error.mp failed with deeper | ⟨_, _, finished⟩
    · exact ih deeper reached (within.reference kind) sound
    · cases finished
  | map kind _ ih =>
    rcases bind_eq_error.mp failed with deeper | ⟨_, _, finished⟩
    · exact ih deeper reached (within.children kind) sound
    · cases finished
  | failed _ ih =>
    cases failed
    exact ih rfl reached within.first sound
  | further first _ _ ihOthers =>
    rcases bind_eq_error.mp failed with deeper | ⟨_, _, finished⟩
    · exact ihOthers deeper reached within.others ((first.leaves rfl).2.sound reached within.first sound)
    · cases finished

theorem Declaration.Expands.derivesTwice {definition : Declaration} {visits : List Visit} {schema : String}
    (expands : definition.Expands visits (.error (.duplicateModel schema))) : definition.DerivesTwice schema := by
  obtain ⟨later, resolved, run, _, outcome⟩ := expands
  have start : Promotions.Sound {} definition := ⟨by simp, by simp [Keyed.find?]⟩
  rcases bind_eq_error.mp outcome.symm with deeper | ⟨⟨_, made⟩, ended, rest⟩
  · exact run.derivesTwice deeper .refl .self start
  · rcases bind_eq_error.mp rest with taken | ⟨_, _, finished⟩
    · have leaves := (run.leaves ended).2
      obtain ⟨_, _, there⟩ := Promotions.taken_of_add taken
      rcases leaves.schemas_iff.mp there with earlier | ⟨visit, member, named, _⟩
      · cases earlier
      · exact absurd named (schema_ne_name leaves member)
    · cases finished

/-! ### Exactness -/

/-- What a definition expands to: its own schema, and one more for each of the references that
can be reached. -/
structure Declaration.IsExpansion (definition : Declaration) (out : Expansion) : Prop where
  ordered : out.Ordered
  root : out.find? definition.name = some (Field.rewrittenAll definition.name definition.fields)
  /-- Every other schema is promoted. -/
  promoted : ∀ schema ∈ out.keys, schema ≠ definition.name → ∃ parent ∈ out.keys, ∃ position declaration,
    definition.Promotes parent position declaration schema ∧
      definition.at? position = some declaration ∧ schema = derivedName parent declaration.name ∧
      out.find? schema = some (Field.rewrittenAll schema declaration.fields)
  /-- There is one parent and one declaration that a schema is promoted from. -/
  once : ∀ schema parent position declaration other place further,
    definition.Promotes parent position declaration schema → definition.Promotes other place further schema →
      parent = other ∧ position = place ∧ declaration = further
  /-- A reference goes to the schema that is made of the declaration it finds. -/
  references : ∀ visit, definition.Reaches visit → ∀ names field target,
    Field.Stands visit.fields names field → field.kind = .submodel target →
      ∃ fields position declaration, out.find? visit.schema = some fields ∧
        Field.Stands fields names ⟨field.name, "model." ++ derivedName visit.schema target, []⟩ ∧
        visit.around.find? target = some (position, declaration) ∧
        definition.Promotes visit.schema position declaration (derivedName visit.schema target) ∧
        out.find? (derivedName visit.schema target) =
          some (Field.rewrittenAll (derivedName visit.schema target) declaration.fields)
  /-- Each schema has all the fields that were declared for it, in their places and their order. -/
  kept : ∀ visit, definition.Reaches visit → ∃ fields, out.find? visit.schema = some fields ∧
    Field.walkAll fields = (Field.walkAll visit.fields).map (Prod.map id (Field.rewritten visit.schema))
  /-- No reference to a submodel is left. -/
  free : ∀ schema fields, out.find? schema = some fields → ∀ names field target,
    Field.Stands fields names field → field.kind ≠ .submodel target

namespace Declaration
variable {definition : Declaration} {visits : List Visit} {out : Expansion}

theorem Expands.isExpansion (expands : definition.Expands visits (.ok out)) : definition.IsExpansion out where
  ordered := by
    obtain ⟨_, made, _, leaves, rfl⟩ := expands.leaves
    exact (leaves.ordered List.Pairwise.nil).insert _ _
  root := expands.find?_iff.mpr ⟨_, .refl, rfl, rfl⟩
  promoted := by
    intro schema listed notRoot
    obtain ⟨_, found⟩ := Keyed.exists_of_mem_keys listed
    obtain ⟨visit, reached, rfl, rfl⟩ := expands.find?_iff.mp found
    rcases Relation.ReflTransGen.cases_tail reached with rfl | ⟨parent, before, leads⟩
    · exact absurd rfl notRoot
    · obtain ⟨name, position, declaration, opens, rfl⟩ := leads
      have promotes : definition.Promotes parent.schema position declaration (derivedName parent.schema name) :=
        ⟨parent, name, before, rfl, opens, rfl⟩
      refine ⟨parent.schema, ?_, position, declaration, promotes, promotes.named.1, promotes.named.2, found⟩
      exact List.mem_map_of_mem (Keyed.mem_of_find? (expands.find?_iff.mpr ⟨parent, before, rfl, rfl⟩))
  once _ _ _ _ _ _ _ := expands.promotes_unique
  references := by
    intro visit reached names field target stands refers
    obtain ⟨position, declaration, opens, begun⟩ :=
      expands.opens (expands.mem_iff.mpr reached) ⟨names, field, stands, refers⟩
    refine ⟨_, position, declaration, expands.find?_iff.mpr ⟨visit, reached, rfl, rfl⟩, ?_, opens.found, ?_, ?_⟩
    · exact Field.stands_rewritten.mpr ⟨field, stands, Field.rewritten_of_submodel refers⟩
    · exact ⟨visit, target, reached, rfl, opens, rfl⟩
    · exact expands.find?_iff.mpr ⟨_, expands.reaches begun, rfl, rfl⟩
  kept visit reached :=
    ⟨_, expands.find?_iff.mpr ⟨visit, reached, rfl, rfl⟩, Field.walkAll_rewritten _ _⟩
  free := by
    intro schema fields found names field target stands
    obtain ⟨visit, _, _, rfl⟩ := expands.find?_iff.mp found
    obtain ⟨declared, _, rfl⟩ := Field.stands_rewritten.mp stands
    exact declared.rewritten_ne_submodel target

/-- If expansion succeeds, it has made exactly the schemas that the references of the definition
ask for. If it fails for a name that is used twice, two declarations derive the name. -/
theorem expand_exact (definition : Declaration) :
    (∀ out, definition.expand = .ok out → definition.IsExpansion out) ∧
      ∀ schema, definition.expand = .error (.duplicateModel schema) → definition.DerivesTwice schema := by
  obtain ⟨visits, expands⟩ := definition.exists_expands
  refine ⟨fun out done => ?_, fun schema failed => ?_⟩
  · rw [done] at expands
    exact expands.isExpansion
  · rw [failed] at expands
    exact expands.derivesTwice

end Declaration

/-- Parcels between parties; the places of parties and those on the route are told apart. -/
def parcel : Declaration :=
  ⟨"parcel", [⟨"sender", "submodel.party", []⟩, .map "route" [⟨"stop", "submodel.place", []⟩]],
    [⟨"party", [⟨"home", "submodel.place", []⟩], []⟩, ⟨"place", [⟨"city", "text", []⟩], []⟩]⟩

/-- Two declarations that derive one name. -/
def homonyms : Declaration :=
  ⟨"m", [⟨"first", "submodel.a", []⟩, ⟨"second", "submodel.a_b", []⟩],
    [⟨"a", [⟨"inner", "submodel.b", []⟩], [⟨"b", [⟨"n", "number", []⟩], []⟩]⟩, ⟨"a_b", [⟨"t", "text", []⟩], []⟩]⟩

theorem parcel_isExpansion :
    parcel.IsExpansion
      [("parcel", [⟨"sender", "model.parcel_party", []⟩, .map "route" [⟨"stop", "model.parcel_place", []⟩]]),
        ("parcel_party", [⟨"home", "model.parcel_party_place", []⟩]),
        ("parcel_party_place", [⟨"city", "text", []⟩]), ("parcel_place", [⟨"city", "text", []⟩])] ∧
      homonyms.DerivesTwice "m_a_b" :=
  ⟨(Declaration.expand_exact parcel).1 _ (by cbv), (Declaration.expand_exact homonyms).2 _ (by cbv)⟩

/-- Crates with a token of a map that goes on behind the kind, and one that names no submodel. -/
def crate : Declaration :=
  ⟨"crate", [⟨"size", "map.metric", [⟨"width", "number", []⟩]⟩, ⟨"owner", "submodel.", []⟩], []⟩

/-- What follows the kind of a map is dropped, and a token that names no submodel is left. -/
theorem crate_tokens : ∃ out fields, crate.expand = .ok out ∧ out.find? "crate" = some fields ∧
    crate.fields.map Field.token = ["map.metric", "submodel."] ∧
    fields.map Field.token = ["map", "submodel."] :=
  ⟨_, _, by cbv, by cbv, rfl, rfl⟩

end Dossier
