import Dossier.Definition.Expansion
import Dossier.Definition.Format
import Dossier.Proofs.KeyedEntries
import Dossier.Proofs.Outcomes
import Mathlib.Data.List.Nodup

/-! The fields that a definition declares at any depth, each under the names that lead to
it. The rules of definitions keep these apart, and so does expansion. -/
namespace Dossier

/-- A declared field stands at the end of some names: the last is its own, the others are
those of the maps around it. -/
inductive Field.Stands : List Field → List String → Field → Prop where
  | here {fields : List Field} {field : Field} (member : field ∈ fields) :
      Stands fields [field.name] field
  | inside {fields : List Field} {outer field : Field} {names : List String} (member : outer ∈ fields)
      (isMap : outer.kind = .map) (within : Stands outer.children names field) :
      Stands fields (outer.name :: names) field

mutual
/-- A field and, if it is a map, the fields within it, each with the names that lead to it, in
written order, depth first. -/
def Field.walk : Field → List (List String × Field)
  | ⟨name, token, children⟩ =>
    ([name], ⟨name, token, children⟩) ::
      if Kind.ofToken token = .map then (walkAll children).map (Prod.map (name :: ·) id) else []
def Field.walkAll : List Field → List (List String × Field)
  | [] => []
  | field :: rest => field.walk ++ walkAll rest
end

mutual
/-- No two fields in one place inside a field have the same name. -/
def Field.Distinct : Field → Prop
  | ⟨_, token, children⟩ => Kind.ofToken token = .map → DistinctAll children
def Field.DistinctAll : List Field → Prop
  | [] => True
  | field :: rest => field.name ∉ rest.map Field.name ∧ field.Distinct ∧ DistinctAll rest
end

namespace Field
variable {fields : List Field} {field other : Field} {names : List String}

theorem Stands.ne_nil (stands : Stands fields names field) : names ≠ [] := by
  cases stands <;> simp

theorem DistinctAll.distinct (distinct : DistinctAll fields) (member : field ∈ fields) :
    field.Distinct := by
  induction fields with
  | nil => cases member
  | cons first rest ih =>
    obtain ⟨_, here, later⟩ := distinct
    rcases List.mem_cons.mp member with rfl | among
    · exact here
    · exact ih later among

theorem DistinctAll.nodup (distinct : DistinctAll fields) : (fields.map Field.name).Nodup := by
  induction fields with
  | nil => exact List.nodup_nil
  | cons first rest ih =>
    obtain ⟨fresh, _, later⟩ := distinct
    exact List.nodup_cons.mpr ⟨fresh, ih later⟩

theorem DistinctAll.eq_of_name_eq (distinct : DistinctAll fields) (member : field ∈ fields)
    (also : other ∈ fields) (same : field.name = other.name) : field = other :=
  List.inj_on_of_nodup_map distinct.nodup member also same

theorem Distinct.children (distinct : field.Distinct) (isMap : field.kind = .map) :
    DistinctAll field.children := by
  obtain ⟨_, _, _⟩ := field
  exact distinct isMap

/-- The first name leads to a field of the list, the others from there. -/
theorem stands_cons_iff {name : String} {rest : List String} :
    Stands fields (name :: rest) field ↔ ∃ first ∈ fields, first.name = name ∧
      ((rest = [] ∧ first = field) ∨ (first.kind = .map ∧ Stands first.children rest field)) := by
  constructor
  · intro stands
    cases stands with
    | here member => exact ⟨field, member, rfl, .inl ⟨rfl, rfl⟩⟩
    | inside member isMap within => exact ⟨_, member, rfl, .inr ⟨isMap, within⟩⟩
  · rintro ⟨first, member, rfl, ⟨rfl, rfl⟩ | ⟨isMap, within⟩⟩
    · exact .here member
    · exact .inside member isMap within

theorem Stands.cons (first : Field) (stands : Stands fields names field) :
    Stands (first :: fields) names field := by
  cases stands with
  | here member => exact .here (List.mem_cons_of_mem _ member)
  | inside member isMap within => exact .inside (List.mem_cons_of_mem _ member) isMap within

end Field

mutual
theorem Field.stands_of_mem_walk {names : List String} {field : Field} {fields : List Field} :
    (outer : Field) → outer ∈ fields → (names, field) ∈ outer.walk → Stands fields names field
  | ⟨name, token, children⟩ => by
    intro listed member
    rw [walk] at member
    rcases List.mem_cons.mp member with same | within
    · obtain ⟨rfl, rfl⟩ := Prod.mk.inj same
      exact .here listed
    · split at within
      · rename_i isMap
        obtain ⟨⟨rest, inner⟩, deeper, same⟩ := List.mem_map.mp within
        obtain ⟨rfl, rfl⟩ := Prod.mk.inj same
        exact .inside listed isMap (stands_of_mem_walkAll children deeper)
      · cases within
theorem Field.stands_of_mem_walkAll {names : List String} {field : Field} : (fields : List Field) →
    (names, field) ∈ walkAll fields → Stands fields names field
  | [] => by simp [walkAll]
  | first :: rest => by
    intro member
    rcases List.mem_append.mp member with own | later
    · exact stands_of_mem_walk first List.mem_cons_self own
    · exact (stands_of_mem_walkAll rest later).cons first
end

namespace Field
variable {fields : List Field} {field other : Field} {names : List String}

theorem walk_subset (member : field ∈ fields) : field.walk ⊆ walkAll fields := by
  induction fields with
  | nil => cases member
  | cons first rest ih =>
    rcases List.mem_cons.mp member with rfl | later
    · exact List.subset_append_left _ _
    · exact List.Subset.trans (ih later) (List.subset_append_right _ _)

/-- The walk comes to every field at its names, and to nothing else. -/
theorem mem_walkAll : (names, field) ∈ walkAll fields ↔ Stands fields names field := by
  refine ⟨stands_of_mem_walkAll fields, fun stands => ?_⟩
  induction stands with
  | @here _ field member =>
    obtain ⟨name, token, children⟩ := field
    exact walk_subset member (by simp [walk])
  | @inside _ outer _ _ member isMap _ ih =>
    obtain ⟨name, token, children⟩ := outer
    have isMap : Kind.ofToken token = .map := isMap
    refine walk_subset member ?_
    rw [walk, if_pos isMap]
    exact List.mem_cons_of_mem _ (List.mem_map.mpr ⟨_, ih, rfl⟩)

/-- Names lead to one field at most. -/
theorem Stands.unique (distinct : DistinctAll fields) (stands : Stands fields names field)
    (also : Stands fields names other) : field = other := by
  induction names generalizing fields with
  | nil => exact absurd rfl stands.ne_nil
  | cons name rest ih =>
    obtain ⟨first, member, named, way⟩ := stands_cons_iff.mp stands
    obtain ⟨second, alsoMember, alsoNamed, alsoWay⟩ := stands_cons_iff.mp also
    obtain rfl := distinct.eq_of_name_eq member alsoMember (named.trans alsoNamed.symm)
    rcases way with ⟨rfl, rfl⟩ | ⟨isMap, within⟩ <;> rcases alsoWay with ⟨empty, rfl⟩ | ⟨_, alsoWithin⟩
    · rfl
    · exact absurd rfl alsoWithin.ne_nil
    · exact absurd empty within.ne_nil
    · exact ih ((distinct.distinct member).children isMap) within alsoWithin

/-- Whatever stands further below a place stands in a map at that place. -/
theorem Stands.outer (nonempty : names ≠ []) {rest : List String} (further : rest ≠ [])
    (stands : Stands fields (names ++ rest) field) :
    ∃ outer, Stands fields names outer ∧ outer.kind = .map ∧ Stands outer.children rest field := by
  induction names generalizing fields with
  | nil => exact absurd rfl nonempty
  | cons name others ih =>
    obtain ⟨first, member, rfl, way⟩ := stands_cons_iff.mp stands
    rcases way with ⟨empty, _⟩ | ⟨isMap, within⟩
    · exact absurd (List.append_eq_nil_iff.mp empty).2 further
    · by_cases last : others = []
      · subst last
        exact ⟨first, .here member, isMap, within⟩
      · obtain ⟨outer, deeper, outerMap, inside⟩ := ih last within
        exact ⟨outer, .inside member isMap deeper, outerMap, inside⟩

/-! ### What the rules ensure -/

mutual
theorem distinct_of_checkInside {owner : String} : (field : Field) →
    field.checkInside owner = .ok () → field.Distinct
  | ⟨name, token, children⟩ => by
    intro passed isMap
    rw [checkInside, if_pos isMap] at passed
    have checked : checkAll s!"{owner}.{name}" [] children = .ok () := by
      split at passed
      · cases passed
      · exact passed
    exact (distinctAll_of_checkAll children checked).1
/-- Fields that pass the check are distinct, and none has a name seen before them. -/
theorem distinctAll_of_checkAll {owner : String} {seen : List String} : (fields : List Field) →
    checkAll owner seen fields = .ok () → DistinctAll fields ∧ ∀ field ∈ fields, field.name ∉ seen
  | [] => fun _ => ⟨trivial, by simp⟩
  | field :: rest => by
    intro passed
    simp only [checkAll] at passed
    split at passed
    · cases passed
    split at passed
    · cases passed
    rename_i fresh
    obtain ⟨_, inside, others⟩ := bind_eq_ok.mp passed
    obtain ⟨distinct, apart⟩ := distinctAll_of_checkAll rest others
    refine ⟨⟨fun again => ?_, distinct_of_checkInside field inside, distinct⟩, fun other member => ?_⟩
    · obtain ⟨other, member, same⟩ := List.mem_map.mp again
      exact apart other member (by simp [same])
    · rcases List.mem_cons.mp member with rfl | later
      · simpa using fresh
      · exact fun earlier => apart other later (List.mem_cons_of_mem _ earlier)
end

end Field

theorem Declaration.checkInside_of_mem {owner : String} {seen : List String}
    {submodels : List Declaration} (passed : checkSubmodels owner seen submodels = .ok ())
    {submodel : Declaration} (member : submodel ∈ submodels) : submodel.checkInside = .ok () := by
  induction submodels generalizing seen with
  | nil => cases member
  | cons first rest ih =>
    simp only [checkSubmodels] at passed
    split at passed
    · cases passed
    split at passed
    · cases passed
    obtain ⟨_, inside, others⟩ := bind_eq_ok.mp passed
    rcases List.mem_cons.mp member with rfl | later
    · exact inside
    · exact ih others later

theorem Declaration.parts_of_checkInside {declaration : Declaration}
    (passed : declaration.checkInside = .ok ()) :
    Field.DistinctAll declaration.fields ∧
      ∀ submodel ∈ declaration.submodels, submodel.checkInside = .ok () := by
  obtain ⟨name, fields, submodels⟩ := declaration
  rw [checkInside] at passed
  obtain ⟨_, ownFields, others⟩ := bind_eq_ok.mp passed
  exact ⟨(Field.distinctAll_of_checkAll fields ownFields).1, fun _ => checkInside_of_mem others⟩

theorem Declaration.checkInside_of_validate {definition : Declaration}
    (accepted : definition.validate = .ok ()) : definition.checkInside = .ok () := by
  simp only [validate] at accepted
  split at accepted
  · cases accepted
  · exact accepted

/-- Reading a text yields only definitions that follow the rules. -/
theorem Declaration.validate_of_parse {text : String} {definition : Declaration}
    (read : parse text = .ok definition) : definition.validate = .ok () := by
  simp only [parse, parseAt] at read
  split at read
  · cases read
  split at read
  · rename_i accepted
    obtain rfl := Except.ok.inj read
    exact accepted
  · cases read

/-! ### What promotion leaves as it is -/

/-- What is so before a promotion is so after it. -/
def Promoter.Preserves (promoter : Promoter) (holds : Promotions → Prop) : Prop :=
  ∀ schema path name made result, holds made → promoter schema path name made = .ok result →
    holds result.2

section
variable {promoter : Promoter} {schema : String}

mutual
/-- Promotion keeps the names of fields, and fields that are distinct. -/
theorem Field.distinct_of_resolve {above : String} : (field : Field) → ∀ {made result},
    field.resolve promoter schema above made = .ok result →
      result.1.name = field.name ∧ (field.Distinct → result.1.Distinct)
  | ⟨name, token, children⟩ => by
    intro resolved
    simp only [resolve] at resolved
    split at resolved
    · obtain ⟨_, _, rest⟩ := bind_eq_ok.mp resolved
      cases rest
      exact ⟨rfl, fun _ _ => trivial⟩
    · rename_i isMap
      obtain ⟨_, inside, rest⟩ := bind_eq_ok.mp resolved
      cases rest
      exact ⟨rfl, fun distinct _ => (distinctAll_of_resolveAll children inside).2 (distinct isMap)⟩
    · cases resolved
      exact ⟨rfl, id⟩
theorem Field.distinctAll_of_resolveAll {above : String} : (fields : List Field) → ∀ {made result},
    resolveAll promoter schema above fields made = .ok result →
      result.1.map Field.name = fields.map Field.name ∧ (DistinctAll fields → DistinctAll result.1)
  | [] => by
    intro resolved
    cases resolved
    exact ⟨rfl, id⟩
  | field :: rest => by
    intro resolved
    simp only [resolveAll] at resolved
    obtain ⟨first, own, others⟩ := bind_eq_ok.mp resolved
    obtain ⟨later, rested, finished⟩ := bind_eq_ok.mp others
    cases finished
    obtain ⟨named, kept⟩ := distinct_of_resolve field own
    obtain ⟨names, keptAll⟩ := distinctAll_of_resolveAll rest rested
    refine ⟨by simp [named, names], fun distinct => ⟨?_, kept distinct.2.1, keptAll distinct.2.2⟩⟩
    rw [named, names]
    exact distinct.1
end

variable {holds : Promotions → Prop}

mutual
/-- What every promotion preserves, going through fields preserves. -/
theorem Field.resolve_preserves
    (step : promoter.Preserves holds) {above : String} :
    (field : Field) → ∀ {made result}, holds made →
      field.resolve promoter schema above made = .ok result → holds result.2
  | ⟨name, token, children⟩ => by
    intro before resolved
    simp only [resolve] at resolved
    split at resolved
    · obtain ⟨_, promoted, rest⟩ := bind_eq_ok.mp resolved
      cases rest
      exact step _ _ _ _ _ before promoted
    · obtain ⟨_, inside, rest⟩ := bind_eq_ok.mp resolved
      cases rest
      exact resolveAll_preserves step children before inside
    · cases resolved
      exact before
theorem Field.resolveAll_preserves
    (step : promoter.Preserves holds) {above : String} :
    (fields : List Field) → ∀ {made result}, holds made →
      resolveAll promoter schema above fields made = .ok result → holds result.2
  | [] => by
    intro before resolved
    cases resolved
    exact before
  | field :: rest => by
    intro before resolved
    simp only [resolveAll] at resolved
    obtain ⟨first, own, others⟩ := bind_eq_ok.mp resolved
    obtain ⟨later, rested, finished⟩ := bind_eq_ok.mp others
    cases finished
    have through := resolveAll_preserves step rest (resolve_preserves step field before own) rested
    exact through
end

end

/-- Every schema made so far has fields of a kind. -/
def Promotions.All (good : List Field → Prop) (made : Promotions) : Prop :=
  ∀ entry ∈ made.schemas, good entry.2

theorem Promotions.All.add {good : List Field → Prop} {made result : Promotions} {name : String}
    {fields : List Field} (before : made.All good) (own : good fields)
    (added : made.add name fields = .ok result) : result.All good := by
  simp only [Promotions.add] at added
  split at added
  · cases added
  · obtain rfl := Except.ok.inj added
    intro entry member
    rcases Keyed.mem_insert member with rfl | earlier
    · exact own
    · exact before entry earlier

/-- A property of declarations that their submodels have as well, and what resolving the
fields of such declarations ensures. -/
structure Ensures (sound : Declaration → Prop) (good : List Field → Prop) : Prop where
  submodels : ∀ {declaration}, sound declaration → ∀ submodel ∈ declaration.submodels, sound submodel
  fields : ∀ {declaration}, sound declaration → ∀ {promoter schema made result},
    Field.resolveAll promoter schema "" declaration.fields made = .ok result → good result.1

section
variable {sound : Declaration → Prop} {good : List Field → Prop}

theorem promote_all (ensures : Ensures sound good) (budget : Nat) {around : Surroundings}
    (scopes : ∀ scope ∈ around.scopes, ∀ submodel ∈ scope.submodels, sound submodel) :
    (promote budget around).Preserves (Promotions.All good) := by
  induction budget generalizing around with
  | zero =>
    intro schema path name made result before promoted
    simp only [promote] at promoted
    repeat' split at promoted
    all_goals cases promoted
    exact before
  | succ budget ih =>
    intro schema path name made result before promoted
    simp only [promote] at promoted
    split at promoted
    · cases promoted
    rename_i position declaration found
    split at promoted
    · cases promoted
    split at promoted
    · split at promoted
      · cases promoted
        exact before
      · cases promoted
    · obtain ⟨⟨fields, inside⟩, resolved, rest⟩ := bind_eq_ok.mp promoted
      obtain ⟨added, adding, finished⟩ := bind_eq_ok.mp rest
      cases finished
      have own : sound declaration := by
        obtain ⟨scope, listed, here⟩ := List.exists_of_findSome?_eq_some found
        obtain ⟨⟨declared, index⟩, among, same⟩ := Option.map_eq_some_iff.mp here
        obtain ⟨_, rfl⟩ := Prod.mk.inj same
        exact scopes scope listed _ (List.fst_mem_of_mem_zipIdx (List.mem_of_find?_eq_some among))
      have entered : ∀ scope ∈ (around.enter position declaration).scopes,
          ∀ submodel ∈ scope.submodels, sound submodel := by
        intro scope member
        rcases List.mem_cons.mp member with rfl | outer
        · exact ensures.submodels own
        · exact scopes scope outer
      have started : Promotions.All good ⟨made.schemas, (derivedName schema name, position) :: made.origins⟩ :=
        before
      have through := Field.resolveAll_preserves (ih entered) declaration.fields started resolved
      exact through.add (ensures.fields own resolved) adding

/-- The schemas of an expansion are fields of declarations within the definition, resolved. -/
theorem Declaration.all_of_expand (ensures : Ensures sound good) {definition : Declaration}
    {expansion : Expansion} (own : sound definition) (expanded : definition.expand = .ok expansion) :
    ∀ entry ∈ expansion, good entry.2 := by
  obtain ⟨⟨fields, inside⟩, resolved, rest⟩ := bind_eq_ok.mp expanded
  obtain ⟨added, adding, finished⟩ := bind_eq_ok.mp rest
  cases finished
  have start : Promotions.All good {} := by simp [Promotions.All]
  have scopes : ∀ scope ∈ [Scope.mk [] definition.submodels], ∀ submodel ∈ scope.submodels,
      sound submodel := by
    intro scope listed
    obtain rfl := List.mem_singleton.mp listed
    exact ensures.submodels own
  have promoting : (promote definition.countWithin
      ⟨definition.name, [⟨[], definition.submodels⟩], []⟩).Preserves (Promotions.All good) :=
    promote_all ensures _ scopes
  have through := Field.resolveAll_preserves promoting definition.fields start resolved
  exact through.add (ensures.fields own resolved) adding

end

/-- The fields of every schema that a definition expands to are distinct in each place. -/
theorem Declaration.distinctAll_of_expand {definition : Declaration} {expansion : Expansion}
    (passed : definition.checkInside = .ok ()) (expanded : definition.expand = .ok expansion)
    {name : String} {fields : List Field} (member : (name, fields) ∈ expansion) :
    Field.DistinctAll fields := by
  have ensures : Ensures (fun declaration => declaration.checkInside = .ok ()) Field.DistinctAll :=
    ⟨fun inside => (parts_of_checkInside inside).2, fun inside _ _ _ _ resolved =>
      (Field.distinctAll_of_resolveAll _ resolved).2 (parts_of_checkInside inside).1⟩
  exact all_of_expand ensures passed expanded _ member

end Dossier
