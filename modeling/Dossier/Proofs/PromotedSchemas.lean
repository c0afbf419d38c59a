import Dossier.Proofs.PromotionRuns

/-! The schemas of an expansion. A run that succeeds has begun a schema for every reference that
can be reached, each from one declaration under one parent, and has left the fields of every
one of them rewritten and otherwise as they were declared. -/
namespace Dossier

theorem toList_derivedName (parent submodel : String) :
    (derivedName parent submodel).toList = parent.toList ++ '_' :: submodel.toList := by
  change (parent ++ "_" ++ submodel).toList = _
  simp

theorem derivedName_injective {parent other submodel : String}
    (same : derivedName parent submodel = derivedName other submodel) : parent = other := by
  have lists := congrArg String.toList same
  rw [toList_derivedName, toList_derivedName] at lists
  exact String.toList_inj.mp (List.append_cancel_right lists)

mutual
/-- A field of a schema as expansion leaves it: a reference to a submodel goes to the schema
derived from it, the fields in a map are rewritten, and all else stays. -/
def Field.rewritten (schema : String) : Field → Field
  | ⟨name, token, children⟩ =>
    match Kind.ofToken token with
    | .submodel target => ⟨name, "model." ++ derivedName schema target, []⟩
    | .map => .map name (rewrittenAll schema children)
    | _ => ⟨name, token, children⟩
def Field.rewrittenAll (schema : String) : List Field → List Field
  | [] => []
  | field :: rest => field.rewritten schema :: rewrittenAll schema rest
end

namespace Field
variable {schema : String} {field : Field}

theorem rewritten_of_submodel {target : String} (kind : field.kind = .submodel target) :
    field.rewritten schema = ⟨field.name, "model." ++ derivedName schema target, []⟩ := by
  obtain ⟨name, token, children⟩ := field
  have kind : Kind.ofToken token = .submodel target := kind
  simp [rewritten, kind]

theorem rewritten_of_map (kind : field.kind = .map) :
    field.rewritten schema = .map field.name (rewrittenAll schema field.children) := by
  obtain ⟨name, token, children⟩ := field
  have kind : Kind.ofToken token = .map := kind
  simp [rewritten, kind]

theorem rewritten_of_plain (noReference : ∀ target, field.kind ≠ .submodel target)
    (noMap : field.kind ≠ .map) : field.rewritten schema = field := by
  obtain ⟨name, token, children⟩ := field
  rw [rewritten]
  split
  · rename_i target kind
    exact absurd kind (noReference target)
  · rename_i kind
    exact absurd kind noMap
  · rfl

end Field

/-- A token written for a reference to a model is read back without the blanks around the name. -/
theorem Kind.ofToken_model (name : String) : Kind.ofToken ("model." ++ name) =
    if (Text.trim name).isEmpty then .unknown else .model (Text.trim name) := by
  have split : Text.splitFirstDot ("model." ++ name) = ("model", name) := by
    have head : "model.".toList = ['m', 'o', 'd', 'e', 'l', '.'] := by decide
    simp [Text.splitFirstDot, String.toList_append, head]
  have head : Text.trim "model" = "model" := by decide +kernel
  have plain : Primitive.ofToken? "model" = none := by decide +kernel
  simp [Kind.ofToken, split, head, plain]

theorem Kind.ofToken_map : Kind.ofToken "map" = .map := by decide +kernel

@[simp] theorem Field.kind_map (name : String) (children : List Field) : (Field.map name children).kind = .map :=
  Kind.ofToken_map

mutual
theorem Field.walk_rewritten (schema : String) : (field : Field) →
    (field.rewritten schema).walk = field.walk.map (Prod.map id (rewritten schema))
  | ⟨name, token, children⟩ => by
    rw [walk, List.map_cons, Prod.map_apply, id_eq, rewritten]
    split
    · rename_i target kind
      have noMap : Kind.ofToken ("model." ++ derivedName schema target) ≠ .map := by
        rw [Kind.ofToken_model]
        split <;> simp
      rw [walk, if_neg noMap, if_neg (by simp [kind])]
      rfl
    · rename_i isMap
      rw [map, walk, if_pos Kind.ofToken_map, if_pos isMap, walkAll_rewritten schema children]
      simp [List.map_map, Function.comp_def]
    · rename_i noMap
      rw [walk, if_neg noMap]
      rfl
/-- Rewriting keeps all fields in their places and their order. -/
theorem Field.walkAll_rewritten (schema : String) : (fields : List Field) →
    walkAll (rewrittenAll schema fields) = (walkAll fields).map (Prod.map id (rewritten schema))
  | [] => rfl
  | field :: rest => by
    rw [rewrittenAll, walkAll, walkAll, List.map_append, walk_rewritten schema field,
      walkAll_rewritten schema rest]
end

namespace Field
variable {schema : String} {field : Field}

theorem stands_rewritten {fields : List Field} {names : List String} :
    Stands (rewrittenAll schema fields) names field ↔
      ∃ declared, Stands fields names declared ∧ declared.rewritten schema = field := by
  simp only [← mem_walkAll, walkAll_rewritten, List.mem_map, Prod.exists, Prod.map_apply, id_eq, Prod.mk.injEq]
  constructor
  · rintro ⟨_, declared, listed, rfl, same⟩
    exact ⟨declared, listed, same⟩
  · rintro ⟨declared, listed, same⟩
    exact ⟨names, declared, listed, rfl, same⟩

theorem rewritten_ne_submodel (field : Field) (target : String) :
    (field.rewritten schema).kind ≠ .submodel target := by
  obtain ⟨name, token, children⟩ := field
  rw [rewritten]
  split
  · rw [kind, Kind.ofToken_model]
    split <;> simp
  · simp
  · rename_i noReference _
    exact noReference target

end Field

/-- What a task results in within a schema. -/
def Task.rewritten (schema : String) : (task : Task) → task.Result
  | reference _ name => derivedName schema name
  | field _ given => given.rewritten schema
  | fields _ given => Field.rewrittenAll schema given

/-! ### What a run leaves -/

section
variable {α : Type} {entries : List (String × α)} {key : String}

theorem lookup_eq_none : entries.lookup key = none ↔ key ∉ entries.map Prod.fst := by
  rw [List.lookup_eq_none_iff]
  constructor
  · intro different listed
    obtain ⟨entry, member, rfl⟩ := List.mem_map.mp listed
    simpa using different entry member
  · intro absent entry member
    exact bne_iff_ne.mpr fun same => absent (same ▸ List.mem_map_of_mem member)

theorem mem_of_lookup {value : α} (found : entries.lookup key = some value) : (key, value) ∈ entries := by
  obtain ⟨_, _, rfl, _⟩ := List.lookup_eq_some_iff.mp found
  simp

end

namespace Promotions
variable {made after : Promotions} {schema name : String} {fields : List Field}

/-- Puts the fields of a schema under its name. -/
def put (made : Promotions) (schema : String) (fields : List Field) : Promotions :=
  ⟨made.schemas.insert schema fields, made.origins⟩

theorem parts_of_add (added : made.add schema fields = .ok after) :
    made.schemas.find? schema = none ∧ after = made.put schema fields := by
  simp only [add] at added
  split at added
  · cases added
  · rename_i free
    exact ⟨free, (Except.ok.inj added).symm⟩

theorem parts_of_finish (finished : finish schema (fields, made) = .ok (name, after)) :
    name = schema ∧ made.schemas.find? schema = none ∧ after = made.put schema fields := by
  obtain ⟨_, added, done⟩ := bind_eq_ok.mp finished
  cases done
  exact ⟨rfl, parts_of_add added⟩

theorem lookup_noting (made : Promotions) (schema : String) (position : Position) :
    (made.noting schema position).origins.lookup schema = some position :=
  List.lookup_cons_self

end Promotions

/-- A task is done within a visit: the visits that were begun, in their order, and what is
promoted then. -/
inductive Leaves : Visit → Task → Promotions → List Visit → Promotions → Prop where
  | again {visit : Visit} {path name : String} {made : Promotions} {position : Position}
      {declaration : Declaration} (found : visit.around.find? name = some (position, declaration))
      (closed : visit.around.isOpen position = false)
      (known : made.origins.lookup (derivedName visit.schema name) = some position) :
      Leaves visit (.reference path name) made [] made
  | opened {visit : Visit} {path name : String} {made between : Promotions} {position : Position}
      {declaration : Declaration} {visits : List Visit}
      (found : visit.around.find? name = some (position, declaration))
      (closed : visit.around.isOpen position = false)
      (fresh : made.origins.lookup (derivedName visit.schema name) = none)
      (inside : Leaves (visit.next name position declaration) (.fields "" declaration.fields)
        (made.noting (derivedName visit.schema name) position) visits between)
      (free : between.schemas.find? (derivedName visit.schema name) = none) :
      Leaves visit (.reference path name) made (visit.next name position declaration :: visits)
        (between.put (derivedName visit.schema name)
          (Field.rewrittenAll (derivedName visit.schema name) declaration.fields))
  | referring {visit : Visit} {above target : String} {field : Field} {made after : Promotions}
      {visits : List Visit} (kind : field.kind = .submodel target)
      (promoted : Leaves visit (.reference s!"{above}{field.name}" target) made visits after) :
      Leaves visit (.field above field) made visits after
  | map {visit : Visit} {above : String} {field : Field} {made after : Promotions} {visits : List Visit}
      (kind : field.kind = .map)
      (inside : Leaves visit (.fields s!"{above}{field.name}." field.children) made visits after) :
      Leaves visit (.field above field) made visits after
  | plain {visit : Visit} {above : String} {field : Field} {made : Promotions}
      (noReference : ∀ target, field.kind ≠ .submodel target) (noMap : field.kind ≠ .map) :
      Leaves visit (.field above field) made [] made
  | none {visit : Visit} {above : String} {made : Promotions} :
      Leaves visit (.fields above []) made [] made
  | further {visit : Visit} {above : String} {field : Field} {rest : List Field}
      {made between after : Promotions} {visits later : List Visit}
      (first : Leaves visit (.field above field) made visits between)
      (others : Leaves visit (.fields above rest) between later after) :
      Leaves visit (.fields above (field :: rest)) made (visits ++ later) after

/-- A run that succeeds has done its task, and results in what it was given, rewritten. -/
theorem Runs.leaves {visit : Visit} {task : Task} {made after : Promotions} {visits : List Visit}
    {outcome : Except CompileError (task.Result × Promotions)} {result : task.Result}
    (run : Runs visit task made visits outcome) (done : outcome = .ok (result, after)) :
    result = task.rewritten visit.schema ∧ Leaves visit task made visits after := by
  induction run generalizing after with
  | missing | cyclic | clash | failed => cases done
  | again found closed known =>
    cases done
    exact ⟨rfl, .again found closed known⟩
  | opened found closed fresh _ ih =>
    obtain ⟨⟨_, between⟩, ended, finished⟩ := bind_eq_ok.mp done
    obtain ⟨rfl, free, rfl⟩ := Promotions.parts_of_finish finished
    obtain ⟨rfl, inside⟩ := ih ended
    exact ⟨rfl, .opened found closed fresh inside free⟩
  | referring kind _ ih =>
    obtain ⟨⟨_, _⟩, promoted, finished⟩ := bind_eq_ok.mp done
    cases finished
    obtain ⟨rfl, leaves⟩ := ih promoted
    exact ⟨(Field.rewritten_of_submodel kind).symm, .referring kind leaves⟩
  | map kind _ ih =>
    obtain ⟨⟨_, _⟩, inside, finished⟩ := bind_eq_ok.mp done
    cases finished
    obtain ⟨rfl, leaves⟩ := ih inside
    exact ⟨(Field.rewritten_of_map kind).symm, .map kind leaves⟩
  | plain noReference noMap =>
    cases done
    exact ⟨(Field.rewritten_of_plain noReference noMap).symm, .plain noReference noMap⟩
  | none =>
    cases done
    exact ⟨rfl, .none⟩
  | further _ _ ihFirst ihOthers =>
    obtain ⟨⟨_, _⟩, others, finished⟩ := bind_eq_ok.mp done
    cases finished
    obtain ⟨rfl, first⟩ := ihFirst rfl
    obtain ⟨rfl, later⟩ := ihOthers others
    exact ⟨rfl, .further first later⟩

/-- A schema with the position of the declaration that it is promoted from. -/
def Visit.origin (visit : Visit) : String × Position := (visit.schema, visit.around.inside)

namespace Leaves
variable {visit : Visit} {task : Task} {made after : Promotions} {visits : List Visit}

/-- The origins noted are those of the visits begun, the last one first. -/
theorem origins_eq (leaves : Leaves visit task made visits after) :
    after.origins = (visits.map Visit.origin).reverse ++ made.origins := by
  induction leaves with
  | again | plain | none => rfl
  | opened _ _ _ _ _ ih =>
    simp [ih, Promotions.put, Promotions.noting, Visit.origin, Visit.next, Surroundings.inside, Surroundings.enter]
  | referring _ _ ih | map _ _ ih => exact ih
  | further _ _ ihFirst ihOthers => simp [ihOthers, ihFirst]

/-- The schemas begun are all different, and no origin of one had been noted before. -/
theorem fresh (leaves : Leaves visit task made visits after) : (visits.map Visit.schema).Nodup ∧
    ∀ later ∈ visits, later.schema ∉ made.origins.map Prod.fst := by
  induction leaves with
  | again | plain | none => simp
  | opened _ _ free _ _ ih =>
    obtain ⟨distinct, apart⟩ := ih
    simp only [Promotions.noting, List.map_cons, List.mem_cons, not_or] at apart
    refine ⟨List.nodup_cons.mpr ⟨fun again => ?_, distinct⟩, fun later member => ?_⟩
    · obtain ⟨later, member, same⟩ := List.mem_map.mp again
      exact (apart later member).1 same
    · rcases List.mem_cons.mp member with rfl | among
      · exact lookup_eq_none.mp free
      · exact (apart later among).2
  | referring _ _ ih | map _ _ ih => exact ih
  | further first _ ihFirst ihOthers =>
    obtain ⟨distinct, apart⟩ := ihFirst
    obtain ⟨distinctToo, apartToo⟩ := ihOthers
    simp only [first.origins_eq, List.map_append, List.map_reverse, List.map_map, List.mem_append,
      List.mem_reverse, not_or] at apartToo
    refine ⟨?_, fun later member => ?_⟩
    · rw [List.map_append]
      refine distinct.append distinctToo fun schema early late => ?_
      obtain ⟨later, member, rfl⟩ := List.mem_map.mp late
      exact (apartToo later member).1 early
    · rcases List.mem_append.mp member with early | late
      · exact apart later early
      · exact (apartToo later late).2

/-- An origin that is noted stays. -/
theorem lookup_of_lookup (leaves : Leaves visit task made visits after) {schema : String} {position : Position}
    (noted : made.origins.lookup schema = some position) : after.origins.lookup schema = some position := by
  have before : schema ∈ made.origins.map Prod.fst := List.mem_map_of_mem (mem_of_lookup noted)
  have apart : (visits.map Visit.origin).reverse.lookup schema = Option.none := by
    refine lookup_eq_none.mpr fun among => ?_
    obtain ⟨_, listed, rfl⟩ := List.mem_map.mp among
    obtain ⟨later, member, rfl⟩ := List.mem_map.mp (List.mem_reverse.mp listed)
    exact leaves.fresh.2 later member before
  rw [leaves.origins_eq, List.lookup_append, apart, noted]
  rfl

/-- The schemas made are those of the visits begun, with their fields rewritten, beside those
made before. -/
theorem schemas_iff (leaves : Leaves visit task made visits after) {schema : String} {fields : List Field} :
    after.schemas.find? schema = some fields ↔ made.schemas.find? schema = some fields ∨
      ∃ later ∈ visits, later.schema = schema ∧ fields = Field.rewrittenAll schema later.fields := by
  induction leaves with
  | again | plain | none => simp
  | @opened visit _ name _ _ position declaration _ _ _ _ _ free before =>
    simp only [Promotions.put, Keyed.find?_insert, List.mem_cons, exists_eq_or_imp]
    rw [Promotions.schemas_noting] at before
    by_cases same : derivedName visit.schema name = schema
    · subst same
      obtain ⟨notBefore, notInside⟩ := not_or.mp (before.not.mp (by simp [free]))
      rw [if_pos rfl, Option.some.injEq, or_iff_right notBefore, or_iff_left notInside, eq_comm]
      exact (and_iff_right rfl).symm
    · have other : ¬ (visit.next name position declaration).schema = schema := same
      simp only [same, other, if_false, before, false_and, false_or]
  | referring _ _ ih | map _ _ ih => exact ih
  | further _ _ ihFirst ihOthers => simp [ihOthers, ihFirst, or_assoc, or_and_right, exists_or]

/-- The schemas made stay in the order of their names. -/
theorem ordered (leaves : Leaves visit task made visits after) (before : made.schemas.Ordered) :
    after.schemas.Ordered := by
  induction leaves with
  | again | plain | none => exact before
  | opened _ _ _ _ _ ih => exact (ih before).insert _ _
  | referring _ _ ih | map _ _ ih => exact ih before
  | further _ _ ihFirst ihOthers => exact ihOthers (ihFirst before)

end Leaves

/-! ### From reference to reference -/

/-- A reference in a visit finds a declaration that is not open there. -/
structure Visit.Opens (visit : Visit) (name : String) (position : Position) (declaration : Declaration) :
    Prop where
  mention : Field.Mention visit.fields name
  found : visit.around.find? name = some (position, declaration)
  closed : visit.around.isOpen position = false

/-- A reference in a visit begins another one. -/
def Visit.Leads (visit next : Visit) : Prop :=
  ∃ name position declaration, visit.Opens name position declaration ∧ next = visit.next name position declaration

/-- References lead to a visit, one after the other from the definition on. -/
def Declaration.Reaches (definition : Declaration) : Visit → Prop :=
  Relation.ReflTransGen Visit.Leads definition.visit

/-- A reference finds a declaration that is not open, and it is this one that the derived schema
is promoted from. -/
def Visit.Settles (visit : Visit) (made : Promotions) (name : String) : Prop :=
  ∃ position declaration, visit.around.find? name = some (position, declaration) ∧
    visit.around.isOpen position = false ∧
    made.origins.lookup (derivedName visit.schema name) = some position

namespace Leaves
variable {visit : Visit} {task : Task} {made after : Promotions} {visits : List Visit}

/-- Every visit that is begun is led to from another one, and this one from the first. -/
theorem leads (leaves : Leaves visit task made visits after) (within : task.Within visit.fields) :
    ∀ later ∈ visits, ∃ outer ∈ visit :: visits,
      Relation.ReflTransGen Visit.Leads visit outer ∧ outer.Leads later := by
  induction leaves with
  | again | plain | none => simp
  | opened found closed _ _ _ ih =>
    have first : Visit.Leads _ _ := ⟨_, _, _, ⟨within _ rfl, found, closed⟩, rfl⟩
    intro later member
    rcases List.mem_cons.mp member with rfl | among
    · exact ⟨_, List.mem_cons_self, .refl, first⟩
    · obtain ⟨outer, listed, reached, leads⟩ := ih .self later among
      exact ⟨outer, List.mem_cons_of_mem _ listed, reached.head first, leads⟩
  | referring kind _ ih => exact ih (within.reference kind)
  | map kind _ ih => exact ih (within.children kind)
  | further _ _ ihFirst ihOthers =>
    intro later member
    rcases List.mem_append.mp member with early | late
    · obtain ⟨outer, listed, leads⟩ := ihFirst within.first later early
      exact ⟨outer, List.cons_subset_cons _ (List.subset_append_left _ _) listed, leads⟩
    · obtain ⟨outer, listed, leads⟩ := ihOthers within.others later late
      exact ⟨outer, List.cons_subset_cons _ (List.subset_append_right _ _) listed, leads⟩

theorem settles_of_settles (leaves : Leaves visit task made visits after) {other : Visit} {name : String}
    (settles : other.Settles made name) : other.Settles after name := by
  obtain ⟨position, declaration, found, closed, noted⟩ := settles
  exact ⟨position, declaration, found, closed, leaves.lookup_of_lookup noted⟩

/-- Every reference is settled that the task meets or a visit that is begun. -/
theorem settles (leaves : Leaves visit task made visits after) :
    (∀ name, task.Meets name → visit.Settles after name) ∧
      ∀ later ∈ visits, ∀ name, Field.Mention later.fields name → later.Settles after name := by
  induction leaves with
  | again found closed known =>
    refine ⟨?_, by simp⟩
    rintro name rfl
    exact ⟨_, _, found, closed, known⟩
  | opened found closed _ inside _ ih =>
    obtain ⟨own, deeper⟩ := ih
    have noted := inside.lookup_of_lookup (Promotions.lookup_noting _ _ _)
    refine ⟨?_, fun later member => ?_⟩
    · rintro name rfl
      exact ⟨_, _, found, closed, noted⟩
    · rcases List.mem_cons.mp member with rfl | among
      · exact own
      · exact deeper later among
  | referring kind _ ih =>
    obtain ⟨own, deeper⟩ := ih
    refine ⟨fun name meets => ?_, deeper⟩
    rcases Field.mention_singleton.mp meets with also | ⟨isMap, _⟩
    · exact own name (Kind.submodel.inj (kind.symm.trans also))
    · simp [kind] at isMap
  | map kind _ ih =>
    obtain ⟨own, deeper⟩ := ih
    refine ⟨fun name meets => ?_, deeper⟩
    rcases Field.mention_singleton.mp meets with reference | ⟨_, mention⟩
    · simp [kind] at reference
    · exact own name mention
  | plain noReference noMap =>
    refine ⟨fun name meets => ?_, by simp⟩
    rcases Field.mention_singleton.mp meets with reference | ⟨isMap, _⟩
    · exact absurd reference (noReference name)
    · exact absurd isMap noMap
  | none => exact ⟨fun name meets => absurd meets Field.not_mention_nil, by simp⟩
  | further _ others ihFirst ihOthers =>
    obtain ⟨own, deeper⟩ := ihFirst
    obtain ⟨ownToo, deeperToo⟩ := ihOthers
    refine ⟨fun name meets => ?_, fun later member name mention => ?_⟩
    · rcases Field.mention_cons.mp meets with here | further
      · exact others.settles_of_settles (own name here)
      · exact ownToo name further
    · rcases List.mem_append.mp member with early | late
      · exact others.settles_of_settles (deeper later early name mention)
      · exact deeperToo later late name mention

end Leaves
end Dossier
