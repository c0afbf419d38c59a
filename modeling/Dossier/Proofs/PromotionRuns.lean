import Dossier.Proofs.DeclaredFields
import Dossier.Proofs.LexicalScope
import Mathlib

/-! Runs of expansion that no bound cuts short. A run goes through a task in finitely many
steps and begins schemas on the way; every definition has exactly one, and expansion computes
its outcome. The declarations that are open at any time of it are all different. -/
namespace Dossier

/-- A schema in the making: the fields it is made of and what surrounds them. -/
structure Visit where
  schema : String
  around : Surroundings
  fields : List Field

/-- One of some fields refers to a submodel, be it within maps. -/
def Field.Mention (fields : List Field) (name : String) : Prop :=
  ∃ names field, Stands fields names field ∧ field.kind = .submodel name

namespace Field
variable {fields : List Field} {field : Field} {name : String}

@[simp] theorem not_mention_nil : ¬ Mention [] name := by
  rintro ⟨_, _, ⟨⟨⟩⟩ | ⟨⟨⟩, _, _⟩, _⟩

theorem mention_singleton :
    Mention [field] name ↔ field.kind = .submodel name ∨ field.kind = .map ∧ Mention field.children name := by
  constructor
  · rintro ⟨names, inner, stands, refers⟩
    cases stands with
    | here member => exact .inl (List.mem_singleton.mp member ▸ refers)
    | inside member isMap within =>
      obtain rfl := List.mem_singleton.mp member
      exact .inr ⟨isMap, _, inner, within, refers⟩
  · rintro (refers | ⟨isMap, names, inner, stands, refers⟩)
    · exact ⟨_, field, .here (List.mem_singleton_self field), refers⟩
    · exact ⟨_, inner, .inside (List.mem_singleton_self field) isMap stands, refers⟩

theorem mention_cons : Mention (field :: fields) name ↔ Mention [field] name ∨ Mention fields name := by
  constructor
  · rintro ⟨names, inner, stands, refers⟩
    cases stands with
    | here member =>
      rcases List.mem_cons.mp member with rfl | later
      · exact .inl ⟨_, inner, .here (List.mem_singleton_self inner), refers⟩
      · exact .inr ⟨_, inner, .here later, refers⟩
    | inside member isMap within =>
      rcases List.mem_cons.mp member with rfl | later
      · exact .inl ⟨_, inner, .inside (List.mem_singleton_self _) isMap within, refers⟩
      · exact .inr ⟨_, inner, .inside later isMap within, refers⟩
  · rintro (⟨names, inner, stands, refers⟩ | ⟨names, inner, stands, refers⟩)
    · cases stands with
      | here member => exact ⟨_, inner, .here (List.mem_singleton.mp member ▸ List.mem_cons_self), refers⟩
      | inside member isMap within =>
        exact ⟨_, inner, .inside (List.mem_singleton.mp member ▸ List.mem_cons_self) isMap within, refers⟩
    · exact ⟨_, inner, stands.cons field, refers⟩

end Field

/-- The schema that a reference begins with the declaration that it finds. -/
def Visit.next (visit : Visit) (name : String) (position : Position) (declaration : Declaration) : Visit :=
  ⟨derivedName visit.schema name, visit.around.enter position declaration, declaration.fields⟩

/-- The schema of a definition itself. -/
def Declaration.visit (definition : Declaration) : Visit :=
  ⟨definition.name, definition.surroundings, definition.fields⟩

/-- What there is to do within a visit; `above` is the path of the map around the fields, with
a dot at its end. -/
inductive Task where
  | reference (path name : String)
  | field (above : String) (field : Field)
  | fields (above : String) (fields : List Field)

namespace Task

/-- What a task results in: the name of a schema for a reference, fields for fields. -/
abbrev Result : Task → Type
  | reference _ _ => String
  | field _ _ => Field
  | fields _ _ => List Field

/-- A task comes to a reference to a submodel. -/
def Meets : Task → String → Prop
  | reference _ name, other => name = other
  | field _ given, name => Field.Mention [given] name
  | fields _ given, name => Field.Mention given name

/-- All references that a task comes to are in some fields. -/
def Within (task : Task) (fields : List Field) : Prop := ∀ name, task.Meets name → Field.Mention fields name

namespace Within
variable {all rest : List Field} {given : Field} {above deeper path target : String}

theorem self : (fields above all).Within all := fun _ mention => mention

theorem reference (within : (field above given).Within all) (kind : given.kind = .submodel target) :
    (reference path target).Within all := by
  rintro name rfl
  exact within _ (Field.mention_singleton.mpr (.inl kind))

theorem children (within : (field above given).Within all) (kind : given.kind = .map) :
    (fields deeper given.children).Within all :=
  fun name mention => within name (Field.mention_singleton.mpr (.inr ⟨kind, mention⟩))

theorem first (within : (fields above (given :: rest)).Within all) : (field above given).Within all :=
  fun name mention => within name (Field.mention_cons.mpr (.inl mention))

theorem others (within : (fields above (given :: rest)).Within all) : (fields above rest).Within all :=
  fun name mention => within name (Field.mention_cons.mpr (.inr mention))

end Within
end Task

/-- Notes that a schema is promoted from the declaration at a position. -/
def Promotions.noting (made : Promotions) (schema : String) (position : Position) : Promotions :=
  { made with origins := (schema, position) :: made.origins }

@[simp] theorem Promotions.schemas_noting (made : Promotions) (schema : String) (position : Position) :
    (made.noting schema position).schemas = made.schemas := rfl

/-- Adds the fields of a promoted schema and answers with its name. -/
def Promotions.finish (schema : String) : List Field × Promotions → Except CompileError (String × Promotions)
  | (fields, made) => do
    let made ← made.add schema fields
    return (schema, made)

/-- A run goes through a task within a visit: the visits that it begins, in their order, and
its outcome. -/
inductive Runs : (visit : Visit) → (task : Task) → Promotions → List Visit →
    Except CompileError (task.Result × Promotions) → Prop where
  | missing {visit : Visit} {path name : String} {made : Promotions}
      (absent : visit.around.find? name = none) :
      Runs visit (.reference path name) made [] (.error (.missingSubmodel visit.schema path name))
  | cyclic {visit : Visit} {path name : String} {made : Promotions} {position : Position}
      {declaration : Declaration} (found : visit.around.find? name = some (position, declaration))
      (isOpen : visit.around.isOpen position = true) :
      Runs visit (.reference path name) made [] (.error (visit.around.cycle name))
  | again {visit : Visit} {path name : String} {made : Promotions} {position : Position}
      {declaration : Declaration} (found : visit.around.find? name = some (position, declaration))
      (closed : visit.around.isOpen position = false)
      (known : made.origins.lookup (derivedName visit.schema name) = some position) :
      Runs visit (.reference path name) made [] (.ok (derivedName visit.schema name, made))
  | clash {visit : Visit} {path name : String} {made : Promotions} {position origin : Position}
      {declaration : Declaration} (found : visit.around.find? name = some (position, declaration))
      (closed : visit.around.isOpen position = false)
      (known : made.origins.lookup (derivedName visit.schema name) = some origin)
      (different : origin ≠ position) :
      Runs visit (.reference path name) made [] (.error (.duplicateModel (derivedName visit.schema name)))
  | opened {visit : Visit} {path name : String} {made : Promotions} {position : Position}
      {declaration : Declaration} {visits : List Visit}
      {outcome : Except CompileError (List Field × Promotions)}
      (found : visit.around.find? name = some (position, declaration))
      (closed : visit.around.isOpen position = false)
      (fresh : made.origins.lookup (derivedName visit.schema name) = none)
      (inside : Runs (visit.next name position declaration) (.fields "" declaration.fields)
        (made.noting (derivedName visit.schema name) position) visits outcome) :
      Runs visit (.reference path name) made (visit.next name position declaration :: visits)
        (outcome >>= Promotions.finish (derivedName visit.schema name))
  | referring {visit : Visit} {above target : String} {field : Field} {made : Promotions}
      {visits : List Visit} {outcome : Except CompileError (String × Promotions)}
      (kind : field.kind = .submodel target)
      (promoted : Runs visit (.reference s!"{above}{field.name}" target) made visits outcome) :
      Runs visit (.field above field) made visits
        (outcome >>= fun (promoted, made) => .ok (⟨field.name, s!"model.{promoted}", []⟩, made))
  | map {visit : Visit} {above : String} {field : Field} {made : Promotions} {visits : List Visit}
      {outcome : Except CompileError (List Field × Promotions)} (kind : field.kind = .map)
      (inside : Runs visit (.fields s!"{above}{field.name}." field.children) made visits outcome) :
      Runs visit (.field above field) made visits
        (outcome >>= fun (children, made) => .ok (.map field.name children, made))
  | plain {visit : Visit} {above : String} {field : Field} {made : Promotions}
      (noReference : ∀ target, field.kind ≠ .submodel target) (noMap : field.kind ≠ .map) :
      Runs visit (.field above field) made [] (.ok (field, made))
  | none {visit : Visit} {above : String} {made : Promotions} :
      Runs visit (.fields above []) made [] (.ok ([], made))
  | failed {visit : Visit} {above : String} {field : Field} {rest : List Field} {made : Promotions}
      {visits : List Visit} {fault : CompileError}
      (first : Runs visit (.field above field) made visits (.error fault)) :
      Runs visit (.fields above (field :: rest)) made visits (.error fault)
  | further {visit : Visit} {above : String} {field resolved : Field} {rest : List Field}
      {made between : Promotions} {visits later : List Visit}
      {outcome : Except CompileError (List Field × Promotions)}
      (first : Runs visit (.field above field) made visits (.ok (resolved, between)))
      (others : Runs visit (.fields above rest) between later outcome) :
      Runs visit (.fields above (field :: rest)) made (visits ++ later)
        (outcome >>= fun (rest, made) => .ok (resolved :: rest, made))

/-- A definition is expanded in a run that begins its own schema and then others. -/
def Declaration.Expands (definition : Declaration) (visits : List Visit)
    (outcome : Except CompileError Expansion) : Prop :=
  ∃ later resolved, Runs definition.visit (.fields "" definition.fields) {} later resolved ∧
    visits = definition.visit :: later ∧
    outcome = do
      let (fields, made) ← resolved
      let made ← made.add definition.name fields
      return made.schemas

/-! ### Every task has one run -/

section
variable {visit : Visit} {promoter : Promoter}

mutual
theorem Field.exists_run (step : ∀ path name made, ∃ visits,
    Runs visit (.reference path name) made visits (promoter visit.schema path name made))
    (above : String) : (field : Field) → (made : Promotions) →
      ∃ visits, Runs visit (.field above field) made visits (field.resolve promoter visit.schema above made)
  | ⟨name, token, children⟩, made => by
    rw [resolve]
    split
    · rename_i target kind
      obtain ⟨visits, run⟩ := step s!"{above}{name}" target made
      exact ⟨visits, .referring kind run⟩
    · rename_i kind
      obtain ⟨visits, run⟩ := exists_runAll step s!"{above}{name}." children made
      exact ⟨visits, .map kind run⟩
    · rename_i noReference noMap
      exact ⟨[], .plain noReference noMap⟩
/-- Where every reference has a run, fields have one. -/
theorem Field.exists_runAll (step : ∀ path name made, ∃ visits,
    Runs visit (.reference path name) made visits (promoter visit.schema path name made))
    (above : String) : (fields : List Field) → (made : Promotions) →
      ∃ visits, Runs visit (.fields above fields) made visits
        (resolveAll promoter visit.schema above fields made)
  | [], made => ⟨[], .none⟩
  | field :: rest, made => by
    obtain ⟨visits, run⟩ := exists_run step above field made
    rw [resolveAll]
    cases resolved : field.resolve promoter visit.schema above made with
    | error fault => exact ⟨visits, .failed (resolved ▸ run)⟩
    | ok result =>
      obtain ⟨first, between⟩ := result
      obtain ⟨later, others⟩ := exists_runAll step above rest between
      rw [resolved] at run
      exact ⟨visits ++ later, .further run others⟩
end

end

/-- Promotion that may open as many declarations as are still closed ends as a run does. -/
theorem exists_run_of_promote {definition : Declaration} (budget : Nat) {visit : Visit}
    (within : visit.around.Within definition)
    (enough : definition.countWithin ≤ budget + visit.around.opened.length) (path name : String)
    (made : Promotions) : ∃ visits, Runs visit (.reference path name) made visits
      (promote budget visit.around visit.schema path name made) := by
  rw [promote.eq_def]
  simp only
  cases found : visit.around.find? name with
  | none => exact ⟨[], .missing found⟩
  | some entry =>
    obtain ⟨position, declaration⟩ := entry
    cases isOpen : visit.around.isOpen position with
    | true =>
      simp only [isOpen, if_true]
      exact ⟨[], .cyclic found isOpen⟩
    | false =>
      simp only [isOpen, Bool.false_eq_true, if_false]
      cases known : made.origins.lookup (derivedName visit.schema name) with
      | some origin =>
        by_cases same : origin = position
        · simp only [same, if_true]
          exact ⟨[], .again found isOpen (same ▸ known)⟩
        · simp only [same, if_false]
          exact ⟨[], .clash found isOpen known same⟩
      | none =>
        have closed : ¬ visit.around.isOpen position = true := by simp [isOpen]
        cases budget with
        | zero =>
          have fewer := within.opened_lt (within.submodelsAt_found found).2 closed
          omega
        | succ budget =>
          have inside : (visit.next name position declaration).around.Within definition :=
            within.enterBy Scoping.keeps_stacked found closed
          have step := exists_run_of_promote budget inside (by
            simp only [Visit.next, Surroundings.enter, List.length_cons]
            omega)
          obtain ⟨visits, run⟩ := Field.exists_runAll step "" declaration.fields
            (made.noting (derivedName visit.schema name) position)
          exact ⟨_, .opened found isOpen known run⟩

/-- Every definition is expanded in a run, with the outcome of expansion. -/
theorem Declaration.exists_expands (definition : Declaration) :
    ∃ visits, definition.Expands visits definition.expand := by
  have within : definition.visit.around.Within definition := .root definition
  have step := exists_run_of_promote definition.countWithin within (Nat.le_add_right _ _)
  obtain ⟨visits, run⟩ := Field.exists_runAll step "" definition.fields {}
  exact ⟨_, visits, _, run, rfl, rfl⟩

/-- A task has one run at most. -/
theorem Runs.unique {visit : Visit} {task : Task} {made : Promotions} {visits others : List Visit}
    {outcome other : Except CompileError (task.Result × Promotions)}
    (run : Runs visit task made visits outcome) (also : Runs visit task made others other) :
    others = visits ∧ other = outcome := by
  induction run generalizing others with
  | missing absent => cases also <;> simp_all
  | cyclic found isOpen => cases also <;> simp_all
  | again found closed known => cases also <;> simp_all
  | clash found closed known different => cases also <;> simp_all
  | opened found closed fresh inside ih =>
    cases also with
    | opened foundToo _ _ insideToo =>
      obtain ⟨rfl, rfl⟩ := Prod.mk.inj (Option.some.inj (found.symm.trans foundToo))
      obtain ⟨rfl, rfl⟩ := ih insideToo
      exact ⟨rfl, rfl⟩
    | _ => simp_all
  | referring kind promoted ih =>
    cases also with
    | referring kindToo promotedToo =>
      obtain rfl := Kind.submodel.inj (kind.symm.trans kindToo)
      obtain ⟨rfl, rfl⟩ := ih promotedToo
      exact ⟨rfl, rfl⟩
    | _ => simp_all
  | map kind inside ih =>
    cases also with
    | map _ insideToo =>
      obtain ⟨rfl, rfl⟩ := ih insideToo
      exact ⟨rfl, rfl⟩
    | _ => simp_all
  | plain noReference noMap => cases also <;> simp_all
  | none =>
    cases also
    exact ⟨rfl, rfl⟩
  | failed first ih =>
    cases also with
    | failed firstToo => exact ⟨(ih firstToo).1, congrArg _ (Except.error.inj (ih firstToo).2)⟩
    | further firstToo _ => cases (ih firstToo).2
  | further first others ihFirst ihOthers =>
    cases also with
    | failed firstToo => cases (ihFirst firstToo).2
    | further firstToo othersToo =>
      obtain ⟨rfl, same⟩ := ihFirst firstToo
      obtain ⟨rfl, rfl⟩ := Prod.mk.inj (Except.ok.inj same)
      obtain ⟨rfl, rfl⟩ := ihOthers othersToo
      exact ⟨rfl, rfl⟩

theorem Declaration.Expands.unique {definition : Declaration} {visits others : List Visit}
    {outcome other : Except CompileError Expansion} (expands : definition.Expands visits outcome)
    (also : definition.Expands others other) : others = visits ∧ other = outcome := by
  obtain ⟨_, _, run, rfl, rfl⟩ := expands
  obtain ⟨_, _, runToo, rfl, rfl⟩ := also
  obtain ⟨rfl, rfl⟩ := run.unique runToo
  exact ⟨rfl, rfl⟩

/-! ### Open declarations -/

/-- The declaration at a position. -/
def Declaration.at? (definition : Declaration) (position : Position) : Option Declaration :=
  position.getLast?.bind fun index => (definition.submodelsAt position.dropLast).bind (·[index]?)

/-- Surroundings in a definition in which the open declarations have the names noted. -/
structure Surroundings.Placed (around : Surroundings) (definition : Declaration) : Prop
    extends around.Within definition where
  named : ∀ entry ∈ around.opened,
    ∃ declaration, definition.at? entry.1 = some declaration ∧ declaration.name = entry.2

namespace Surroundings.Placed
variable {around : Surroundings} {definition declaration : Declaration} {name : String} {position : Position}

theorem root (definition : Declaration) : definition.surroundings.Placed definition where
  toWithin := .root definition
  named := by simp [Declaration.surroundings]

/-- What is found is the declaration at its position, and has the name looked for. -/
theorem at?_found (placed : around.Placed definition)
    (found : around.find? name = some (position, declaration)) :
    definition.at? position = some declaration ∧ declaration.name = name := by
  obtain ⟨_, scope, _, split, here, _⟩ := Surroundings.find?_split found
  obtain ⟨⟨declared, index⟩, listed, same⟩ := Option.map_eq_some_iff.mp here
  obtain ⟨rfl, rfl⟩ := Prod.mk.inj same
  have place : scope.submodels[index]? = some declared :=
    List.mem_zipIdx_iff_getElem?.mp (List.mem_of_find?_eq_some listed)
  have owned := placed.scopes scope (by simp [split])
  exact ⟨by simp [Declaration.at?, owned, place], by simpa using List.find?_some listed⟩

theorem enter (placed : around.Placed definition) (found : around.find? name = some (position, declaration))
    (closed : around.isOpen position = false) : (around.enter position declaration).Placed definition where
  toWithin := placed.enterBy Scoping.keeps_stacked found (by simp [closed])
  named := by
    intro entry listed
    rcases List.mem_cons.mp listed with rfl | outer
    · exact ⟨declaration, (placed.at?_found found).1, rfl⟩
    · exact placed.named entry outer

/-- Fewer declarations are open than there are, or all. -/
theorem length_opened_le (placed : around.Placed definition) :
    around.opened.length ≤ definition.countWithin := by
  have among : around.opened.map Prod.fst ⊆ definition.positions := by
    intro position listed
    obtain ⟨entry, member, rfl⟩ := List.mem_map.mp listed
    exact placed.opened entry member
  simpa [Declaration.length_positions] using placed.once.length_le_of_subset among

end Surroundings.Placed

/-- The visits that a run begins are placed as the one it starts from. -/
theorem Runs.placed {definition : Declaration} {visit : Visit} {task : Task} {made : Promotions}
    {visits : List Visit} {outcome : Except CompileError (task.Result × Promotions)}
    (run : Runs visit task made visits outcome) (placed : visit.around.Placed definition) :
    ∀ later ∈ visits, later.around.Placed definition := by
  induction run with
  | missing | cyclic | again | clash | plain | none => simp
  | opened found closed fresh inside ih =>
    have entered := placed.enter found closed
    intro later member
    rcases List.mem_cons.mp member with rfl | deeper
    · exact entered
    · exact ih entered later deeper
  | referring _ _ ih => exact ih placed
  | map _ _ ih => exact ih placed
  | failed _ ih => exact ih placed
  | further _ _ ihFirst ihOthers =>
    intro later member
    rcases List.mem_append.mp member with early | late
    · exact ihFirst placed later early
    · exact ihOthers placed later late

/-! ### Cycles -/

/-- Fields are not added only if there is a schema of the name. -/
theorem Promotions.taken_of_add {made : Promotions} {name : String} {fields : List Field}
    {fault : CompileError} (failed : made.add name fields = .error fault) :
    fault = .duplicateModel name ∧ ∃ held, made.schemas.find? name = some held := by
  simp only [add] at failed
  split at failed
  · rename_i held taken
    exact ⟨(Except.error.inj failed).symm, held, taken⟩
  · cases failed

theorem Promotions.taken_of_finish {name : String} {result : List Field × Promotions}
    {fault : CompileError} (failed : finish name result = .error fault) :
    fault = .duplicateModel name ∧ ∃ held, result.2.schemas.find? name = some held := by
  rcases bind_eq_error.mp failed with taken | ⟨_, _, finished⟩
  · exact taken_of_add taken
  · cases finished

/-- A reference in a visit leads to a declaration that is open there, and so closes the chain of
the open declarations, outermost first. -/
def Visit.ClosesCycle (visit : Visit) (chain : List String) : Prop :=
  ∃ name position declaration, Field.Mention visit.fields name ∧
    visit.around.find? name = some (position, declaration) ∧ visit.around.isOpen position = true ∧
    chain = (visit.around.opened.map Prod.snd).reverse ++ [name]

/-- A run that ends with a cycle has begun a visit that closes it. -/
theorem Runs.closesCycle {visit : Visit} {task : Task} {made : Promotions} {visits : List Visit}
    {outcome : Except CompileError (task.Result × Promotions)} (run : Runs visit task made visits outcome)
    {model : String} {chain : List String} (failed : outcome = .error (.cyclicSubmodel model chain))
    (within : task.Within visit.fields) :
    model = visit.around.document ∧ ∃ later ∈ visit :: visits, later.ClosesCycle chain := by
  induction run with
  | missing | again | clash | plain | none => cases failed
  | cyclic found isOpen =>
    cases failed
    exact ⟨rfl, _, List.mem_cons_self, _, _, _, within _ rfl, found, isOpen, rfl⟩
  | opened found closed fresh running ih =>
    rcases bind_eq_error.mp failed with deeper | ⟨_, _, taken⟩
    · obtain ⟨same, later, member, closes⟩ := ih deeper .self
      exact ⟨same, later, List.mem_cons_of_mem _ member, closes⟩
    · cases (Promotions.taken_of_finish taken).1
  | referring kind _ ih =>
    rcases bind_eq_error.mp failed with deeper | ⟨_, _, finished⟩
    · exact ih deeper (within.reference kind)
    · cases finished
  | map kind _ ih =>
    rcases bind_eq_error.mp failed with deeper | ⟨_, _, finished⟩
    · exact ih deeper (within.children kind)
    · cases finished
  | failed _ ih =>
    cases failed
    exact ih rfl within.first
  | further _ _ _ ih =>
    rcases bind_eq_error.mp failed with deeper | ⟨_, _, finished⟩
    · obtain ⟨same, later, member, closes⟩ := ih deeper within.others
      refine ⟨same, later, ?_, closes⟩
      exact List.cons_subset_cons _ (List.subset_append_right _ _) member
    · cases finished

/-- At a visit some declarations of a definition are open, each under its name and once, and so
no more than there are. -/
structure Visit.OpensOnce (visit : Visit) (definition : Declaration) : Prop where
  named : ∀ entry ∈ visit.around.opened,
    ∃ declaration, definition.at? entry.1 = some declaration ∧ declaration.name = entry.2
  distinct : (visit.around.opened.map Prod.fst).Nodup
  bounded : visit.around.opened.length ≤ definition.countWithin

/-- Expansion always ends: every definition has exactly one run, and expansion has its outcome.
At every visit of the run the open declarations are all different and no more than there are.
A cycle that is reported leads from the open declarations, outermost first, by a name back to
one of them. -/
theorem Declaration.expand_ends (definition : Declaration) :
    ∃ visits, definition.Expands visits definition.expand ∧
      (∀ others outcome, definition.Expands others outcome → others = visits ∧ outcome = definition.expand) ∧
      (∀ visit ∈ visits, visit.OpensOnce definition) ∧
      ∀ model chain, definition.expand = .error (.cyclicSubmodel model chain) →
        model = definition.name ∧ ∃ visit ∈ visits, visit.ClosesCycle chain := by
  obtain ⟨visits, expands⟩ := definition.exists_expands
  refine ⟨visits, expands, fun _ _ also => expands.unique also, ?_, ?_⟩
  · obtain ⟨later, _, run, rfl, _⟩ := expands
    intro visit member
    have placed : visit.around.Placed definition := by
      rcases List.mem_cons.mp member with rfl | among
      · exact .root definition
      · exact run.placed (.root definition) visit among
    exact ⟨placed.named, placed.once, placed.length_opened_le⟩
  · intro model chain failed
    obtain ⟨later, resolved, run, rfl, outcome⟩ := expands
    rw [failed] at outcome
    rcases bind_eq_error.mp outcome.symm with cyclic | ⟨_, _, rest⟩
    · exact run.closesCycle cyclic .self
    · rcases bind_eq_error.mp rest with taken | ⟨_, _, finished⟩
      · cases (Promotions.taken_of_add taken).1
      · cases finished

/-- Two submodels that refer to each other. -/
def carousel : Declaration :=
  ⟨"carousel", [⟨"start", "submodel.a", []⟩],
    [⟨"a", [⟨"on", "submodel.b", []⟩], []⟩, ⟨"b", [⟨"back", "submodel.a", []⟩], []⟩]⟩

theorem carousel_closesCycle : ∃ visits,
    carousel.Expands visits (.error (.cyclicSubmodel "carousel" ["a", "b", "a"])) ∧
      ∃ visit ∈ visits, visit.ClosesCycle ["a", "b", "a"] := by
  have failed : carousel.expand = .error (.cyclicSubmodel "carousel" ["a", "b", "a"]) := by cbv
  obtain ⟨visits, expands, _, _, cyclic⟩ := Declaration.expand_ends carousel
  exact ⟨visits, failed ▸ expands, (cyclic _ _ failed).2⟩

end Dossier
