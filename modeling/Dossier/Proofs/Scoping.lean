import Dossier.Definition.Expansion
import Mathlib.Data.List.Nodup

/-! Expansion under two ways of scoping. Expansion itself keeps one stack of scopes and
pushes the scope of every declaration that a reference opens. In the lexical reading
every declaration carries the scopes of the place where it is declared. Under either
the bound on open declarations is never reached. -/
namespace Dossier

/-- The scopes seen within a declaration, given those at the reference that opens it,
the name in that reference and the scope of the declaration. -/
abbrev Scoping := List Scope → String → Scope → List Scope

namespace Scoping

/-- The scopes along the chain of references, as expansion stacks them. -/
def stacked : Scoping := fun scopes _ own => own :: scopes

/-- The scopes of the place of declaration: from the one that declares the name
outwards. -/
def lexical : Scoping := fun scopes name own =>
  own :: scopes.dropWhile fun scope => (scope.find? name).isNone

end Scoping

def Surroundings.enterBy (scoping : Scoping) (around : Surroundings) (name : String)
    (position : Position) (declaration : Declaration) : Surroundings :=
  { around with
    scopes := scoping around.scopes name ⟨position, declaration.submodels⟩
    opened := (position, declaration.name) :: around.opened }

/-- Promotion under any way of scoping. -/
def promoteBy (scoping : Scoping) : (budget : Nat) → Surroundings → Promoter
  | budget, around, schema, path, name, made =>
    match around.find? name with
    | none => .error (.missingSubmodel schema path name)
    | some (position, declaration) =>
      if around.isOpen position then .error (around.cycle name)
      else
        let derived := derivedName schema name
        match made.origins.lookup derived with
        | some origin =>
          if origin = position then .ok (derived, made) else .error (.duplicateModel derived)
        | none =>
          match budget with
          | 0 => .error (around.cycle name)
          | budget + 1 => do
            let inside := around.enterBy scoping name position declaration
            let made := { made with origins := (derived, position) :: made.origins }
            let (fields, made) ←
              Field.resolveAll (promoteBy scoping budget inside) derived "" declaration.fields made
            let made ← made.add derived fields
            return (derived, made)

/-- What surrounds the fields of a definition itself. -/
def Declaration.surroundings (definition : Declaration) : Surroundings :=
  ⟨definition.name, [⟨[], definition.submodels⟩], []⟩

/-- Expansion under any way of scoping, with a bound on how many declarations can be
open one in the other. -/
def Declaration.expandBy (scoping : Scoping) (budget : Nat) (definition : Declaration) :
    Except CompileError Expansion := do
  let (fields, made) ← Field.resolveAll (promoteBy scoping budget definition.surroundings)
    definition.name "" definition.fields {}
  let made ← made.add definition.name fields
  return made.schemas

/-- The reference expander: names are looked up from where their declaration stands. -/
def Declaration.expandLexically (definition : Declaration) : Except CompileError Expansion :=
  definition.expandBy .lexical definition.countWithin

/-! ### Stacked scopes are those of expansion -/

theorem promoteBy_stacked (budget : Nat) (around : Surroundings) :
    promoteBy .stacked budget around = promote budget around := by
  induction budget generalizing around with
  | zero =>
    funext schema path name made
    unfold promoteBy promote
    cases around.find? name with
    | none => rfl
    | some entry => rfl
  | succ budget ih =>
    funext schema path name made
    have inside : promoteBy .stacked budget = promote budget := funext ih
    unfold promoteBy promote
    cases around.find? name with
    | none => rfl
    | some entry =>
      dsimp only
      generalize promoteBy .stacked budget = within at inside ⊢
      subst inside
      rfl

theorem Declaration.expandBy_stacked (definition : Declaration) :
    definition.expandBy .stacked definition.countWithin = definition.expand := by
  simp only [expandBy, expand, promoteBy_stacked, surroundings]

/-! ### Finding a name in scopes -/

theorem Scope.owner_of_find? {scope : Scope} {name : String} {position : Position}
    {declaration : Declaration} (found : scope.find? name = some (position, declaration)) :
    ∃ index, position = scope.owner ++ [index] := by
  obtain ⟨⟨_, index⟩, _, same⟩ := Option.map_eq_some_iff.mp found
  exact ⟨index, (Prod.mk.inj same).1.symm⟩

/-- The scope that a name is found in, with those nearer and those further out. -/
theorem Surroundings.find?_split {around : Surroundings} {name : String} {position : Position}
    {declaration : Declaration} (found : around.find? name = some (position, declaration)) :
    ∃ nearer scope further, around.scopes = nearer ++ scope :: further ∧
      scope.find? name = some (position, declaration) ∧
      ∀ other ∈ nearer, other.find? name = none := by
  obtain ⟨nearer, scope, further, split, here, missing⟩ := List.findSome?_eq_some_iff.mp found
  exact ⟨nearer, scope, further, split, here, missing⟩

theorem Surroundings.dropLast_owner {around : Surroundings} {name : String} {position : Position}
    {declaration : Declaration} (found : around.find? name = some (position, declaration)) :
    ∃ scope ∈ around.scopes, position.dropLast = scope.owner := by
  obtain ⟨nearer, scope, further, split, here, _⟩ := find?_split found
  obtain ⟨index, same⟩ := Scope.owner_of_find? here
  exact ⟨scope, by simp [split], by simp [same]⟩

/-! ### The bound on open declarations -/

/-- The submodels declared by the declaration at a position. -/
def Declaration.submodelsAt (definition : Declaration) : Position → Option (List Declaration)
  | [] => some definition.submodels
  | index :: rest => definition.submodels[index]?.bind (·.submodelsAt rest)

mutual
/-- The positions of all declarations within a declaration. -/
def Declaration.positions : Declaration → List Position
  | ⟨_, _, submodels⟩ => positionsFrom 0 submodels
def Declaration.positionsFrom : (index : Nat) → List Declaration → List Position
  | _, [] => []
  | index, declaration :: rest =>
    [index] :: declaration.positions.map (index :: ·) ++ positionsFrom (index + 1) rest
end

mutual
theorem Declaration.length_positions : (definition : Declaration) →
    definition.positions.length = definition.countWithin
  | ⟨_, _, submodels⟩ => by
    simp only [positions, countWithin, length_positionsFrom 0 submodels]
theorem Declaration.length_positionsFrom : (index : Nat) → (submodels : List Declaration) →
    (positionsFrom index submodels).length = countAll submodels
  | _, [] => rfl
  | index, declaration :: rest => by
    simp only [positionsFrom, countAll, List.length_append, List.length_cons, List.length_map,
      length_positions declaration, length_positionsFrom (index + 1) rest]
    omega
end

theorem Declaration.mem_positionsFrom {submodels : List Declaration} {place : Nat}
    {declaration : Declaration} (found : submodels[place]? = some declaration) (start : Nat) :
    [start + place] ∈ positionsFrom start submodels ∧
      ∀ rest ∈ declaration.positions, (start + place) :: rest ∈ positionsFrom start submodels := by
  induction submodels generalizing place start with
  | nil => simp at found
  | cons first others ih =>
    cases place with
    | zero =>
      simp only [List.getElem?_cons_zero, Option.some.injEq] at found
      subst found
      simp only [positionsFrom, Nat.add_zero]
      refine ⟨List.mem_cons_self, fun rest member => ?_⟩
      exact List.mem_append_left _ (List.mem_cons_of_mem _ (List.mem_map.mpr ⟨rest, member, rfl⟩))
    | succ place =>
      simp only [List.getElem?_cons_succ] at found
      obtain ⟨here, below⟩ := ih found (start + 1)
      have shift : start + 1 + place = start + (place + 1) := by omega
      rw [shift] at here
      simp only [shift] at below
      exact ⟨List.mem_append_right _ here, fun rest member => List.mem_append_right _ (below rest member)⟩

theorem Declaration.mem_positions {position : Position} {submodels : List Declaration} :
    {definition : Declaration} → definition.submodelsAt position = some submodels → position ≠ [] →
      position ∈ definition.positions := by
  induction position with
  | nil => intro _ _ nonempty; exact absurd rfl nonempty
  | cons index rest ih =>
    intro ⟨_, _, declared⟩ found _
    obtain ⟨declaration, here, below⟩ := Option.bind_eq_some_iff.mp found
    obtain ⟨single, longer⟩ := mem_positionsFrom here 0
    simp only [Nat.zero_add] at single longer
    cases rest with
    | nil => exact single
    | cons next others => exact longer _ (ih below (by simp))

theorem Declaration.submodelsAt_append (definition : Declaration) (position : Position) (index : Nat) :
    definition.submodelsAt (position ++ [index]) =
      (definition.submodelsAt position).bind fun submodels => submodels[index]?.map Declaration.submodels := by
  induction position generalizing definition with
  | nil => cases found : definition.submodels[index]? <;> simp [submodelsAt, found]
  | cons first rest ih =>
    simp only [List.cons_append, submodelsAt, Option.bind_assoc]
    congr 1
    funext declaration
    exact ih declaration

/-- A way of scoping that shows within a declaration only its own scope and scopes
that were seen at the reference. -/
def Scoping.Keeps (scoping : Scoping) : Prop :=
  ∀ scopes name own, ∀ scope ∈ scoping scopes name own, scope = own ∨ scope ∈ scopes

theorem Scoping.keeps_stacked : Scoping.stacked.Keeps := by
  intro scopes name own scope member
  exact List.mem_cons.mp member

theorem Scoping.keeps_lexical : Scoping.lexical.Keeps := by
  intro scopes name own scope member
  rcases List.mem_cons.mp member with same | member
  · exact .inl same
  · exact .inr ((List.dropWhile_sublist _).subset member)

/-- Surroundings in a definition: the scopes are those of its declarations, and every
open declaration is one of them and open once. -/
structure Surroundings.Within (around : Surroundings) (definition : Declaration) : Prop where
  scopes : ∀ scope ∈ around.scopes, definition.submodelsAt scope.owner = some scope.submodels
  opened : ∀ entry ∈ around.opened, entry.1 ∈ definition.positions
  once : (around.opened.map Prod.fst).Nodup

namespace Surroundings.Within
variable {around : Surroundings} {definition : Declaration}

theorem root (definition : Declaration) : definition.surroundings.Within definition where
  scopes := by simp [Declaration.surroundings, Declaration.submodelsAt]
  opened := by simp [Declaration.surroundings]
  once := by simp [Declaration.surroundings]

theorem submodelsAt_found (within : around.Within definition) {name : String} {position : Position}
    {declaration : Declaration} (found : around.find? name = some (position, declaration)) :
    definition.submodelsAt position = some declaration.submodels ∧ position ∈ definition.positions := by
  obtain ⟨_, scope, _, split, here, _⟩ := Surroundings.find?_split found
  obtain ⟨⟨declared, index⟩, listed, same⟩ := Option.map_eq_some_iff.mp here
  obtain ⟨rfl, rfl⟩ := Prod.mk.inj same
  have place : scope.submodels[index]? = some declared := by
    have member := List.mem_of_find?_eq_some listed
    exact List.mem_zipIdx_iff_getElem?.mp member
  have known : definition.submodelsAt (scope.owner ++ [index]) = some declared.submodels := by
    rw [Declaration.submodelsAt_append, within.scopes scope (by simp [split])]
    simp [place]
  exact ⟨known, Declaration.mem_positions known (by simp)⟩

theorem enterBy (within : around.Within definition) {scoping : Scoping} (keeps : scoping.Keeps)
    {name : String} {position : Position} {declaration : Declaration}
    (found : around.find? name = some (position, declaration)) (closed : ¬ around.isOpen position = true) :
    (around.enterBy scoping name position declaration).Within definition := by
  obtain ⟨known, member⟩ := within.submodelsAt_found found
  refine ⟨fun scope listed => ?_, fun entry listed => ?_, ?_⟩
  · rcases keeps _ _ _ scope listed with own | outer
    · rw [own]
      exact known
    · exact within.scopes scope outer
  · rcases List.mem_cons.mp listed with own | outer
    · rw [own]
      exact member
    · exact within.opened entry outer
  · refine List.nodup_cons.mpr ⟨fun again => closed ?_, within.once⟩
    obtain ⟨entry, listed, same⟩ := List.mem_map.mp again
    exact List.any_eq_true.mpr ⟨entry, listed, by simp [same]⟩

/-- While some declaration is not open, fewer are open than there are. -/
theorem opened_lt (within : around.Within definition) {position : Position}
    (member : position ∈ definition.positions) (closed : ¬ around.isOpen position = true) :
    around.opened.length < definition.countWithin := by
  have fresh : position ∉ around.opened.map Prod.fst := by
    intro again
    obtain ⟨entry, listed, same⟩ := List.mem_map.mp again
    exact closed (List.any_eq_true.mpr ⟨entry, listed, by simp [same]⟩)
  have all : position :: around.opened.map Prod.fst ⊆ definition.positions := by
    intro each among
    rcases List.mem_cons.mp among with rfl | outer
    · exact member
    · obtain ⟨entry, listed, same⟩ := List.mem_map.mp outer
      exact same ▸ within.opened entry listed
  have bound := (List.nodup_cons.mpr ⟨fresh, within.once⟩).length_le_of_subset all
  simp only [List.length_cons, List.length_map, Declaration.length_positions] at bound
  omega

end Surroundings.Within

/-- Promotion that may open as many declarations as are still closed never runs out. -/
theorem promoteBy_budget {scoping : Scoping} (keeps : scoping.Keeps) {definition : Declaration}
    (budget more : Nat) {around : Surroundings} (within : around.Within definition)
    (enough : definition.countWithin ≤ budget + around.opened.length) :
    promoteBy scoping (budget + more) around = promoteBy scoping budget around := by
  funext schema path name made
  rw [promoteBy.eq_def, promoteBy.eq_def scoping budget]
  simp only
  cases found : around.find? name with
  | none => rfl
  | some entry =>
    obtain ⟨position, declaration⟩ := entry
    by_cases closed : around.isOpen position = true
    · simp only [closed, if_true]
    · simp only [closed]
      cases made.origins.lookup (derivedName schema name) with
      | some origin => rfl
      | none =>
        cases budget with
        | zero =>
          have fewer := within.opened_lt (within.submodelsAt_found found).2 closed
          omega
        | succ budget =>
          have inside := within.enterBy keeps found closed
          have same := promoteBy_budget keeps budget more inside (by
            simp only [Surroundings.enterBy, List.length_cons]
            omega)
          rw [Nat.succ_add]
          simp only [same]

/-- A definition never has more declarations open than its budget allows, so neither
expansion nor the reference expander is cut short. -/
theorem Declaration.expandBy_budget {scoping : Scoping} (keeps : scoping.Keeps)
    (definition : Declaration) (more : Nat) :
    definition.expandBy scoping (definition.countWithin + more) =
      definition.expandBy scoping definition.countWithin := by
  simp only [expandBy, promoteBy_budget keeps _ more (.root definition) (Nat.le_add_right _ _)]

end Dossier
