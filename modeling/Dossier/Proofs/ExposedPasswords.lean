import Dossier.Proofs.AlikeStores
import Dossier.Proofs.CellOrder

/-! Paths that reach the password: documents that differ at most in it are told apart by what is
seen there, and so are stores that are sorted by it. -/
namespace Dossier

/-! ### Seeing -/

namespace KeyPath

/-- What is seen where some steps lead, from a value on. -/
def look (steps : List Step) : Option Json → Except StoreError Cell
  | some value => (follow steps value).map Cell.ofValue
  | none => .ok .none

theorem ofField_eq_look {field : String} (other : field ≠ idKey) (document : Document) :
    Cell.ofField document field = look (steps field) (some (.object document.body)) := by
  unfold Cell.ofField
  rw [if_neg other, look]
  rcases follow (steps field) (.object document.body) with _ | _ | _ <;> rfl

theorem look_member (codes : List Nat) (rest : List Step) (members : Body) :
    look (.member codes :: rest) (some (.object members)) = look rest (entered? codes members) := by
  rw [look, follow_member]
  cases entered? codes members <;> rfl

/-- Among members of which no other has the name, a step leads to the one of a name. -/
theorem entered?_of_alone {codes : List Nat} {members : Body} {name : String}
    (named : isNamed codes name = true)
    (alone : ∀ key ∈ members.keys, isNamed codes key = true → key = name) :
    entered? codes members = members.find? name := by
  rw [entered?_by_key]
  cases found : members.keys.find? (isNamed codes) with
  | none =>
    have absent : name ∉ members.keys := fun member => List.find?_eq_none.mp found name member named
    exact (Keyed.find?_eq_none.mpr absent).symm
  | some key =>
    rw [alone key (List.mem_of_find?_eq_some found) (List.find?_some found)]
    rfl

/-- Below the password, some value shows what the rest of the steps leads to. -/
theorem exists_look_ne_none {steps : List Step} (reaches : Reaches steps []) :
    ∃ value : Json, value.Ordered ∧ look steps (some value) ≠ .ok .none := by
  induction steps with
  | nil => exact ⟨.text "", trivial, by simp [look, follow, Except.map, Cell.ofValue, Cell.ofJson]⟩
  | cons step rest ih =>
    cases step with
    | broken => exact ⟨.null, trivial, by simp [look, follow, Except.map]⟩
    | member codes =>
      obtain ⟨⟨key, named⟩, further⟩ := reaches
      obtain ⟨value, ordered, seen⟩ := ih further
      refine ⟨.object [(key, value)], ⟨List.pairwise_singleton _ _, ordered, trivial⟩, ?_⟩
      rw [look_member, entered?_of_alone named (by simp [Keyed.keys])]
      simpa [Keyed.find?] using seen

end KeyPath

/-! ### Above the password -/

theorem Body.put_nil (value : Json) (name : String) (rest : List String) :
    put [] value (name :: rest) = [(name, (Json.object []).putAt rest value)] := by
  cases rest <;> rfl

theorem Body.drop_single (value : Json) (name : String) (rest : List String) :
    drop [(name, value)] (name :: rest) = ((without value rest).map ((name, ·))).toList := by
  cases rest with
  | nil => simp [drop_singleton, Keyed.erase, without]
  | cons next more =>
    rw [drop_cons_cons]
    cases members : value.members? with
    | none => simp [Keyed.find?, members, without]
    | some inner => simp [Keyed.find?, members, without, Keyed.insert]

/-- The text of an object around the password shows whether the password is there. -/
theorem Json.tree_ne_of_drop (value : Json) (name : String) (rest : List String) :
    (Json.object (Body.put [] value (name :: rest))).tree ≠
      (Json.object (Body.drop (Body.put [] value (name :: rest)) (name :: rest))).tree := by
  rw [Body.put_nil, Body.drop_single]
  induction rest generalizing name with
  | nil => simp [Body.without, tree, memberTrees]
  | cons next more ih =>
    have inner : (Json.object []).putAt (next :: more) value = .object (Body.put [] value (next :: more)) := rfl
    intro same
    simp only [inner, Body.without, members?, Option.map_some, Option.toList, tree, memberTrees,
      Tree.object.injEq, List.cons.injEq, Prod.mk.injEq] at same
    rw [Body.put_nil, Body.drop_single] at same
    exact ih next (by simpa [tree] using same.1.2)

namespace KeyPath
variable {codes : List Nat} {rest : List Step} {members : Body} {name : String} {below : List String}

theorem look_object (named : isNamed codes name = true)
    (alone : ∀ key ∈ members.keys, isNamed codes key = true → key = name) :
    look (.member codes :: rest) (some (.object members)) = look rest (members.find? name) := by
  rw [look_member, entered?_of_alone named alone]

theorem look_drop (named : isNamed codes name = true)
    (alone : ∀ key ∈ members.keys, isNamed codes key = true → key = name) :
    look (.member codes :: rest) (some (.object (members.drop (name :: below)))) =
      look rest ((members.find? name).bind (Body.without · below)) := by
  have aloneToo : ∀ key ∈ (members.drop (name :: below)).keys, isNamed codes key = true → key = name := by
    intro key member also
    by_cases same : name = key
    · exact same.symm
    · refine alone key ?_ also
      apply Decidable.byContradiction
      intro absent
      refine Keyed.find?_eq_none.mp ?_ member
      rw [Body.find?_drop_cons, if_neg same]
      exact Keyed.find?_eq_none.mpr absent
  rw [look_object named aloneToo, Body.find?_drop_cons, if_pos rfl]

/-- Some value at a place that steps reach is told apart from none there. -/
theorem exists_look_ne {steps : List Step} {place : List String} (reaches : Reaches steps place) :
    ∃ value : Json, value.Ordered ∧ ∃ cell,
      look steps (Body.without ((Json.object []).putAt place value) place) = .ok cell ∧
        look steps (some ((Json.object []).putAt place value)) ≠ .ok cell := by
  induction place generalizing steps with
  | nil =>
    obtain ⟨value, ordered, seen⟩ := exists_look_ne_none reaches
    exact ⟨value, ordered, .none, rfl, seen⟩
  | cons name below ih =>
    cases steps with
    | nil =>
      refine ⟨.null, trivial, _, rfl, fun same => ?_⟩
      have texts := Cell.text.inj (Except.ok.inj same)
      have trees := congrArg Json.Tree.parse? texts
      rw [Json.tree_of_render, Json.tree_of_render] at trees
      exact Json.tree_ne_of_drop .null name below (Option.some.inj trees)
    | cons step rest =>
      cases step with
      | broken => exact absurd reaches id
      | member codes =>
        obtain ⟨named, further⟩ := reaches
        obtain ⟨value, ordered, cell, gone, seen⟩ := ih further
        have whole : (Json.object []).putAt (name :: below) value =
            .object [(name, (Json.object []).putAt below value)] := by
          rw [← Body.put_nil]
          rfl
        have alone : ∀ key ∈ Keyed.keys [(name, (Json.object []).putAt below value)],
            isNamed codes key = true → key = name := by simp [Keyed.keys]
        refine ⟨value, ordered, cell, ?_, ?_⟩
        · rw [whole, Body.without]
          refine (look_drop named alone).trans ?_
          simpa [Keyed.find?] using gone
        · rw [whole, look_object named alone]
          simpa [Keyed.find?] using seen

end KeyPath

/-! ### Exposing bodies -/

theorem KeyPath.exists_not_named (codes : List Nat) : ∃ key, ¬ isNamed codes key = true := by
  by_cases first : isNamed codes "a" = true
  · refine ⟨"b", fun second => ?_⟩
    have same := (beq_iff_eq.mp first).trans (beq_iff_eq.mp second).symm
    exact absurd same (by decide)
  · exact ⟨"a", first⟩

/-- A path that reaches a place has a body in which it shows whether the value there is taken
away; neither the body nor what is left of it can be read back. -/
theorem KeyPath.exists_exposed {steps : List Step} {place : List String} (reaches : Reaches steps place)
    (walks : steps ≠ []) (nonempty : place ≠ []) :
    ∃ (body : Body) (key : String), (Json.object body).Ordered ∧
      body.find? key = some (Json.nested Row.levels) ∧
      (body.drop place).find? key = some (Json.nested Row.levels) ∧
      ∃ cell, look steps (some (.object (body.drop place))) = .ok cell ∧
        look steps (some (.object body)) ≠ .ok cell := by
  cases place with
  | nil => exact absurd rfl nonempty
  | cons name below =>
    cases steps with
    | nil => exact absurd rfl walks
    | cons step rest =>
      cases step with
      | broken => exact absurd reaches id
      | member codes =>
        obtain ⟨named, further⟩ := reaches
        obtain ⟨value, ordered, cell, gone, seen⟩ := exists_look_ne further
        obtain ⟨key, unnamed⟩ := exists_not_named codes
        have different : key ≠ name := fun same => unnamed (same ▸ named)
        let body : Body := Keyed.insert (Body.put [] value (name :: below)) key (Json.nested Row.levels)
        have inner : body.find? name = some ((Json.object []).putAt below value) := by
          rw [Keyed.find?_insert, if_neg different, Body.put_nil]
          simp [Keyed.find?]
        have held : body.find? key = some (Json.nested Row.levels) := by
          rw [Keyed.find?_insert, if_pos rfl]
        have alone : ∀ other ∈ body.keys, isNamed codes other = true → other = name := by
          intro other member also
          rcases Keyed.mem_keys_insert.mp member with rfl | among
          · exact absurd also unnamed
          · rw [Body.put_nil] at among
            simpa [Keyed.keys] using among
        refine ⟨body, key, ?_, held, ?_, cell, ?_, ?_⟩
        · exact Body.ordered_insert (Body.ordered_put Json.ordered_object_nil ordered _) key (Json.ordered_nested _)
        · rw [Body.find?_drop_cons, if_neg (Ne.symm different), held]
        · rw [look_drop named alone, inner]
          exact gone
        · rw [look_object named alone, inner]
          exact seen

/-! ### Two documents -/

theorem KeyPath.error_of_follow {steps : List Step} {value : Json} {error : StoreError}
    (failed : follow steps value = .error error) : error = .database := by
  induction steps generalizing value with
  | nil => cases failed
  | cons step rest ih =>
    cases step with
    | broken =>
      cases failed
      rfl
    | member codes =>
      cases value with
      | object members =>
        rw [follow_member] at failed
        split at failed
        · exact ih failed
        · cases failed
      | _ => cases failed

theorem Cell.error_of_ofField {document : Document} {field : String} {error : StoreError}
    (failed : ofField document field = .error error) : error = .database := by
  unfold ofField at failed
  split at failed
  · cases failed
  · cases followed : KeyPath.follow (KeyPath.steps field) (.object document.body) with
    | error fault =>
      rw [followed] at failed
      cases failed
      exact KeyPath.error_of_follow followed
    | ok value =>
      rw [followed] at failed
      cases value <;> cases failed

def firstId : EntityId := EntityId.mint 0 0
def secondId : EntityId := EntityId.mint 0 1

/-- A store of two documents. -/
def Store.pair (collection : String) (body other : Body) : Store where
  rows := [⟨collection, ⟨firstId, body⟩⟩, ⟨collection, ⟨secondId, other⟩⟩]
  distinct := by
    have different : firstId ≠ secondId := by decide
    simp [Row.key, different]

section
variable {collection : String} {body other : Body} {key : SortKey}

theorem Store.find_pair_eq (collection : String) (body other : Body) (key : SortKey) :
    (pair collection body other).find collection [] [key] =
      (SortKey.sort [key] [⟨firstId, body⟩, ⟨secondId, other⟩] >>= fun sorted =>
        sorted.mapM fun document => Row.read ⟨collection, document⟩) := by
  have documents : (pair collection body other).documents collection = [⟨firstId, body⟩, ⟨secondId, other⟩] := by
    simp [Store.documents, pair]
  have selected : (pair collection body other).selected collection [] false =
      .ok [⟨firstId, body⟩, ⟨secondId, other⟩] := by
    rw [Store.selected, documents]
    rfl
  have telling : SortKey.telling [key] = [key] := by
    rw [SortKey.telling]
    split <;> rfl
  simp only [Store.find, List.isEmpty_cons, selected, telling]
  rfl

/-- Sorting fails if the first document has no cell. -/
theorem Store.find_pair_error {error : StoreError}
    (failed : Cell.ofField ⟨firstId, body⟩ key.field = .error error) :
    (pair collection body other).find collection [] [key] = .error error := by
  have measured : SortKey.cells [key] ⟨firstId, body⟩ = .error error := by
    simp only [SortKey.cells, List.mapM_cons, failed]
    rfl
  rw [find_pair_eq, SortKey.sort, List.mapM_cons, measured]
  rfl

/-- If no document can be read, sorting tells which one comes first. -/
theorem Store.find_pair {cell cell' : Cell}
    (unreadable : ¬ (⟨collection, ⟨firstId, body⟩⟩ : Row).IsReadable)
    (unreadableToo : ¬ (⟨collection, ⟨secondId, other⟩⟩ : Row).IsReadable)
    (first : Cell.ofField ⟨firstId, body⟩ key.field = .ok cell)
    (second : Cell.ofField ⟨secondId, other⟩ key.field = .ok cell') :
    (pair collection body other).find collection [] [key] =
      .error (.invalidData collection (if key.compare cell cell' = .gt then secondId else firstId)) := by
  have unread := Row.read_of_not_isReadable unreadable
  have unreadToo := Row.read_of_not_isReadable unreadableToo
  rw [find_pair_eq, SortKey.sort_pair first second]
  split
  · simp only [ok_bind, error_bind, List.mapM_cons, unreadToo]
  · simp only [ok_bind, error_bind, List.mapM_cons, unread]

end

end Dossier
