import Dossier.Proofs.ExposedPasswords
import Dossier.Proofs.LiteralPaths

/-! Paths whose names the store reads as they are written. They lead where the names lead, or to
a place of keys that are taken for the names because they go on behind a character of code zero. -/
namespace Dossier.KeyPath

/-! ### Names and keys -/

/-- The store reads a name as the characters of it. -/
def SpellsItself (name : String) : Prop := Step.ofSegment name = .member (name.toList.map Char.toNat)

instance : DecidablePred SpellsItself := fun _ => inferInstanceAs (Decidable (_ = _))

/-- The store takes a key for a name. -/
def TakenFor (name key : String) : Prop := isNamed (name.toList.map Char.toNat) key = true

section
variable {name key : String}

/-- A character of code zero would break the name off. -/
theorem whole_of_ofSegment {codes : List Nat} (own : Step.ofSegment name = .member codes) :
    '\x00' ∉ name.toList := by
  intro member
  have kept : (name.toList.filter (· ≠ '"')).contains '\x00' = true := by
    rw [List.contains_iff_mem, List.mem_filter]
    exact ⟨member, by decide⟩
  rw [Step.ofSegment, if_pos kept] at own
  cases own

theorem SpellsItself.taken (spelled : SpellsItself name) : TakenFor name name :=
  (isNamed_iff (whole_of_ofSegment spelled)).mpr rfl

/-- A key that is taken for a name is the name with more behind it. -/
theorem TakenFor.isPrefix (taken : TakenFor name key) : name.toList <+: key.toList := by
  have codes : name.toList.map Char.toNat <+: key.toList.map Char.toNat := by
    rw [← beq_iff_eq.mp taken]
    exact List.takeWhile_prefix _
  obtain ⟨rest, same⟩ := codes
  obtain ⟨front, back, split, own, _⟩ := List.map_eq_append_iff.mp same.symm
  obtain rfl : front = name.toList := List.map_injective_iff.mpr (fun _ _ => Char.toNat_inj.mp) own
  exact ⟨back, split.symm⟩

theorem TakenFor.not_lt (taken : TakenFor name key) : ¬ key < name := by
  rw [String.lt_iff_toList_lt]
  exact taken.isPrefix.le

/-- Keys without characters of code zero are taken for themselves only. -/
theorem eq_of_taken {names place : List String} (taken : List.Forall₂ TakenFor names place)
    (whole : ∀ key ∈ place, '\x00' ∉ key.toList) : place = names := by
  induction taken with
  | nil => rfl
  | cons first _ ih =>
    rw [(isNamed_iff (whole _ List.mem_cons_self)).mp first,
      ih fun key member => whole key (List.mem_cons_of_mem _ member)]

end

/-! ### Following -/

/-- The member that a name which spells itself leads to has the name or another key that is taken
for it; then there is none of the name. -/
theorem entered?_of_spellsItself {name : String} (spelled : SpellsItself name) {members : Body}
    (ordered : members.Ordered) : 
    entered? (name.toList.map Char.toNat) members = members.find? name ∨
      members.find? name = none ∧ ∃ key inner, TakenFor name key ∧ key ≠ name ∧ members.find? key = some inner ∧
        entered? (name.toList.map Char.toNat) members = some inner := by
  induction members with
  | nil => exact .inl rfl
  | cons member rest ih =>
    obtain ⟨key, value⟩ := member
    by_cases taken : TakenFor name key
    · have entered : entered? (name.toList.map Char.toNat) ((key, value) :: rest) = some value := by
        simp [entered?, show isNamed _ key = true from taken]
      by_cases same : key = name
      · subst same
        exact .inl (by simp [entered, Keyed.find?])
      · -- Keys increase, and a key that is taken for the name is none that comes before it.
        refine .inr ⟨Keyed.find?_eq_none.mpr fun listed => ?_, key, value, taken, same,
          by simp [Keyed.find?], entered⟩
        rcases List.mem_cons.mp listed with own | among
        · exact same own.symm
        · obtain ⟨entry, later, rfl⟩ := List.mem_map.mp among
          exact taken.not_lt (List.rel_of_pairwise_cons ordered later)
    · have passed : entered? (name.toList.map Char.toNat) ((key, value) :: rest) =
          entered? (name.toList.map Char.toNat) rest := by
        simp [entered?, show ¬ isNamed _ key = true from taken]
      have other : key ≠ name := by
        rintro rfl
        exact taken spelled.taken
      have found {another : String} (different : key ≠ another) :
          Keyed.find? ((key, value) :: rest) another = Keyed.find? rest another := by simp [Keyed.find?, different]
      rw [passed, found other]
      rcases ih (List.pairwise_cons.mp ordered).2 with same | ⟨missing, another, inner, also, different, here, there⟩
      · exact .inl same
      · refine .inr ⟨missing, another, inner, also, different, ?_, there⟩
        rw [found, here]
        rintro rfl
        exact taken also

/-- Names that spell themselves lead where the names lead, or to another place that is taken for
it. -/
theorem follow_of_spellsItself {names : List String} (spelled : ∀ name ∈ names, SpellsItself name) {value : Json}
    (ordered : value.Ordered) : ∃ found, follow (names.map Step.ofSegment) value = .ok found ∧
      (found = value.under? names ∨ ∃ place inner, List.Forall₂ TakenFor names place ∧ place ≠ names ∧
        value.under? place = some inner) := by
  induction names generalizing value with
  | nil => exact ⟨_, rfl, .inl rfl⟩
  | cons name rest ih =>
    have own := spelled name List.mem_cons_self
    have later := fun other member => spelled other (List.mem_cons_of_mem name member)
    rw [List.map_cons, own]
    cases value with
    | object members =>
      have down (key : String) (names : List String) : (Json.object members).under? (key :: names) =
          (Keyed.find? members key).bind (·.under? names) := rfl
      rw [follow_member]
      rcases entered?_of_spellsItself own ordered.1 with same | ⟨missing, key, inner, taken, other, here, entered⟩
      · rw [same, down]
        cases found : Keyed.find? members name with
        | none => exact ⟨none, rfl, .inl rfl⟩
        | some inner =>
          obtain ⟨result, followed, led⟩ := ih later (Body.ordered_of_find? ordered found)
          refine ⟨result, followed, led.imp_right fun ⟨place, held, taken, different, there⟩ => ?_⟩
          exact ⟨name :: place, held, .cons own.taken taken, by simpa using different,
            by rw [down, found]; exact there⟩
      · rw [entered, down, missing]
        obtain ⟨result, followed, led⟩ := ih later (Body.ordered_of_find? ordered here)
        refine ⟨result, followed, ?_⟩
        cases result with
        | none => exact .inl rfl
        | some held =>
          right
          rcases led with same | ⟨place, held, further, _, there⟩
          · refine ⟨key :: rest, held,
              .cons taken (List.forall₂_same.mpr fun other member => (later other member).taken),
              by simpa using other, ?_⟩
            rw [down, here, Option.bind_some, same]
          · exact ⟨key :: place, held, .cons taken further, by simp [other], by rw [down, here]; exact there⟩
    | _ => exact ⟨none, rfl, .inl rfl⟩

/-! ### Single values -/

theorem spellsItself_of_named {name : String} {codes : List Nat} (own : Step.ofSegment name = .member codes)
    (named : isNamed codes name = true) : SpellsItself name := by
  rw [SpellsItself, own, ← beq_iff_eq.mp named, visible_characters (whole_of_ofSegment own)]

theorem putAt_cons (name : String) (rest : List String) (value : Json) :
    (Json.object []).putAt (name :: rest) value = .object [(name, (Json.object []).putAt rest value)] := by
  rw [← Body.put_nil]
  rfl

theorem entered?_single (codes : List Nat) (name : String) (value : Json) :
    entered? codes [(name, value)] = if isNamed codes name = true then some value else none := by
  by_cases named : isNamed codes name = true <;> simp [entered?, named]

/-- Some names lead to a value that stands there alone only if they spell themselves. -/
theorem spellsItself_of_follow {names : List String} {value found : Json}
    (followed : follow (names.map Step.ofSegment) ((Json.object []).putAt names value) = .ok (some found)) :
    ∀ name ∈ names, SpellsItself name := by
  induction names with
  | nil => simp
  | cons name rest ih =>
    rw [List.map_cons, putAt_cons] at followed
    cases own : Step.ofSegment name with
    | broken =>
      rw [own] at followed
      cases followed
    | member codes =>
      rw [own, follow_member, entered?_single] at followed
      by_cases named : isNamed codes name = true
      · rw [if_pos named] at followed
        exact List.forall_mem_cons.mpr ⟨spellsItself_of_named own named, ih followed⟩
      · rw [if_neg named] at followed
        cases followed

/-- A value that stands alone at a place which is taken for some names is led to by them. -/
theorem follow_of_taken {names place : List String} (spelled : ∀ name ∈ names, SpellsItself name)
    (taken : List.Forall₂ TakenFor names place) (value : Json) :
    follow (names.map Step.ofSegment) ((Json.object []).putAt place value) = .ok (some value) := by
  induction taken with
  | nil => rfl
  | @cons name key rest others first _ ih =>
    have named : isNamed (name.toList.map Char.toNat) key = true := first
    rw [List.map_cons, spelled name List.mem_cons_self, putAt_cons, follow_member, entered?_single, if_pos named]
    exact ih fun other member => spelled other (List.mem_cons_of_mem _ member)

end Dossier.KeyPath
