import Dossier.Keyed
import Mathlib.Data.List.Induction
import Mathlib.Data.List.Nodup

/-! Which entries are under the keys of keyed lists as these grow and shrink. -/
namespace Dossier.Keyed
variable {α : Type} {entries others : Keyed α} {key : String} {value : α} {entry : String × α}

theorem mem_insert (member : entry ∈ entries.insert key value) :
    entry = (key, value) ∨ entry ∈ entries := by
  induction entries with
  | nil => exact .inl (List.mem_singleton.mp member)
  | cons first rest ih =>
    obtain ⟨name, held⟩ := first
    simp only [insert] at member
    split at member
    · exact List.mem_cons.mp member
    · split at member
      · rcases List.mem_cons.mp member with same | later
        · exact .inl same
        · exact .inr (List.mem_cons_of_mem _ later)
      · rcases List.mem_cons.mp member with same | later
        · exact .inr (same ▸ List.mem_cons_self)
        · exact (ih later).imp id (List.mem_cons_of_mem _)

theorem mem_of_find? (found : entries.find? key = some value) : (key, value) ∈ entries := by
  induction entries with
  | nil => cases found
  | cons first rest ih =>
    obtain ⟨name, held⟩ := first
    by_cases same : name = key
    · simp only [find?, same, if_true, Option.some.injEq] at found
      simp [same, found]
    · simp only [find?, same, if_false] at found
      exact List.mem_cons_of_mem _ (ih found)

theorem find?_eq_none : entries.find? key = none ↔ key ∉ entries.keys := by
  induction entries with
  | nil => simp [find?, keys]
  | cons first rest ih =>
    obtain ⟨name, held⟩ := first
    by_cases same : name = key
    · simp [find?, keys, same]
    · simp only [find?, same, if_false, ih]
      simp [keys, Ne.symm same]

theorem exists_of_mem_keys (member : key ∈ entries.keys) : ∃ value, entries.find? key = some value :=
  Option.ne_none_iff_exists'.mp fun none => find?_eq_none.mp none member

/-- The first entry whose key is wanted is what is found under the first such key. -/
theorem find?_by_key (wanted : String → Bool) : List.find? (fun entry => wanted entry.1) entries =
    (entries.keys.find? wanted).bind fun key => (entries.find? key).map ((key, ·)) := by
  induction entries with
  | nil => rfl
  | cons first rest ih =>
    obtain ⟨name, held⟩ := first
    rw [List.find?_cons]
    cases hit : wanted name with
    | true => simp [keys, hit, find?]
    | false =>
      simp only [ih, keys, List.map_cons, List.find?_cons, hit]
      refine Option.bind_congr fun key found => ?_
      have different : name ≠ key := by
        rintro rfl
        simp [List.find?_some found] at hit
      simp [find?, different]

/-! ### Entries in the order of their keys -/

theorem ordered_iff_keys : entries.Ordered ↔ entries.keys.Pairwise (· < ·) :=
  List.pairwise_map.symm

theorem Ordered.nodup (ordered : entries.Ordered) : entries.keys.Nodup := by
  refine (ordered_iff_keys.mp ordered).imp fun earlier same => ?_
  exact String.lt_irrefl _ (same ▸ earlier)

theorem Ordered.find?_eq_some (ordered : entries.Ordered) :
    entries.find? key = some value ↔ (key, value) ∈ entries := by
  refine ⟨mem_of_find?, fun member => ?_⟩
  induction entries with
  | nil => cases member
  | cons first rest ih =>
    obtain ⟨least, later⟩ := List.pairwise_cons.mp ordered
    rcases List.mem_cons.mp member with rfl | among
    · simp [find?]
    · have different : first.1 ≠ key := fun same => String.lt_irrefl _ (same ▸ least _ among)
      simpa [find?, different] using ih later among

/-- Entries in order are told by what is found under the keys. -/
theorem Ordered.ext (ordered : entries.Ordered) (also : others.Ordered)
    (same : ∀ key, entries.find? key = others.find? key) : entries = others := by
  have distinct {list : Keyed α} (inOrder : list.Ordered) : list.Nodup := by
    refine List.Pairwise.imp ?_ inOrder
    intro first second earlier equal
    exact String.lt_irrefl _ (equal ▸ earlier)
  apply List.Perm.eq_of_pairwise _ ordered also
  · apply (List.perm_ext_iff_of_nodup (distinct ordered) (distinct also)).mpr
    intro entry
    rw [← ordered.find?_eq_some, same, also.find?_eq_some]
  · intro _ _ _ _ before after
    exact absurd after (String.lt_asymm before)

theorem Ordered.keys_eq (ordered : entries.Ordered) (also : others.Ordered)
    (same : ∀ key, entries.find? key = none ↔ others.find? key = none) : entries.keys = others.keys := by
  apply List.Perm.eq_of_pairwise _ (ordered_iff_keys.mp ordered) (ordered_iff_keys.mp also)
  · apply (List.perm_ext_iff_of_nodup ordered.nodup also.nodup).mpr
    intro key
    rw [← Decidable.not_iff_not, ← find?_eq_none, same, find?_eq_none]
  · intro _ _ _ _ before after
    exact absurd after (String.lt_asymm before)

/-- The keys that putting a value under a key leaves. -/
theorem mem_keys_insert {other : String} : other ∈ (entries.insert key value).keys ↔
    other = key ∨ other ∈ entries.keys := by
  induction entries with
  | nil => simp [insert, keys]
  | cons first rest ih =>
    obtain ⟨name, held⟩ := first
    simp only [insert]
    split
    · simp [keys]
    · split
      · rename_i same
        simp [keys, same]
      · simp only [keys, List.map_cons, List.mem_cons] at ih ⊢
        rw [ih]
        exact or_left_comm

theorem Ordered.insert (ordered : entries.Ordered) (key : String) (value : α) :
    (entries.insert key value).Ordered := by
  rw [ordered_iff_keys] at ordered ⊢
  induction entries with
  | nil => simp [Keyed.insert, keys]
  | cons first rest ih =>
    obtain ⟨name, held⟩ := first
    obtain ⟨least, later⟩ := List.pairwise_cons.mp ordered
    simp only [Keyed.insert]
    split
    · rename_i before
      refine List.pairwise_cons.mpr ⟨fun other member => ?_, ordered⟩
      rcases List.mem_cons.mp member with rfl | among
      · exact before
      · exact String.lt_trans before (least other among)
    · split
      · rename_i same
        subst same
        exact ordered
      · rename_i notBefore different
        refine List.pairwise_cons.mpr ⟨fun other member => ?_, ih later⟩
        rcases mem_keys_insert.mp member with rfl | among
        · have above : name ≤ other := String.not_lt.mp notBefore
          exact Decidable.byContradiction fun notAfter =>
            different (String.le_antisymm above (String.not_lt.mp notAfter))
        · exact least other among

theorem Ordered.erase (ordered : entries.Ordered) (key : String) : (entries.erase key).Ordered :=
  ordered.filter _

/-- Putting what is there changes nothing. -/
theorem Ordered.insert_held (ordered : entries.Ordered) (found : entries.find? key = some value) :
    entries.insert key value = entries := by
  apply (ordered.insert key value).ext ordered
  intro other
  rw [find?_insert]
  split
  · rename_i same
    rw [← same, found]
  · rfl

/-- Of two values that are put under one key the later stays. -/
theorem insert_insert (entries : Keyed α) (key : String) (first last : α) :
    (entries.insert key first).insert key last = entries.insert key last := by
  induction entries with
  | nil => simp [Keyed.insert]
  | cons entry rest ih =>
    obtain ⟨name, held⟩ := entry
    simp only [Keyed.insert]
    split
    · simp [Keyed.insert]
    · split
      · simp [Keyed.insert]
      · rename_i before different
        simp [Keyed.insert, before, different, ih]

/-- Taking away what was put under a key leaves what there was without the key. -/
theorem erase_insert (entries : Keyed α) (key : String) (value : α) :
    (entries.insert key value).erase key = entries.erase key := by
  induction entries with
  | nil => simp [Keyed.insert, Keyed.erase]
  | cons first rest ih =>
    obtain ⟨name, held⟩ := first
    simp only [Keyed.insert]
    split
    · simp [Keyed.erase]
    · split
      · rename_i same
        simp [Keyed.erase, same]
      · simp only [Keyed.erase, List.filter_cons] at ih ⊢
        rw [ih]

/-- A key beyond all others is put at the end. -/
theorem insert_of_lt (beyond : ∀ name ∈ entries.keys, name < key) :
    entries.insert key value = entries ++ [(key, value)] := by
  induction entries with
  | nil => rfl
  | cons first rest ih =>
    obtain ⟨name, held⟩ := first
    have before : name < key := beyond name (by simp [keys])
    have different : name ≠ key := fun same => String.lt_irrefl _ (same ▸ before)
    have later := ih fun other member => beyond other (List.mem_cons_of_mem _ member)
    simp [insert, String.lt_asymm before, different, later]

/-- Gathering entries in order changes nothing. -/
theorem ofEntries_of_ordered (ordered : entries.Ordered) : ofEntries entries = entries := by
  have general (done more : Keyed α) (together : (done ++ more).Ordered) :
      more.foldl (fun gathered entry => gathered.insert entry.1 entry.2) done = done ++ more := by
    induction more generalizing done with
    | nil => simp
    | cons entry rest ih =>
      obtain ⟨key, value⟩ := entry
      have beyond : ∀ name ∈ done.keys, name < key := by
        intro name member
        obtain ⟨each, among, rfl⟩ := List.mem_map.mp member
        exact (List.pairwise_append.mp together).2.2 each among _ List.mem_cons_self
      rw [List.foldl_cons, insert_of_lt beyond, ih _ (by simpa using together)]
      simp
  simpa [ofEntries] using general [] entries ordered

theorem mem_ofEntries {entries : List (String × α)} (member : entry ∈ ofEntries entries) :
    entry ∈ entries := by
  have general (done : Keyed α) (gathered : entry ∈ entries.foldl
      (fun gathered entry => gathered.insert entry.1 entry.2) done) : entry ∈ done ∨ entry ∈ entries := by
    clear member
    induction entries generalizing done with
    | nil => exact .inl gathered
    | cons first rest ih =>
      rcases ih _ gathered with earlier | later
      · rcases mem_insert earlier with rfl | before
        · exact .inr List.mem_cons_self
        · exact .inl before
      · exact .inr (List.mem_cons_of_mem _ later)
  exact (general [] member).resolve_left (by simp)

theorem mem_keys_ofEntries {entries : List (String × α)} {key : String} :
    key ∈ keys (ofEntries entries) ↔ key ∈ keys entries := by
  have general (done : Keyed α) : key ∈ keys (entries.foldl
      (fun gathered entry => gathered.insert entry.1 entry.2) done) ↔ key ∈ keys done ∨ key ∈ keys entries := by
    induction entries generalizing done with
    | nil => simp [keys]
    | cons entry rest ih =>
      rw [List.foldl_cons, ih, mem_keys_insert]
      change (key = entry.1 ∨ key ∈ keys done) ∨ key ∈ keys rest ↔
        key ∈ keys done ∨ key ∈ entry.1 :: keys rest
      rw [List.mem_cons, ← or_assoc, or_comm (b := key ∈ keys done)]
  exact (general []).trans (by simp [keys])

theorem ordered_ofEntries (entries : List (String × α)) : Ordered (ofEntries entries) := by
  have general (done : Keyed α) (ordered : done.Ordered) :
      Ordered (entries.foldl (fun gathered entry => gathered.insert entry.1 entry.2) done) := by
    induction entries generalizing done with
    | nil => exact ordered
    | cons entry rest ih => exact ih _ (ordered.insert entry.1 entry.2)
  exact general [] List.Pairwise.nil

theorem find?_ofEntries {entries : List (String × α)} {key : String} {value : α} (distinct : (keys entries).Nodup)
    (member : (key, value) ∈ entries) : find? (ofEntries entries) key = some value := by
  have listed : key ∈ keys (ofEntries entries) := mem_keys_ofEntries.mpr (List.mem_map_of_mem member)
  cases found : find? (ofEntries entries) key with
  | none => exact absurd listed (find?_eq_none.mp found)
  | some other =>
    have also := mem_ofEntries (mem_of_find? found)
    have same := List.inj_on_of_nodup_map distinct also member rfl
    exact congrArg some (Prod.mk.inj same).2

/-- Under each key the last of the entries is gathered. -/
theorem find?_ofEntries_eq_getLast? (entries : List (String × α)) (key : String) : find? (ofEntries entries) key =
    (entries.filterMap fun entry => if entry.1 = key then some entry.2 else none).getLast? := by
  induction entries using List.reverseRecOn with
  | nil => rfl
  | append_singleton earlier entry ih =>
    have gathered : ofEntries (earlier ++ [entry]) = (ofEntries earlier).insert entry.1 entry.2 := by
      simp [ofEntries]
    rw [gathered, find?_insert, List.filterMap_append, ih]
    by_cases own : entry.1 = key <;> simp [own]

/-- Entries under different keys are gathered alike in every order. -/
theorem ofEntries_perm {entries others : List (String × α)} (distinct : (keys entries).Nodup)
    (same : entries.Perm others) : ofEntries entries = ofEntries others := by
  have distinctToo : (keys others).Nodup := (same.map _).nodup_iff.mp distinct
  apply (ordered_ofEntries entries).ext (ordered_ofEntries others)
  intro key
  cases found : find? (ofEntries entries) key with
  | some value =>
    exact (find?_ofEntries distinctToo (same.mem_iff.mp (mem_ofEntries (mem_of_find? found)))).symm
  | none =>
    have absent := find?_eq_none.mp found
    rw [mem_keys_ofEntries] at absent
    refine (find?_eq_none.mpr fun listed => absent ?_).symm
    exact (same.map Prod.fst).mem_iff.mpr (mem_keys_ofEntries.mp listed)

/-- What is under one key in two lists with the same keys is related as their entries are. -/
theorem find?_of_forall₂ {β : Type} (related : String → α → β → Prop) {others : Keyed β}
    (listed : List.Forall₂ (fun entry other => entry.1 = other.1 ∧ related entry.1 entry.2 other.2) entries others)
    (key : String) : Option.Rel (related key) (entries.find? key) (others.find? key) := by
  induction listed with
  | nil => exact .none
  | @cons first second _ _ head _ ih =>
    obtain ⟨name, value⟩ := first
    obtain ⟨also, other⟩ := second
    obtain ⟨rfl, own⟩ : name = also ∧ related name value other := head
    simp only [find?]
    split
    · rename_i here
      exact .some (here ▸ own)
    · exact ih

end Dossier.Keyed
