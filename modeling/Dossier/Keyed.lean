/-! Values under text keys, one value a key, listed in the order of the keys. Keys
are ordered by code points, which is also the order of their bytes. -/
namespace Dossier

abbrev Keyed (α : Type) := List (String × α)

namespace Keyed
variable {α : Type}

/-- Keys increase from entry to entry, so none is there twice. -/
def Ordered (entries : Keyed α) : Prop := entries.Pairwise fun earlier later => earlier.1 < later.1

def find? : Keyed α → String → Option α
  | [], _ => none
  | (name, value) :: rest, key => if name = key then some value else find? rest key

/-- Puts a value under a key, in the place of the one that is there. -/
def insert : Keyed α → String → α → Keyed α
  | [], key, value => [(key, value)]
  | (name, held) :: rest, key, value =>
    if key < name then (key, value) :: (name, held) :: rest
    else if name = key then (key, value) :: rest
    else (name, held) :: insert rest key value

def erase (entries : Keyed α) (key : String) : Keyed α := entries.filter fun entry => entry.1 ≠ key

/-- Gathers entries; of two under one key the later stays. -/
def ofEntries (entries : List (String × α)) : Keyed α :=
  entries.foldl (fun gathered entry => gathered.insert entry.1 entry.2) []

def keys (entries : Keyed α) : List String := entries.map Prod.fst

theorem find?_insert (entries : Keyed α) (key other : String) (value : α) :
    (entries.insert key value).find? other = if key = other then some value else entries.find? other := by
  induction entries with
  | nil => simp [insert, find?]
  | cons entry rest ih =>
    obtain ⟨name, held⟩ := entry
    simp only [insert]
    split
    · simp [find?]
    · split
      · rename_i same
        subst same
        by_cases equal : name = other <;> simp [find?, equal]
      · rename_i different
        by_cases equal : name = other
        · subst equal
          simp [find?, Ne.symm different]
        · simp [find?, equal, ih]

theorem find?_erase (entries : Keyed α) (key other : String) :
    (entries.erase key).find? other = if key = other then none else entries.find? other := by
  induction entries with
  | nil => simp [erase, find?]
  | cons entry rest ih =>
    obtain ⟨name, held⟩ := entry
    unfold erase at ih
    by_cases equal : name = key
    · subst equal
      by_cases same : name = other <;> simp_all [erase, find?]
    · by_cases same : key = other
      · subst same
        simp_all [erase, find?]
      · simp_all [erase, find?]

end Keyed
end Dossier
