import Dossier.Document
import Dossier.Proofs.KeyedEntries
import Mathlib.Data.List.Infix
import Mathlib.Data.String.Basic

/-! Dotted paths and the values they lead to: what the segments of a path are, and what
putting and dropping a value at one path does to the values at others. -/
namespace Dossier

namespace Text

/-! ### Segments -/

theorem splitDots_ne_nil (characters : List Char) : splitDots characters ≠ [] := by
  cases characters with
  | nil => simp [splitDots]
  | cons c rest =>
    by_cases dot : c = '.'
    · simp [splitDots, dot]
    · cases parts : splitDots rest <;> simp [splitDots, dot, parts]

/-- A dot ends a segment. -/
theorem splitDots_append (front back : List Char) :
    splitDots (front ++ '.' :: back) = splitDots front ++ splitDots back := by
  induction front with
  | nil => simp [splitDots]
  | cons c rest ih =>
    by_cases dot : c = '.'
    · simp [splitDots, dot, ih]
    · cases parts : splitDots rest with
      | nil => exact absurd parts (splitDots_ne_nil rest)
      | cons first others => simp [splitDots, dot, ih, parts]

theorem splitDots_of_notMem {characters : List Char} (undotted : '.' ∉ characters) :
    splitDots characters = [characters] := by
  induction characters with
  | nil => rfl
  | cons c rest ih =>
    have different : c ≠ '.' := fun same => undotted (by simp [same])
    simp [splitDots, different, ih fun later => undotted (List.mem_cons_of_mem _ later)]

theorem notMem_of_mem_splitDots {characters part : List Char} (member : part ∈ splitDots characters) :
    '.' ∉ part := by
  induction characters generalizing part with
  | nil => simp_all [splitDots]
  | cons c rest ih =>
    by_cases dot : c = '.'
    · rcases List.mem_cons.mp (by simpa [splitDots, dot] using member) with empty | later
      · simp [empty]
      · exact ih later
    · cases parts : splitDots rest with
      | nil => exact absurd parts (splitDots_ne_nil rest)
      | cons first others =>
        rcases List.mem_cons.mp (by simpa [splitDots, dot, parts] using member) with head | later
        · have kept : '.' ∉ first := ih (by simp [parts])
          simpa [head, Ne.symm dot] using kept
        · exact ih (by simp [parts, later])

theorem segments_ne_nil (path : String) : segments path ≠ [] := by
  simpa [segments] using splitDots_ne_nil path.toList

/-- A name without a dot. -/
def Undotted (name : String) : Prop := '.' ∉ name.toList

instance (name : String) : Decidable (Undotted name) := inferInstanceAs (Decidable ('.' ∉ name.toList))

theorem undotted_of_mem_segments {path name : String} (member : name ∈ segments path) :
    Undotted name := by
  obtain ⟨part, listed, rfl⟩ := List.mem_map.mp member
  simpa [Undotted] using notMem_of_mem_splitDots listed

/-- Characters other than dots are in some segment. -/
theorem exists_mem_segments {path : String} {c : Char} (member : c ∈ path.toList) (other : c ≠ '.') :
    ∃ name ∈ segments path, c ∈ name.toList := by
  have general {characters : List Char} (among : c ∈ characters) : ∃ part ∈ splitDots characters, c ∈ part := by
    induction characters with
    | nil => cases among
    | cons first rest ih =>
      by_cases dot : first = '.'
      · have later : c ∈ rest := (List.mem_cons.mp among).resolve_left fun same => other (same.trans dot)
        obtain ⟨part, listed, inside⟩ := ih later
        exact ⟨part, by simp [splitDots, dot, listed], inside⟩
      · cases parts : splitDots rest with
        | nil => exact absurd parts (splitDots_ne_nil rest)
        | cons head others =>
          rcases List.mem_cons.mp among with rfl | later
          · exact ⟨c :: head, by simp [splitDots, dot, parts], List.mem_cons_self⟩
          · obtain ⟨part, listed, inside⟩ := ih later
            rw [parts] at listed
            rcases List.mem_cons.mp listed with rfl | further
            · exact ⟨first :: part, by simp [splitDots, dot, parts], List.mem_cons_of_mem _ inside⟩
            · exact ⟨part, by simp [splitDots, dot, parts, further], inside⟩
  obtain ⟨part, listed, inside⟩ := general member
  exact ⟨String.ofList part, List.mem_map_of_mem listed, by simpa using inside⟩

theorem segments_of_undotted {name : String} (undotted : Undotted name) : segments name = [name] := by
  simp [segments, splitDots_of_notMem undotted]

theorem segments_append (front back : String) :
    segments (front ++ "." ++ back) = segments front ++ segments back := by
  have characters : (front ++ "." ++ back).toList = front.toList ++ '.' :: back.toList := by simp
  simp only [segments, characters, splitDots_append, List.map_append]

/-- The path of some names, one below the other. -/
def dotted (names : List String) : String := ".".intercalate names

theorem dotted_singleton (name : String) : dotted [name] = name := String.intercalate_singleton

theorem dotted_cons {names : List String} (name : String) (nonempty : names ≠ []) :
    dotted (name :: names) = name ++ "." ++ dotted names := String.intercalate_cons_of_ne_nil nonempty

theorem append_dotted_cons {names : List String} (above name : String) (nonempty : names ≠ []) :
    above ++ dotted (name :: names) = above ++ name ++ "." ++ dotted names := by
  rw [dotted_cons name nonempty]
  simp only [String.append_assoc]

theorem dotted_append {names others : List String} (nonempty : names ≠ []) (also : others ≠ []) :
    dotted (names ++ others) = dotted names ++ "." ++ dotted others := by
  induction names with
  | nil => exact absurd rfl nonempty
  | cons name rest ih =>
    by_cases last : rest = []
    · simp [last, dotted_cons name also, dotted_singleton]
    · rw [List.cons_append, dotted_cons name (by simp [last]), ih last, dotted_cons name last]
      simp only [String.append_assoc]

theorem segments_dotted_cons {name : String} {rest : List String} (undotted : Undotted name) :
    segments (dotted (name :: rest)) = name :: if rest = [] then [] else segments (dotted rest) := by
  by_cases last : rest = []
  · rw [last, dotted_singleton, segments_of_undotted undotted]
    rfl
  · rw [dotted_cons name last, segments_append, segments_of_undotted undotted, if_neg last]
    rfl

/-- Names without dots are the segments of their path. -/
theorem segments_dotted {names : List String} (nonempty : names ≠ [])
    (undotted : ∀ name ∈ names, Undotted name) : segments (dotted names) = names := by
  induction names with
  | nil => exact absurd rfl nonempty
  | cons name rest ih =>
    rw [segments_dotted_cons (undotted name List.mem_cons_self)]
    by_cases last : rest = []
    · simp [last]
    · rw [if_neg last, ih last fun other member => undotted other (List.mem_cons_of_mem _ member)]

/-- A path is that of its segments. -/
theorem dotted_segments (path : String) : dotted (segments path) = path := by
  have general (characters : List Char) :
      dotted ((splitDots characters).map String.ofList) = String.ofList characters := by
    induction characters with
    | nil => rfl
    | cons c rest ih =>
      cases parts : splitDots rest with
      | nil => exact absurd parts (splitDots_ne_nil rest)
      | cons first others =>
        rw [parts] at ih
        by_cases dot : c = '.'
        · simp only [splitDots, dot, if_true, parts, List.map_cons]
          rw [dotted_cons _ (by simp), ← List.map_cons, ih]
          simp
        · simp only [splitDots, dot, if_false, parts, List.map_cons]
          have joined : String.ofList (c :: first) = String.ofList [c] ++ String.ofList first := by
            simp
          rw [dotted, joined, String.intercalate_cons_append, ← dotted, ← List.map_cons, ih]
          simp
  rw [segments, general, String.ofList_toList]

theorem dotted_injective {first second : List String} (nonempty : first ≠ []) (also : second ≠ [])
    (undotted : ∀ name ∈ first, Undotted name) (undottedToo : ∀ name ∈ second, Undotted name)
    (same : dotted first = dotted second) : first = second := by
  rw [← segments_dotted nonempty undotted, same, segments_dotted also undottedToo]

/-- Neither of two places is the other one or lies below it. -/
def Apart (names others : List String) : Prop := ¬ names <+: others ∧ ¬ others <+: names

theorem Apart.of_ne {name other : String} {rest others : List String} (different : name ≠ other) :
    Apart (name :: rest) (other :: others) :=
  ⟨fun above => different (List.cons_prefix_cons.mp above).1,
    fun above => different (List.cons_prefix_cons.mp above).1.symm⟩

theorem Apart.symm {names others : List String} (apart : Apart names others) : Apart others names :=
  ⟨apart.2, apart.1⟩

theorem Apart.tail {name : String} {rest others : List String}
    (apart : Apart (name :: rest) (name :: others)) : Apart rest others :=
  ⟨fun below => apart.1 (List.cons_prefix_cons.mpr ⟨rfl, below⟩),
    fun below => apart.2 (List.cons_prefix_cons.mpr ⟨rfl, below⟩)⟩

theorem Apart.left_ne_nil {names others : List String} (apart : Apart names others) : names ≠ [] :=
  fun empty => apart.1 (empty ▸ List.nil_prefix)

theorem Apart.right_ne_nil {names others : List String} (apart : Apart names others) : others ≠ [] :=
  apart.symm.left_ne_nil

end Text

/-! ### Values below a value -/

/-- The value that some names lead to below a value; no names lead to itself. -/
def Json.under? (value : Json) : (names : List String) → Option Json
  | [] => some value
  | name :: rest => (value.member? name).bind (·.under? rest)

theorem Json.under?_append (value : Json) (names others : List String) :
    value.under? (names ++ others) = (value.under? names).bind (·.under? others) := by
  induction names generalizing value with
  | nil => rfl
  | cons name rest ih => simp only [List.cons_append, under?, Option.bind_assoc, ih]

theorem Json.under?_of_members?_eq_none {value : Json} {names : List String}
    (noObject : value.members? = none) (nonempty : names ≠ []) : value.under? names = none := by
  cases names with
  | nil => exact absurd rfl nonempty
  | cons name rest => simp [under?, member?, noObject]

theorem Document.foldl_descend_none (names : List String) : names.foldl descend none = none := by
  induction names with
  | nil => rfl
  | cons name rest ih => exact ih

/-- Going down member by member from a document is the same walk. -/
theorem Document.foldl_descend (value : Json) (names : List String) :
    names.foldl descend (some value) = value.under? names := by
  induction names generalizing value with
  | nil => rfl
  | cons name rest ih =>
    rw [List.foldl_cons, Json.under?]
    cases found : value.member? name with
    | some inner => simp [descend, found, ih]
    | none => simp [descend, found, foldl_descend_none]

namespace Body
variable {body : Body} {names others : List String} {value : Json}

theorem at?_cons (body : Body) (name : String) (rest : List String) :
    body.at? (name :: rest) = (body.find? name).bind (·.under? rest) := by
  induction rest generalizing body name with
  | nil => simp [at?, Json.under?]
  | cons next rest ih =>
    simp only [at?, Json.under?, Json.member?, Option.bind_assoc]
    congr 1
    funext inner
    cases inner.members? with
    | none => rfl
    | some members => exact ih members next

theorem at?_eq_under? (nonempty : names ≠ []) : body.at? names = (Json.object body).under? names := by
  cases names with
  | nil => exact absurd rfl nonempty
  | cons name rest => rw [at?_cons]; rfl

theorem at?_append (nonempty : names ≠ []) :
    body.at? (names ++ others) = (body.at? names).bind (·.under? others) := by
  rw [at?_eq_under? nonempty, at?_eq_under? (by simp [nonempty]), Json.under?_append]

/-! ### Putting -/

/-- The members that a value is entered by when something is put below it. -/
def entered (value : Option Json) : Body := (value.bind Json.members?).getD []

theorem under?_entered (value : Option Json) (nonempty : names ≠ []) :
    (Json.object (entered value)).under? names = value.bind (·.under? names) := by
  cases names with
  | nil => exact absurd rfl nonempty
  | cons name rest =>
    cases value with
    | none => rfl
    | some held => cases held <;> rfl

theorem find?_put_cons (body : Body) (value : Json) (name : String) (rest : List String) (other : String) :
    (body.put value (name :: rest)).find? other =
      if name = other then
        some (if rest = [] then value else .object (put (entered (body.find? name)) value rest))
      else body.find? other := by
  cases rest with
  | nil => simp [put, Keyed.find?_insert]
  | cons next rest => simp [put, Keyed.find?_insert, entered]

/-- What is put at a place is there, with all that is below it. -/
theorem at?_put (body : Body) (value : Json) (nonempty : names ≠ []) (below : List String) :
    (body.put value names).at? (names ++ below) = value.under? below := by
  induction names generalizing body with
  | nil => exact absurd rfl nonempty
  | cons name rest ih =>
    rw [List.cons_append, at?_cons, find?_put_cons, if_pos rfl]
    cases rest with
    | nil => simp
    | cons next rest =>
      have inner := ih (entered (body.find? name)) (by simp)
      rw [at?_eq_under? (by simp)] at inner
      simpa using inner

theorem get?_set (body : Body) (path : String) (value : Json) : (body.set path value).get? path = some value := by
  have put := body.at?_put value (Text.segments_ne_nil path) []
  rwa [List.append_nil] at put

/-- Of two values that are put at one place the later is there. -/
theorem put_put (body : Body) (first last : Json) (names : List String) :
    (body.put first names).put last names = body.put last names := by
  induction names generalizing body with
  | nil => rfl
  | cons name rest ih =>
    cases rest with
    | nil => exact Keyed.insert_insert body name first last
    | cons next others =>
      simp only [put, Keyed.find?_insert, if_true, Option.bind_some, Json.members?, Option.getD_some,
        Keyed.insert_insert, ih]

/-- Putting leaves alone what stands apart. -/
theorem at?_put_of_apart (body : Body) (value : Json) (apart : Text.Apart names others) :
    (body.put value names).at? others = body.at? others := by
  induction names generalizing body others with
  | nil => exact absurd rfl apart.left_ne_nil
  | cons name rest ih =>
    cases others with
    | nil => exact absurd rfl apart.right_ne_nil
    | cons other below =>
      rw [at?_cons, at?_cons, find?_put_cons]
      by_cases same : name = other
      · subst same
        have tail := apart.tail
        have inner := ih (entered (body.find? name)) tail
        rw [at?_eq_under? tail.right_ne_nil, at?_eq_under? tail.right_ne_nil] at inner
        simp only [if_true, tail.left_ne_nil, if_false, Option.bind_some, inner]
        exact under?_entered _ tail.right_ne_nil
      · simp [same]

/-- Above a place, the value put there is seen within an object. -/
theorem at?_put_above (body : Body) (value : Json) (nonempty : names ≠ []) (below : others ≠ []) :
    (body.put value (names ++ others)).at? names =
      some (.object (put (entered (body.at? names)) value others)) := by
  induction names generalizing body with
  | nil => exact absurd rfl nonempty
  | cons name rest ih =>
    rw [List.cons_append, at?_cons, find?_put_cons, if_pos rfl, at?_cons]
    cases rest with
    | nil => simp [below, Json.under?]
    | cons next rest =>
      have inner := ih (entered (body.find? name)) (by simp)
      rw [at?_eq_under? (by simp), at?_eq_under? (by simp), under?_entered _ (by simp)] at inner
      simpa using inner

/-! ### Dropping -/

/-- What is left of a value when something below it is dropped; dropping the value itself
leaves nothing. -/
def without (value : Json) : (names : List String) → Option Json
  | [] => none
  | name :: rest =>
    match value.members? with
    | some inner => some (.object (drop inner (name :: rest)))
    | none => some value

theorem find?_drop_cons (body : Body) (name : String) (rest : List String) (other : String) :
    (body.drop (name :: rest)).find? other =
      if name = other then (body.find? name).bind (without · rest) else body.find? other := by
  cases rest with
  | nil => by_cases same : name = other <;> simp [drop_singleton, without, Keyed.find?_erase, same]
  | cons next rest =>
    simp only [drop_cons_cons, without]
    cases found : body.find? name with
    | none =>
      by_cases same : name = other
      · subst same
        simp [found]
      · simp [same]
    | some held =>
      cases members : held.members? with
      | none =>
        by_cases same : name = other
        · subst same
          simp [members, found]
        · simp [members, same]
      | some inner => by_cases same : name = other <;> simp [members, same, Keyed.find?_insert]

theorem drop_nil (names : List String) : drop [] names = [] := by
  cases names with
  | nil => rfl
  | cons name rest => cases rest <;> rfl

theorem under?_without (value : Json) (rest names : List String) (nonempty : names ≠ []) :
    (without value rest).bind (·.under? names) =
      if rest = [] then none else (Json.object (drop (entered (some value)) rest)).under? names := by
  cases rest with
  | nil => rfl
  | cons next rest =>
    cases members : value.members? with
    | some inner => simp [without, members, entered]
    | none =>
      have entering : entered (some value) = [] := by simp [entered, members]
      rw [entering, drop_nil, if_neg (by simp)]
      simp only [without, members, Option.bind_some,
        Json.under?_of_members?_eq_none members nonempty]
      exact (under?_entered none nonempty).symm

/-- Nothing is at a place that was dropped, or below it. -/
theorem at?_drop (body : Body) (nonempty : names ≠ []) (below : List String) :
    (body.drop names).at? (names ++ below) = none := by
  induction names generalizing body with
  | nil => exact absurd rfl nonempty
  | cons name rest ih =>
    rw [List.cons_append, at?_cons, find?_drop_cons, if_pos rfl]
    cases found : body.find? name with
    | none => rfl
    | some held =>
      rw [Option.bind_some]
      cases rest with
      | nil => rfl
      | cons next rest =>
        have inner := ih (entered (some held)) (by simp)
        rw [at?_eq_under? (by simp)] at inner
        rw [under?_without _ _ _ (by simp)]
        simpa using inner

/-- Above a place that is dropped, its value is seen without it. -/
theorem at?_drop_above (body : Body) (nonempty : names ≠ []) (others : List String) :
    (body.drop (names ++ others)).at? names = (body.at? names).bind (without · others) := by
  induction names generalizing body with
  | nil => exact absurd rfl nonempty
  | cons name rest ih =>
    rw [List.cons_append, at?_cons, find?_drop_cons, if_pos rfl, at?_cons]
    cases found : body.find? name with
    | none => rfl
    | some held =>
      rw [Option.bind_some, Option.bind_some]
      cases rest with
      | nil => cases kept : without held others <;> simp [kept, Json.under?]
      | cons next rest =>
        have inner := ih (entered (some held)) (by simp)
        rw [at?_eq_under? (by simp), at?_eq_under? (by simp), under?_entered _ (by simp)] at inner
        rw [under?_without _ _ _ (by simp)]
        simpa using inner

/-- Dropping leaves alone what stands apart. -/
theorem at?_drop_of_apart (body : Body) (apart : Text.Apart names others) :
    (body.drop names).at? others = body.at? others := by
  induction names generalizing body others with
  | nil => exact absurd rfl apart.left_ne_nil
  | cons name rest ih =>
    cases others with
    | nil => exact absurd rfl apart.right_ne_nil
    | cons other below =>
      rw [at?_cons, at?_cons, find?_drop_cons]
      by_cases same : name = other
      · subst same
        have tail := apart.tail
        rw [if_pos rfl]
        cases found : body.find? name with
        | none => rfl
        | some held =>
          have inner := ih (entered (some held)) tail
          rw [at?_eq_under? tail.right_ne_nil, at?_eq_under? tail.right_ne_nil,
            under?_entered _ tail.right_ne_nil] at inner
          rw [Option.bind_some, under?_without _ _ _ tail.right_ne_nil, if_neg tail.left_ne_nil, inner]
      · simp [same]

end Body

/-- Except at its id a document holds what its body does. -/
theorem Document.valueAt?_of_ne (document : Document) {path : String} (other : path ≠ idKey) :
    document.valueAt? path = document.body.get? path := by
  rw [valueAt?, if_neg other, foldl_descend, Body.get?, Body.at?_eq_under? (Text.segments_ne_nil path)]

end Dossier
