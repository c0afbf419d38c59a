import Dossier.Proofs.StoredForms

/-! The places of references. A listed reference is never above another one, so values that are
put at references one after the other leave each other alone; and what a stored document holds
at a reference is an id in its canonical form or no id at all. -/
namespace Dossier

/-! ### Ids in texts -/

namespace Text

theorem trimStart_eq_self {characters : List Char} (shown : ∀ c ∈ characters, isBlank c = false) :
    trimStart characters = characters := by
  cases characters with
  | nil => rfl
  | cons c rest => simp [trimStart, shown c List.mem_cons_self]

theorem trim_eq_self {text : String} (shown : ∀ c ∈ text.toList, isBlank c = false) : trim text = text := by
  rw [trim, trimStart_eq_self shown, trimEnd, trimStart_eq_self (by simpa using shown), List.reverse_reverse,
    String.ofList_toList]

theorem mem_trimStart {characters : List Char} {c : Char} (member : c ∈ characters) (shown : isBlank c = false) :
    c ∈ trimStart characters := by
  induction characters with
  | nil => cases member
  | cons first rest ih =>
    rw [trimStart, List.dropWhile_cons]
    split
    · rename_i blank
      rcases List.mem_cons.mp member with rfl | among
      · rw [shown] at blank
        cases blank
      · exact ih among
    · exact member

theorem mem_trim {text : String} {c : Char} (member : c ∈ text.toList) (shown : isBlank c = false) :
    c ∈ (trim text).toList := by
  rw [trim, String.toList_ofList, trimEnd, List.mem_reverse]
  exact mem_trimStart (List.mem_reverse.mpr (mem_trimStart member shown)) shown

end Text

namespace EntityId

/-- The characters that ids are made of. -/
def characters : List Char := '-' :: Text.hexDigits

theorem mem_characters {position : Nat} {text : List Char} (fitting : fitsFrom position text = true) :
    ∀ c ∈ text, c ∈ characters := by
  induction text generalizing position with
  | nil => simp
  | cons first rest ih =>
    obtain ⟨own, later⟩ := Bool.and_eq_true_iff.mp fitting
    intro c member
    rcases List.mem_cons.mp member with rfl | among
    · unfold fits at own
      split at own
      · simp [characters, beq_iff_eq.mp own]
      · exact List.mem_cons_of_mem _ (List.contains_iff_mem.mp own)
    · exact ih later c among

theorem mem_characters_of_mem_text (id : EntityId) : ∀ c ∈ id.text.toList, c ∈ characters :=
  mem_characters (Bool.and_eq_true_iff.mp id.canonical).2

theorem isBlank_of_mem_text (id : EntityId) : ∀ c ∈ id.text.toList, Text.isBlank c = false := by
  have all : characters.all (fun c => !Text.isBlank c) = true := by decide
  exact fun c member => by simpa using List.all_eq_true.mp all c (id.mem_characters_of_mem_text c member)

theorem trim_text (id : EntityId) : Text.trim id.text = id.text := Text.trim_eq_self id.isBlank_of_mem_text

/-- The text of an id is read as the id. -/
theorem parse?_text (id : EntityId) : parse? id.text = some id := by
  have all : characters.all (fun c => c.toLower == c) = true := by decide
  have plain : ∀ c ∈ id.text.toList, c.toLower = c := fun c member => by
    simpa using List.all_eq_true.mp all c (id.mem_characters_of_mem_text c member)
  have lowered : id.text.toList.map Char.toLower = id.text.toList :=
    (List.map_congr_left plain).trans (List.map_id _)
  unfold parse?
  simp only [trim_text, lowered, String.ofList_toList, id.canonical]
  rfl

/-- A text with a character in it that is neither blank nor of ids is none. -/
theorem parse?_eq_none {raw : String} {c : Char} (member : c ∈ raw.toList) (shown : Text.isBlank c = false)
    (foreign : c.toLower ∉ characters) : parse? raw = none := by
  unfold parse?
  refine dif_neg fun canonical => foreign ?_
  refine mem_characters (Bool.and_eq_true_iff.mp canonical).2 _ ?_
  simpa using ⟨c, Text.mem_trim member shown, rfl⟩

end EntityId

/-- The text of an instant is no id. -/
theorem EntityId.parse?_timestamp (instant : Timestamp) : EntityId.parse? instant.text = none := by
  refine parse?_eq_none (c := ':') ?_ (by decide) (by decide)
  simp [Timestamp.text]

/-! ### Outlines -/

namespace Json

/-- A value with the members of an object left out. -/
def outline : Json → Json
  | .object _ => .object []
  | value => value

mutual
/-- Values in order are told by the outlines of what stands below them. -/
theorem eq_of_outline : (value other : Json) → value.Ordered → other.Ordered →
    (∀ names, (value.under? names).map outline = (other.under? names).map outline) → value = other
  | .object members, other => by
    intro ordered also same
    have top : outline (.object members) = other.outline := Option.some.inj (same [])
    cases other with
    | object others =>
      refine congrArg Json.object (ordered.1.ext also.1 fun key => ?_)
      cases found : Keyed.find? members key with
      | none =>
        have none : (Keyed.find? others key).map outline = none := by
          simpa [under?, member?, members?, found] using (same [key]).symm
        exact (Option.map_eq_none_iff.mp none).symm
      | some value =>
        have there : ∃ other, Keyed.find? others key = some other := by
          refine Option.ne_none_iff_exists'.mp fun missing => ?_
          simpa [under?, member?, members?, found, missing] using same [key]
        obtain ⟨other, there⟩ := there
        have below (names : List String) : (value.under? names).map outline = (other.under? names).map outline := by
          simpa [under?, member?, members?, found, there] using same (key :: names)
        have equal : value = other := eq_of_outline_of_mem members ordered.2 (Keyed.mem_of_find? found) other
          (Body.ordered_of_find? also there) below
        rw [there, equal]
    | _ => cases top
  | .null, other | .bool _, other | .number _, other | .text _, other | .array _, other => by
    intro _ _ same
    have top := Option.some.inj (same [])
    cases other with
    | object _ => cases top
    | _ => exact top
theorem eq_of_outline_of_mem : (members : List (String × Json)) → OrderedMembers members →
    ∀ {entry}, entry ∈ members → ∀ other : Json, other.Ordered →
      (∀ names, (entry.2.under? names).map outline = (other.under? names).map outline) → entry.2 = other
  | [] => by
    intro _ entry member
    cases member
  | (_, value) :: rest => by
    intro ordered entry member other also same
    rcases List.mem_cons.mp member with rfl | among
    · exact eq_of_outline value other ordered.1 also same
    · exact eq_of_outline_of_mem rest ordered.2 among other also same
end

end Json

namespace Body

/-- The outline of what stands at a place. -/
def outline? (body : Body) (place : List String) : Option Json := (body.at? place).map Json.outline

theorem eq_of_outline? {body other : Body} (ordered : (Json.object body).Ordered)
    (also : (Json.object other).Ordered) (same : ∀ place, body.outline? place = other.outline? place) :
    body = other := by
  refine Json.object.inj (Json.eq_of_outline _ _ ordered also fun names => ?_)
  cases names with
  | nil => rfl
  | cons name rest => simpa only [outline?, at?_eq_under? (List.cons_ne_nil name rest)] using same (name :: rest)

/-- Putting a value where one is changes the outline of no other place but those below it. -/
theorem outline?_put {body : Body} {held : Json} {path place : List String} (nonempty : path ≠ [])
    (there : body.at? path = some held) (value : Json) (outside : ¬ path <+: place) :
    (body.put value path).outline? place = body.outline? place := by
  by_cases above : place <+: path
  · obtain ⟨rest, rfl⟩ := above
    cases place with
    | nil => rfl
    | cons name names =>
      cases rest with
      | nil => exact absurd (by simp) outside
      | cons next more =>
        obtain ⟨members, found, _⟩ := object_of_at?_append (List.cons_ne_nil name names) there
        rw [outline?, outline?, at?_put_above _ _ (List.cons_ne_nil name names) (List.cons_ne_nil next more), found]
        rfl
  · rw [outline?, outline?, at?_put_of_apart _ _ ⟨outside, above⟩]

/-! ### Rewriting at references -/

/-- Some members, and what is left of them after the values at some references were looked at
one after the other: each is kept or replaced by another value, as a relation says for its
target. -/
inductive Rewrites (related : String → Option Json → Option Json → Prop) :
    List (String × String) → Body → Body → Prop where
  | done (body : Body) : Rewrites related [] body body
  | keep {path target : String} {rest : List (String × String)} {before after : Body}
      (kept : related target (before.get? path) (before.get? path)) (later : Rewrites related rest before after) :
      Rewrites related ((path, target) :: rest) before after
  | replace {path target : String} {rest : List (String × String)} {before after : Body} {held value : Json}
      (there : before.get? path = some held) (replaced : related target (some held) (some value))
      (later : Rewrites related rest (before.set path value) after) :
      Rewrites related ((path, target) :: rest) before after

namespace Rewrites
variable {related : String → Option Json → Option Json → Prop} {references : List (String × String)}
  {before after : Body}

theorem ordered (rewrites : Rewrites related references before after)
    (inOrder : ∀ {target held value}, held.Ordered → related target (some held) (some value) → value.Ordered)
    (ordered : (Json.object before).Ordered) : (Json.object after).Ordered := by
  induction rewrites with
  | done _ => exact ordered
  | keep _ _ ih => exact ih ordered
  | replace there replaced _ ih =>
    exact ih (ordered_put ordered (inOrder (ordered_at? ordered there) replaced) _)

/-- Nothing changes but at the references and below them. -/
theorem outline?_eq (rewrites : Rewrites related references before after) {place : List String}
    (outside : ∀ reference ∈ references, ¬ Text.segments reference.1 <+: place) :
    after.outline? place = before.outline? place := by
  induction rewrites with
  | done _ => rfl
  | keep _ _ ih => exact ih fun reference member => outside reference (List.mem_cons_of_mem _ member)
  | @replace path _ _ _ _ _ value there _ _ ih =>
    rw [ih fun reference member => outside reference (List.mem_cons_of_mem _ member)]
    exact outline?_put (Text.segments_ne_nil path) there value (outside _ List.mem_cons_self)

/-- What stands at a reference is related to what stood there before; at a path that is apart
from all references it is the same. -/
theorem get?_related (rewrites : Rewrites related references before after)
    (settles : ∀ {target first second third}, related target first second → related target second third →
      third = second) {path target : String}
    (alone : ∀ reference ∈ references, reference = (path, target) ∨
      Text.Apart (Text.segments reference.1) (Text.segments path)) :
    (path, target) ∉ references ∧ after.get? path = before.get? path ∨
      related target (before.get? path) (after.get? path) := by
  induction rewrites with
  | done _ => exact .inl ⟨by simp, rfl⟩
  | @keep name goal rest before after kept _ ih =>
    have later := ih fun reference member => alone reference (List.mem_cons_of_mem _ member)
    rcases alone _ List.mem_cons_self with same | apart
    · cases same
      rcases later with ⟨_, same⟩ | again
      · exact .inr (same ▸ kept)
      · exact .inr again
    · refine later.imp_left fun ⟨others, same⟩ => ⟨fun member => ?_, same⟩
      rcases List.mem_cons.mp member with here | among
      · cases here
        exact apart.1 List.prefix_rfl
      · exact others among
  | @replace name goal rest before after held value there replaced _ ih =>
    have later := ih fun reference member => alone reference (List.mem_cons_of_mem _ member)
    rcases alone _ List.mem_cons_self with same | apart
    · cases same
      have now : (before.set path value).get? path = some value := by
        simpa [get?, set, Json.under?] using at?_put before value (Text.segments_ne_nil path) []
      rw [there]
      rcases later with ⟨_, same⟩ | again
      · rw [same, now]
        exact .inr replaced
      · rw [now] at again
        rw [settles replaced again]
        exact .inr replaced
    · have kept : (before.set name value).get? path = before.get? path := at?_put_of_apart _ _ apart
      rw [kept] at later
      refine later.imp_left fun ⟨others, same⟩ => ⟨fun member => ?_, same⟩
      rcases List.mem_cons.mp member with here | among
      · cases here
        exact apart.1 List.prefix_rfl
      · exact others among

end Rewrites
end Body

/-! ### References of models -/

namespace Schema
variable {schema : Schema} {path target : String}

theorem typed_of_mem_references (listed : (path, target) ∈ schema.references) :
    FieldType.at? schema.fields (Text.segments path) = some (.reference target) := by
  obtain ⟨recorded, _, found⟩ := List.mem_filterMap.mp listed
  split at found
  · rename_i typed
    cases found
    exact typed
  · cases found

/-- No reference is above another one. -/
theorem apart_of_mem_references {reference : String × String} (listed : (path, target) ∈ schema.references)
    (also : reference ∈ schema.references) :
    reference = (path, target) ∨ Text.Apart (Text.segments reference.1) (Text.segments path) := by
  obtain ⟨other, goal⟩ := reference
  have here := typed_of_mem_references listed
  have there := typed_of_mem_references also
  have same_if_above {first second : String} {one two : String}
      (typed : FieldType.at? schema.fields (Text.segments first) = some (.reference one))
      (below : FieldType.at? schema.fields (Text.segments second) = some (.reference two))
      (above : Text.segments first <+: Text.segments second) : (first, one) = (second, two) := by
    obtain ⟨rest, same⟩ := above
    rw [← same, FieldType.at?_append (Text.segments_ne_nil first), typed, Option.bind_some] at below
    cases rest with
    | nil =>
      cases below
      rw [List.append_nil] at same
      rw [← Text.dotted_segments first, same, Text.dotted_segments]
    | cons _ _ => cases below
  by_cases above : Text.segments other <+: Text.segments path
  · exact .inl (same_if_above there here above)
  · by_cases below : Text.segments path <+: Text.segments other
    · exact .inl (same_if_above here there below).symm
    · exact .inr ⟨above, below⟩

end Schema

/-! ### What stands at references -/

/-- Null, or a text that is an id only in its canonical form. -/
inductive Json.IsReference : Json → Prop where
  | null : IsReference .null
  | text {raw : String} (canonical : ∀ id, EntityId.parse? raw = some id → raw = id.text) : IsReference (.text raw)

namespace Model
variable {model : Model}

def HoldsIds (model : Model) (members : Body) : Prop :=
  ∀ reference ∈ model.schema.references, ∀ value, members.get? reference.1 = some value → value.IsReference

theorem sanitize_eq (model : Model) (document : Document) : ∃ body,
    model.sanitize document = body.insert idKey (.text document.id.text) ∧
      (model.Shapes document.body → model.Shapes body) ∧
      ((Json.object document.body).Ordered → (Json.object body).Ordered) ∧
      ∀ path, model.schema.behaviors.password = some path → body.get? path = none := by
  unfold sanitize
  cases password : model.schema.behaviors.password with
  | none => exact ⟨_, rfl, id, id, by simp⟩
  | some path =>
    refine ⟨_, rfl, fun shapes => shapes.drop (Text.segments_ne_nil path), fun ordered =>
      Body.ordered_drop ordered _, fun other same => ?_⟩
    cases same
    have gone := Body.at?_drop document.body (Text.segments_ne_nil path) []
    rw [List.append_nil] at gone
    exact gone

theorem ordered_sanitize {document : Document} (ordered : (Json.object document.body).Ordered) :
    (Json.object (model.sanitize document)).Ordered := by
  obtain ⟨body, same, _, kept, _⟩ := model.sanitize_eq document
  rw [same]
  exact Body.ordered_insert (kept ordered) _ (Json.ordered_text _)

theorem find?_sanitize (model : Model) (document : Document) :
    (model.sanitize document).find? idKey = some (.text document.id.text) := by
  obtain ⟨body, same, _⟩ := model.sanitize_eq document
  rw [same, Keyed.find?_insert, if_pos rfl]

/-- A document of declared forms holds ids at its references, in canonical form. -/
theorem holdsIds_sanitize {document : Document} (shapes : model.Shapes document.body)
    (free : idKey ∉ model.schema.fields.keys) : model.HoldsIds (model.sanitize document) := by
  obtain ⟨body, same, kept, _, hidden⟩ := model.sanitize_eq document
  rintro ⟨path, target⟩ listed value held
  have typed := Schema.typed_of_mem_references listed
  obtain ⟨name, rest, segments⟩ := List.exists_cons_of_ne_nil (Text.segments_ne_nil path)
  have other : idKey ≠ name := fun same =>
    free (same ▸ FieldType.mem_keys_of_at? (segments ▸ typed))
  have inside : body.at? (Text.segments path) = some value := by
    rw [same, Body.get?, segments, Body.at?_cons, Keyed.find?_insert, if_neg other] at held
    rwa [segments, Body.at?_cons]
  cases (kept shapes).places typed inside with
  | fits fits =>
    cases fits with
    | null => exact .null
    | reference target id =>
      refine .text fun other read => ?_
      rw [EntityId.parse?_text] at read
      cases read
      rfl
  | stamp instant _ =>
    refine .text fun other read => ?_
    rw [EntityId.parse?_timestamp] at read
    cases read
  | password hash password there =>
    have none := hidden _ password
    rw [Body.get?, there, inside] at none
    cases none

end Model
end Dossier
