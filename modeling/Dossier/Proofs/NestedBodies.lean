import Dossier.Proofs.DurableTexts
import Dossier.Proofs.StoredForms

/-! How deeply values nest as they are cast, hashed and put at places of a body. -/
namespace Dossier
open Json

/-! ### Members -/

namespace Json
variable {value other : Json} {body others : Body} {names : List String} {key : String}

mutual
/-- Values that are the same nest alike. -/
theorem nesting_of_same : (value other : Json) → value.same other = true → value.nesting = other.nesting
  | .array items, other => by
    intro alike
    cases other with
    | array more => exact congrArg (· + 1) (nestingItems_of_same items more alike)
    | _ => cases alike
  | .object members, other => by
    intro alike
    cases other with
    | object more => exact congrArg (· + 1) (nestingMembers_of_same members more alike)
    | _ => cases alike
  | .null, other | .bool _, other | .number _, other | .text _, other => by
    intro alike
    cases other <;> first | rfl | cases alike
theorem nestingItems_of_same : (items others : List Json) → sameItems items others = true →
    nestingItems items = nestingItems others
  | [], [] => fun _ => rfl
  | [], _ :: _ | _ :: _, [] => by
    intro alike
    cases alike
  | item :: rest, other :: more => by
    intro alike
    obtain ⟨own, later⟩ := Bool.and_eq_true_iff.mp alike
    rw [nestingItems, nestingItems, nesting_of_same item other own, nestingItems_of_same rest more later]
theorem nestingMembers_of_same : (members others : List (String × Json)) → sameMembers members others = true →
    nestingMembers members = nestingMembers others
  | [], [] => fun _ => rfl
  | [], _ :: _ | _ :: _, [] => by
    intro alike
    cases alike
  | (key, value) :: rest, (name, other) :: more => by
    intro alike
    obtain ⟨first, later⟩ := Bool.and_eq_true_iff.mp alike
    obtain ⟨-, own⟩ := Bool.and_eq_true_iff.mp first
    rw [nestingMembers, nestingMembers, nesting_of_same value other own, nestingMembers_of_same rest more later]
end

theorem nesting_le_of_mem {entry : String × Json} (member : entry ∈ body) : entry.2.nesting ≤ nestingMembers body :=
  nestingMembers_le_iff.mp (Nat.le_refl _) entry member

theorem nesting_le_of_find? (found : body.find? key = some value) : value.nesting ≤ nestingMembers body :=
  nesting_le_of_mem (Keyed.mem_of_find? found)

theorem nestingMembers_insert_le (body : Body) (key : String) (value : Json) :
    nestingMembers (body.insert key value) ≤ max (nestingMembers body) value.nesting := by
  rw [nestingMembers_le_iff]
  intro entry member
  rcases Keyed.mem_insert member with rfl | among
  · exact Nat.le_max_right _ _
  · exact Nat.le_trans (nesting_le_of_mem among) (Nat.le_max_left _ _)

theorem nestingMembers_le_of_subset (subset : ∀ entry ∈ body, entry ∈ others) :
    nestingMembers body ≤ nestingMembers others :=
  nestingMembers_le_iff.mpr fun entry member => nesting_le_of_mem (subset entry member)

/-- The names on the way to a value count as levels. -/
theorem length_add_nesting_le (held : value.under? names = some other) :
    names.length + other.nesting ≤ value.nesting := by
  induction names generalizing value with
  | nil =>
    cases held
    exact Nat.le_of_eq (Nat.zero_add _)
  | cons name rest ih =>
    obtain ⟨inner, here, below⟩ := Option.bind_eq_some_iff.mp held
    cases value with
    | object members =>
      have deeper := ih below
      have within := nesting_le_of_find? here
      simp only [nesting, List.length_cons]
      omega
    | _ => cases here

theorem length_add_nesting_le_of_at? (nonempty : names ≠ []) (held : body.at? names = some value) :
    names.length + value.nesting ≤ nestingMembers body + 1 := by
  rw [Body.at?_eq_under? nonempty] at held
  exact length_add_nesting_le held

end Json

/-! ### Putting and dropping -/

namespace Body
variable {body : Body} {names : List String} {value : Json} {levels : Nat}

/-- What is entered under a key nests less than what stands there, if it has members at all. -/
theorem nestingMembers_entered_lt {key : String}
    (within : ∀ held, body.find? key = some held → held.nesting ≤ levels) :
    nestingMembers (entered (body.find? key)) = 0 ∨ nestingMembers (entered (body.find? key)) < levels := by
  cases found : body.find? key with
  | none => exact .inl rfl
  | some held =>
    cases held with
    | object members => exact .inr (within _ found)
    | _ => exact .inl rfl

/-- Putting nests no deeper than what was there, and the value below its names. -/
theorem nestingMembers_put_le (body : Body) (value : Json) (nonempty : names ≠ []) :
    nestingMembers (body.put value names) ≤ max (nestingMembers body) (names.length - 1 + value.nesting) := by
  induction names generalizing body with
  | nil => exact absurd rfl nonempty
  | cons name rest ih =>
    cases rest with
    | nil => simpa [put] using nestingMembers_insert_le body name value
    | cons next others =>
      have inner := ih (entered (body.find? name)) (by simp)
      have whole := nestingMembers_insert_le body name
        (.object (put (entered (body.find? name)) value (next :: others)))
      have before := nestingMembers_entered_lt fun held (found : body.find? name = some held) =>
        nesting_le_of_find? found
      change nestingMembers (body.insert name (.object (put (entered (body.find? name)) value (next :: others)))) ≤ _
      simp only [nesting, List.length_cons] at inner whole ⊢
      omega

/-- A text in the place of a text does not nest deeper. -/
theorem nestingMembers_put_text_le {text : String} (other : String) (nonempty : names ≠ [])
    (held : body.at? names = some (.text text)) :
    nestingMembers (body.put (.text other) names) ≤ nestingMembers body := by
  have put := nestingMembers_put_le body (.text other) nonempty
  have there := length_add_nesting_le_of_at? nonempty held
  simp only [nesting] at put there
  omega

theorem nestingMembers_drop_le (body : Body) (names : List String) :
    nestingMembers (body.drop names) ≤ nestingMembers body := by
  induction names generalizing body with
  | nil => exact Nat.le_refl _
  | cons name rest ih =>
    cases rest with
    | nil => exact nestingMembers_le_of_subset fun entry member => (List.mem_filter.mp member).1
    | cons next others =>
      simp only [drop_cons_cons]
      split
      · rename_i inner entered
        obtain ⟨held, found, members⟩ := Option.bind_eq_some_iff.mp entered
        have within := nesting_le_of_find? found
        have deeper := ih inner
        have whole := nestingMembers_insert_le body name (.object (drop inner (next :: others)))
        cases held with
        | object members' =>
          cases members
          simp only [nesting] at within whole
          omega
        | _ => cases members
      · exact Nat.le_refl _

end Body

/-! ### Casting -/

/-- What is given for a field of a type nests so many levels, and may become a value that nests
so many. Undeclared members are dropped, and what is no array is put into one. -/
inductive FieldType.Reaches : FieldType → (room depth : Nat) → Prop where
  | flat (type : FieldType) (room : Nat) : Reaches type room 0
  | array (room : Nat) : Reaches .array room (room + 1)
  | object (fields : Keyed FieldType) (room : Nat) : Reaches (.object fields) (room + 1) 1
  | inside {fields : Keyed FieldType} {name : String} {type : FieldType} {room depth : Nat}
      (declared : fields.find? name = some type) (deeper : Reaches type room depth) :
      Reaches (.object fields) (room + 1) (depth + 1)

namespace FieldType
variable {model path above : String} {type : FieldType} {fields : Keyed FieldType} {result : Json} {body : Body}
  {room : Nat}

/-- Only casting to an object may go into a value. -/
theorem reaches_of_castScalar {value : Json} (scalar : ∀ fields, type ≠ .object fields)
    (cast : castValue model path type value = .ok result) (shallow : value.nesting ≤ room) :
    ∃ depth, type.Reaches room depth ∧ result.nesting ≤ depth := by
  cases fits_of_castValue cast with
  | array items =>
    refine ⟨room + 1, .array room, ?_⟩
    cases value with
    | null => cases cast
    | array given =>
      cases cast
      exact Nat.le_succ_of_le shallow
    | _ =>
      cases cast
      exact Nat.succ_le_succ (Nat.max_le.mpr ⟨shallow, Nat.zero_le _⟩)
  | object _ => exact absurd rfl (scalar _)
  | _ => exact ⟨0, .flat _ room, Nat.le_refl _⟩

mutual
theorem reaches_of_castValue {model path : String} {type : FieldType} {result : Json} {room : Nat} :
    (value : Json) → castValue model path type value = .ok result → value.nesting ≤ room →
      ∃ depth, type.Reaches room depth ∧ result.nesting ≤ depth
  | .object members => by
    intro cast shallow
    cases type with
    | object fields =>
      obtain ⟨body, inside, finished⟩ := bind_eq_ok.mp cast
      cases finished
      obtain ⟨room, rfl⟩ := Nat.exists_eq_add_one.mpr (Nat.lt_of_lt_of_le (Nat.succ_pos _) shallow)
      rcases reaches_of_castMembers members inside (Nat.le_of_succ_le_succ shallow) with
        flat | ⟨name, type, depth, declared, deeper, within⟩
      · exact ⟨1, .object fields room, by simp [nesting, flat]⟩
      · exact ⟨depth + 1, .inside declared deeper, Nat.succ_le_succ within⟩
    | _ => exact reaches_of_castScalar (by simp) cast shallow
  | .null | .bool _ | .number _ | .text _ | .array _ => by
    intro cast shallow
    cases type with
    | object fields => cases cast <;> exact ⟨0, .flat _ room, Nat.le_refl _⟩
    | _ => exact reaches_of_castScalar (by simp) cast shallow
theorem reaches_of_castMembers {model above : String} {fields : Keyed FieldType} {body : Body} {room : Nat} :
    (members : List (String × Json)) → castMembers model above fields members = .ok body →
      nestingMembers members ≤ room → nestingMembers body = 0 ∨
        ∃ name type depth, fields.find? name = some type ∧ type.Reaches room depth ∧ nestingMembers body ≤ depth
  | [] => by
    intro cast _
    cases cast
    exact .inl rfl
  | (key, value) :: rest => by
    intro cast shallow
    obtain ⟨own, others⟩ := Nat.max_le.mp shallow
    rw [castMembers] at cast
    split at cast
    · rename_i type declared
      obtain ⟨result, first, more⟩ := bind_eq_ok.mp cast
      obtain ⟨body, later, finished⟩ := bind_eq_ok.mp more
      cases finished
      obtain ⟨depth, reaches, within⟩ := reaches_of_castValue value first own
      -- The deeper of the first member and the others decides.
      rcases reaches_of_castMembers rest later others with flat | ⟨name, other, deeper, known, also, below⟩
      · exact .inr ⟨key, type, depth, declared, reaches, by simp [nestingMembers, flat, within]⟩
      · rcases Nat.le_total depth deeper with less | less
        · exact .inr ⟨name, other, deeper, known, also, Nat.max_le.mpr ⟨Nat.le_trans within less, below⟩⟩
        · exact .inr ⟨key, type, depth, declared, reaches, Nat.max_le.mpr ⟨within, Nat.le_trans below less⟩⟩
    · exact reaches_of_castMembers rest cast others
end

/-- Casting adds one level at most. -/
theorem Reaches.le {depth : Nat} (reaches : type.Reaches room depth) : depth ≤ room + 1 := by
  induction reaches with
  | flat | array | object => omega
  | inside _ _ ih => exact Nat.succ_le_succ ih

end FieldType

/-! ### Hashing and stamping -/

namespace Model
variable {model : Model} {body : Body}

theorem nestingMembers_hashPassword_le (salt : ByteArray) (body : Body) :
    nestingMembers (model.hashPassword salt body) ≤ nestingMembers body := by
  unfold hashPassword
  split
  · exact Nat.le_refl _
  · split
    · rename_i held
      split
      · exact Nat.le_refl _
      · exact Body.nestingMembers_put_text_le _ (Text.segments_ne_nil _) held
    · exact Nat.le_refl _

theorem nestingMembers_stamp_le (now : Timestamp) (body : Body) :
    nestingMembers (model.stamp now body) ≤ nestingMembers body := by
  unfold stamp
  split
  · have first := nestingMembers_insert_le body createdKey (.text now.text)
    have second := nestingMembers_insert_le (body.insert createdKey (.text now.text)) updatedKey (.text now.text)
    simp only [nesting] at first second
    omega
  · exact Nat.le_refl _

/-- A new document nests at most one level deeper than its payload. -/
theorem nesting_of_prepareInsert {supply : Supply} {index : Nat} {payload : Json} {document : Document}
    (prepared : model.prepareInsert supply index payload = .ok document) :
    nestingMembers document.body ≤ payload.nesting := by
  cases payload with
  | object members =>
    obtain ⟨id, _, rest⟩ := bind_eq_ok.mp prepared
    obtain ⟨body, cast, finished⟩ := bind_eq_ok.mp rest
    cases finished
    have erased := nestingMembers_le_of_subset (fun entry member => (List.mem_filter.mp member).1 :
      ∀ entry ∈ (Document.make id (model.stamp supply.now (model.hashPassword (supply.salt index) body))).body, _)
    have stamped := model.nestingMembers_stamp_le supply.now (model.hashPassword (supply.salt index) body)
    have hashed := model.nestingMembers_hashPassword_le (supply.salt index) body
    have within : nestingMembers body ≤ nestingMembers members + 1 := by
      rcases FieldType.reaches_of_castMembers members cast (Nat.le_refl _) with flat | ⟨_, _, depth, _, reaches, le⟩
      · omega
      · exact Nat.le_trans le reaches.le
    simp only [nesting]
    omega
  | _ => cases prepared

/-- What a set settles to nests no deeper than what its value is cast to. -/
theorem reaches_of_settled {salt : ByteArray} {path : String} {type : FieldType} {given value : Json} {room : Nat}
    (settled : model.settled salt path type given = .ok value) (shallow : given.nesting ≤ room) :
    ∃ depth, type.Reaches room depth ∧ value.nesting ≤ depth := by
  obtain ⟨cast, own, finished⟩ := bind_eq_ok.mp settled
  cases finished
  rw [Body.extract_fst]
  obtain ⟨depth, reaches, within⟩ := FieldType.reaches_of_castValue given own shallow
  refine ⟨depth, reaches, ?_⟩
  have nonempty := Text.segments_ne_nil path
  cases there : (model.hashPassword salt (Body.set [] path cast)).get? path with
  | none => exact Nat.zero_le _
  | some result =>
    have put := Body.nestingMembers_put_le [] cast nonempty
    have hashed := model.nestingMembers_hashPassword_le salt (Body.set [] path cast)
    have held := length_add_nesting_le_of_at? nonempty there
    have long : 0 < (Text.segments path).length := List.length_pos_iff.mpr nonempty
    have nothing : nestingMembers [] = 0 := rfl
    simp only [Option.getD_some]
    rw [Body.set] at hashed held
    omega

end Model

/-! ### Updates -/

/-- How many levels a value may nest that an update puts at a path, if the update may nest so
many. Below a key that begins like an operator nothing is put but by one. -/
def Update.room (levels : Nat) (path : String) : Nat :=
  if path.toList.head? = some '$' then levels - 2 else levels - 1

namespace Model
variable {model : Model} {levels : Nat}

theorem nesting_of_requested {key : String} {value : Json} {parts : List (String × Json) × List String}
    (done : model.requested key value = .ok parts) (shallow : value.nesting + 1 ≤ levels) :
    ∀ entry ∈ parts.1, entry.2.nesting ≤ Update.room levels entry.1 := by
  have inside {path : String} {given : Json} (deeper : given.nesting + 2 ≤ levels) :
      given.nesting ≤ Update.room levels path := by
    unfold Update.room
    split <;> omega
  simp only [requested] at done
  repeat' split at done
  all_goals cases done
  · rename_i members
    intro entry member
    have within : entry.2.nesting ≤ nestingMembers members := nesting_le_of_mem member
    simp only [nesting] at shallow
    exact inside (by omega)
  · simp
  · simp
  · rename_i plain
    simp only [List.mem_singleton, forall_eq]
    rw [Update.room, if_neg plain]
    omega

/-- What an update puts at a path nests as deep as the room and the type there allow. -/
theorem reaches_of_parseUpdate {salt : Nat → ByteArray} {payload : Json} {update : Update}
    (parsed : model.parseUpdate salt payload = .ok update) (shallow : payload.nesting ≤ levels)
    {path : String} {value : Json} (member : (path, value) ∈ update.sets) :
    ∃ type depth, model.writableType? path = some type ∧ type.Reaches (Update.room levels path) depth ∧
      value.nesting ≤ depth := by
  cases payload with
  | object members =>
    obtain ⟨parts, asked, rest⟩ := bind_eq_ok.mp parsed
    obtain ⟨sets, settled, finished⟩ := bind_eq_ok.mp rest
    cases finished
    obtain ⟨type, given, index, listed, writable, own⟩ := settled_of_settleAll settled member
    obtain ⟨part, among, inside⟩ := List.mem_flatMap.mp listed
    obtain ⟨⟨key, payload⟩, held, done⟩ := exists_of_mapM asked among
    have within : payload.nesting + 1 ≤ levels :=
      Nat.le_trans (Nat.succ_le_succ (nesting_le_of_mem held)) shallow
    obtain ⟨depth, reaches, le⟩ := reaches_of_settled own (nesting_of_requested done within _ inside)
    exact ⟨type, depth, writable, reaches, le⟩
  | _ => cases parsed

end Model

/-- All members but the one under a key nest at most so many levels. -/
def Body.NestsBut (key : String) (levels : Nat) (body : Body) : Prop :=
  ∀ entry ∈ body, entry.1 ≠ key → entry.2.nesting ≤ levels

namespace Body
variable {body : Body} {names : List String} {value : Json} {key : String} {levels : Nat}

theorem NestsBut.insert (within : body.NestsBut key levels) (name : String)
    (shallow : name ≠ key → value.nesting ≤ levels) : NestsBut key levels (body.insert name value) := by
  intro entry member other
  rcases Keyed.mem_insert member with rfl | among
  · exact shallow other
  · exact within entry among other

theorem NestsBut.put (within : body.NestsBut key levels) (nonempty : names ≠ [])
    (shallow : names.head? ≠ some key → names.length + value.nesting ≤ levels + 1) :
    NestsBut key levels (body.put value names) := by
  obtain ⟨name, rest, rfl⟩ := List.exists_cons_of_ne_nil nonempty
  have fits (other : name ≠ key) : rest.length + value.nesting ≤ levels := by
    have whole := shallow (by simpa using other)
    rw [List.length_cons] at whole
    omega
  cases rest with
  | nil => exact within.insert name (by simpa using fits)
  | cons next others =>
    refine within.insert name fun other => ?_
    change (Json.object (Body.put (entered (body.find? name)) value (next :: others))).nesting ≤ levels
    have inner := nestingMembers_put_le (entered (body.find? name)) value (List.cons_ne_nil next others)
    have before := nestingMembers_entered_lt fun held (found : body.find? name = some held) =>
      within _ (Keyed.mem_of_find? found) other
    have shallow := fits other
    simp only [nesting, List.length_cons] at inner shallow ⊢
    omega

theorem NestsBut.drop (within : body.NestsBut key levels) (names : List String) :
    NestsBut key levels (body.drop names) := by
  cases names with
  | nil => exact within
  | cons name rest =>
    cases rest with
    | nil => exact fun entry member => within entry (List.mem_filter.mp member).1
    | cons next others =>
      simp only [Body.drop_cons_cons]
      split
      · rename_i inner entered
        obtain ⟨held, found, members⟩ := Option.bind_eq_some_iff.mp entered
        refine within.insert name fun other => ?_
        have deep := within _ (Keyed.mem_of_find? found) other
        have less := nestingMembers_drop_le inner (next :: others)
        cases held with
        | object members' =>
          cases members
          exact Nat.le_trans (Nat.succ_le_succ less) deep
        | _ => cases members
      · exact within

end Body
end Dossier
