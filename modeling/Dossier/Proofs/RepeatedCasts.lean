import Dossier.Proofs.ChronologicalDates
import Dossier.Proofs.Conformance
import Dossier.Proofs.EntityRequests
import Dossier.Proofs.FaithfulPopulation

/-! Casts of what was stored. A stored value is cast to itself if the years of its dates can be
named, and a populated document is cast to the id that it stands for. So an update with the
members of a tree settles to the same values as one with the members of the document, folded
back. -/
namespace Dossier

/-! ### Entries that give way to others -/

namespace Keyed
variable {α : Type} {entries : Keyed α} {key : String} {held : α}

/-- Under a key that is there putting changes one entry. -/
theorem Ordered.exists_insert (ordered : entries.Ordered) (found : entries.find? key = some held) :
    ∃ before after, entries = before ++ (key, held) :: after ∧
      ∀ value, entries.insert key value = before ++ (key, value) :: after := by
  induction entries with
  | nil => cases found
  | cons first rest ih =>
    obtain ⟨name, own⟩ := first
    by_cases same : name = key
    · subst same
      obtain rfl : own = held := by simpa [find?] using found
      exact ⟨[], rest, rfl, fun value => by simp [Keyed.insert]⟩
    · have later : find? rest key = some held := by simpa [find?, same] using found
      obtain ⟨first, others⟩ := List.pairwise_cons.mp ordered
      have apart : ¬ key < name := String.lt_asymm (first _ (mem_of_find? later))
      obtain ⟨before, after, split, put⟩ := ih others later
      exact ⟨(name, own) :: before, after, by rw [split]; rfl,
        fun value => by simp [Keyed.insert, apart, same, put]⟩

end Keyed

namespace Body
variable {body : Body} {name : String} {held : Json}

/-- Putting a value at a place rewrites the entry on top of it. -/
theorem put_cons (found : body.find? name = some held) (value : Json) (rest : List String) :
    body.put value (name :: rest) = body.insert name (held.putAt rest value) := by
  cases rest with
  | nil => rfl
  | cons next others => simp only [put, found, Json.putAt, entered]

/-- Taking away what is not there changes nothing. -/
theorem drop_missing {names : List String} (ordered : (Json.object body).Ordered)
    (missing : body.at? names = none) : body.drop names = body := by
  induction names generalizing body with
  | nil => rfl
  | cons name rest ih =>
    refine (ordered_drop ordered _).1.ext ordered.1 fun other => ?_
    rw [find?_drop_cons]
    split
    · rename_i same
      subst same
      cases found : body.find? name with
      | none => rfl
      | some value =>
        rw [at?_cons, found, Option.bind_some] at missing
        cases rest with
        | nil => cases missing
        | cons next others =>
          cases value with
          | object inner =>
            rw [← at?_eq_under? (by simp)] at missing
            have kept := ih (ordered_of_find? ordered found) missing
            simp only [Option.bind_some, without, Json.members?, kept]
          | _ => rfl
    · rfl

end Body

/-! ### Values that are cast alike -/

namespace FieldType

/-- Two values that stand for the same value of a type. -/
def CastAlike (type : FieldType) (value other : Json) : Prop :=
  ∀ model path, castValue model path type value = castValue model path type other

theorem at?_cons (fields : Keyed FieldType) (name : String) (rest : List String) :
    at? fields (name :: rest) = (fields.find? name).bind (·.below? rest) :=
  at?_append (List.cons_ne_nil name []) rest

/-- A populated document stands for its id. -/
theorem castAlike_folded {value id : Json} (folds : foldedId value = some id) (target : String) :
    (reference target).CastAlike value id := by
  unfold foldedId at folds
  split at folds
  · rename_i inner
    split at folds
    · rename_i raw named
      cases folds
      intro model path
      simp [castValue, Cast.reference, named, Json.text?]
    · cases folds
  · cases folds

theorem castMembers_insert {members : Body} (ordered : members.Ordered) {key : String} {held value : Json}
    (found : members.find? key = some held) {fields : Keyed FieldType}
    (alike : ∀ type, fields.find? key = some type → type.CastAlike value held) (model above : String) :
    castMembers model above fields (members.insert key value) = castMembers model above fields members := by
  obtain ⟨before, after, split, put⟩ := ordered.exists_insert found
  rw [put, split]
  clear ordered found split put
  induction before with
  | nil =>
    simp only [List.nil_append, castMembers]
    cases declared : fields.find? key with
    | none => rfl
    | some type =>
      dsimp only
      rw [alike type declared]
  | cons first rest ih =>
    simp only [List.cons_append, castMembers, ih]

/-- Values are cast alike that differ at one place only, where they are cast alike. -/
theorem castAlike_putAt {type inner : FieldType} {held part value : Json} {names : List String}
    (ordered : held.Ordered) (typed : type.below? names = some inner) (there : held.under? names = some part)
    (alike : inner.CastAlike value part) : type.CastAlike (held.putAt names value) held := by
  induction names generalizing type held with
  | nil =>
    cases typed
    cases there
    exact alike
  | cons name rest ih =>
    cases type with
    | object fields =>
      cases held with
      | object members =>
        obtain ⟨next, found, below⟩ := Option.bind_eq_some_iff.mp there
        have found : Keyed.find? members name = some next := found
        intro model path
        change castValue model path (.object fields) (.object (Body.put members value (name :: rest))) = _
        rw [Body.put_cons found, castValue, castValue, castMembers_insert ordered.1 found fun deeper declared => ?_]
        rw [below?, at?_cons, declared, Option.bind_some] at typed
        exact ih (Body.ordered_of_find? ordered found) typed below
      | _ => cases there
    | _ => cases typed

/-! ### Values that are cast to themselves -/

theorem castMembers_self {fields : Keyed FieldType} {members : List (String × Json)} {model : String}
    (each : ∀ key value, (key, value) ∈ members →
      ∃ type, fields.find? key = some type ∧ ∀ path, castValue model path type value = .ok value)
    (above : String) : castMembers model above fields members = .ok members := by
  induction members with
  | nil => rfl
  | cons first rest ih =>
    obtain ⟨key, value⟩ := first
    obtain ⟨type, declared, kept⟩ := each key value List.mem_cons_self
    rw [castMembers, declared]
    exact bind_eq_ok.mpr ⟨value, kept _,
      bind_eq_ok.mpr ⟨rest, ih fun key value member => each key value (List.mem_cons_of_mem _ member), rfl⟩⟩

/-- The years of all dates in a value can be named. -/
def NamesDates (type : FieldType) (value : Json) : Prop :=
  ∀ names (instant : Timestamp), type.below? names = some .date →
    value.under? names = some (.text instant.text) → instant.IsNameable

/-- A value that conforms to its type is kept. -/
theorem castValue_of_conforms {type : FieldType} {value : Json} (conforms : type.Conforms value)
    (ordered : value.Ordered) (dates : type.NamesDates value) (model path : String) :
    castValue model path type value = .ok value := by
  induction conforms generalizing path with
  | flat fits flat =>
    cases fits with
    | null => simp only [castValue]
    | date instant => exact castValue_text (dates [] instant rfl rfl) model path
    | reference target id =>
      simp only [castValue, Cast.reference, pure_bind, EntityId.parse?_text]
      rfl
    | object _ => cases flat
    | _ => rfl
  | @object fields members declared _ ih =>
    rw [castValue]
    refine bind_eq_ok.mpr ⟨members, castMembers_self (fun key value member => ?_) _, rfl⟩
    obtain ⟨type, typed⟩ := Keyed.exists_of_mem_keys (declared key (List.mem_map_of_mem member))
    have found : Keyed.find? members key = some value := ordered.1.find?_eq_some.mpr member
    refine ⟨type, typed, ih key type value member typed (Body.ordered_of_find? ordered found) ?_⟩
    intro names instant below held
    refine dates (key :: names) instant ?_ ?_
    · rw [below?, at?_cons, typed, Option.bind_some, below]
    · simpa [Json.under?, Json.member?, Json.members?, found] using held

/-- A date that is cast can be named. -/
theorem namesDates_of_castValue {type : FieldType} {value result : Json} {model : String} {place : List String}
    (nonempty : place ≠ []) (cast : castValue model (Text.dotted place) type value = .ok result) :
    type.NamesDates value := by
  intro names instant typed held
  have inside := under?_of_castValue nonempty cast typed
  rw [held] at inside
  obtain ⟨_, own, _⟩ := inside
  refine Decidable.byContradiction fun other => ?_
  cases (castValue_text_refused other _ _).symm.trans own

end FieldType

/-! ### Updates -/

namespace Model
variable {model : Model} {members : Body}

theorem settled_alike {type : FieldType} {value other : Json} (alike : type.CastAlike value other)
    (salt : ByteArray) (path : String) : model.settled salt path type value = model.settled salt path type other := by
  rw [settled, settled, alike]

theorem settleAll_insert (ordered : members.Ordered) {key : String} {held value : Json}
    (found : members.find? key = some held)
    (alike : ∀ type, model.writableType? key = some type → type.CastAlike value held) (salt : Nat → ByteArray)
    (index : Nat) : model.settleAll salt index (members.insert key value) = model.settleAll salt index members := by
  obtain ⟨before, after, split, put⟩ := ordered.exists_insert found
  rw [put, split]
  clear ordered found split put
  induction before generalizing index with
  | nil =>
    simp only [List.nil_append, settleAll]
    cases writable : model.writableType? key with
    | none => rfl
    | some type => simp only [settled_alike (alike type writable)]
  | cons first rest ih =>
    simp only [List.cons_append, settleAll, ih]

theorem mem_keys_folded {key : String} (member : key ∈ members.keys) : key ∈ (model.folded members).keys := by
  unfold folded Body.rewriteAt
  refine List.foldlRecOn (motive := fun body : Body => key ∈ body.keys) _ _ member ?_
  intro body among reference _
  dsimp only
  split
  · obtain ⟨name, rest, segments⟩ := List.exists_cons_of_ne_nil (Text.segments_ne_nil reference.1)
    rw [Body.set, segments]
    cases rest <;> exact Keyed.mem_keys_insert.mpr (.inr among)
  · exact among

/-- Documents that are folded to their ids settle to the same. -/
theorem settleAll_folded (ordered : (Json.object members).Ordered) (salt : Nat → ByteArray) (index : Nat) :
    model.settleAll salt index (model.folded members) = model.settleAll salt index members := by
  suffices every : (Json.object (model.folded members)).Ordered ∧
      model.settleAll salt index (model.folded members) = model.settleAll salt index members from every.2
  unfold folded Body.rewriteAt
  refine List.foldlRecOn (motive := fun body : Body => (Json.object body).Ordered ∧
    model.settleAll salt index body = model.settleAll salt index members) _ _ ⟨ordered, rfl⟩ ?_
  rintro body ⟨inOrder, same⟩ ⟨path, target⟩ listed
  dsimp only
  split
  · rename_i value replaced
    obtain ⟨held, there, folds⟩ := Option.bind_eq_some_iff.mp replaced
    obtain ⟨id, rfl⟩ := foldedId_eq_some folds
    refine ⟨Body.ordered_put inOrder (Json.ordered_text id) _, Eq.trans ?_ same⟩
    have typed := Schema.typed_of_mem_references listed
    have undotted : ∀ name ∈ Text.segments path, Text.Undotted name :=
      fun name => Text.undotted_of_mem_segments
    rw [Body.get?] at there
    rw [Body.set]
    obtain ⟨name, rest, segments⟩ := List.exists_cons_of_ne_nil (Text.segments_ne_nil path)
    rw [segments] at typed there undotted ⊢
    rw [Body.at?_cons] at there
    obtain ⟨top, found, below⟩ := Option.bind_eq_some_iff.mp there
    rw [Body.put_cons found]
    refine settleAll_insert inOrder.1 found (fun type writable => ?_) salt index
    have declared := typed_of_writable writable
    rw [Text.segments_of_undotted (undotted name List.mem_cons_self)] at declared
    have declared : model.schema.fields.find? name = some type := declared
    rw [FieldType.at?_cons, declared, Option.bind_some] at typed
    refine FieldType.castAlike_putAt (Body.ordered_of_find? inOrder found) typed below ?_
    intro model path
    exact (FieldType.castAlike_folded folds target model path).symm
  · exact ⟨inOrder, same⟩

/-- A value that is cast to itself, with no password in it, is put as it is. -/
theorem settled_self {path : String} {type : FieldType} {value : Json}
    (kept : castValue model.name path type value = .ok value)
    (hidden : ∀ password, model.schema.behaviors.password = some password →
      (Body.set [] path value).get? password = none) (salt : ByteArray) :
    model.settled salt path type value = .ok value := by
  have unhashed : model.hashPassword salt (Body.set [] path value) = Body.set [] path value := by
    unfold hashPassword
    split
    · rfl
    · rename_i password own
      rw [hidden password own]
  exact settled_of_unhashed kept unhashed

/-- Members that settle to themselves are put as they are, as far as they may be written. -/
theorem settleAll_self {salt : Nat → ByteArray} {members : List (String × Json)}
    (each : ∀ entry ∈ members, ∀ type, model.writableType? entry.1 = some type → ∀ index,
      model.settled (salt index) entry.1 type entry.2 = .ok entry.2) (index : Nat) :
    model.settleAll salt index members = .ok (members.filter fun entry => (model.writableType? entry.1).isSome) := by
  induction members generalizing index with
  | nil => rfl
  | cons first rest ih =>
    obtain ⟨path, value⟩ := first
    have later := ih (fun entry member => each entry (List.mem_cons_of_mem _ member)) (index + 1)
    rw [settleAll]
    cases writable : model.writableType? path with
    | none => simpa [writable] using later
    | some type =>
      rw [List.filter_cons_of_pos (by simp [writable])]
      exact bind_eq_ok.mpr ⟨value, each _ List.mem_cons_self type writable index,
        bind_eq_ok.mpr ⟨_, later, rfl⟩⟩

end Model

/-- Sets that put what is there change nothing. -/
theorem Update.apply_self {sets : List (String × Json)} {body : Body} (ordered : body.Ordered)
    (there : ∀ entry ∈ sets, Text.Undotted entry.1 ∧ body.find? entry.1 = some entry.2) :
    Update.apply ⟨sets, []⟩ body = body := by
  refine List.foldlRecOn (motive := (· = body)) sets _ rfl fun held same entry member => ?_
  obtain ⟨undotted, found⟩ := there entry member
  subst same
  change held.put entry.2 (Text.segments entry.1) = held
  rw [Text.segments_of_undotted undotted]
  exact ordered.insert_held found

end Dossier
