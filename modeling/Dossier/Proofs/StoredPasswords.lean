import Dossier.Proofs.Writes

/-! Passwords at rest: in every store that requests reach, what is stored of a password is
what the last write that covers it left there, and a text only by its hash. -/
namespace Dossier

/-! ### One write -/

theorem Hasher.Settles.of_cast {hasher : Hasher} {model path : String} {value result : Json}
    (cast : castValue model path .text value = .ok result) (salt : ByteArray) :
    hasher.Settles (some result) (some (result.hashedAt (hasher.hash salt) [])) := by
  have settled (plain : String) :
      hasher.Settles (some (.text plain)) (some ((Json.text plain).hashedAt (hasher.hash salt) [])) := by
    by_cases empty : plain = ""
    · subst empty
      exact .empty
    · rw [Json.hashedAt_text _ empty]
      exact .hashed salt plain empty
  cases value with
  | null =>
    cases cast
    exact .null
  | bool _ | number _ | text _ =>
    cases cast
    exact settled _
  | _ => cases cast

theorem Write.isPrefixOf_eq_false {names place : List String} (outside : ¬ names <+: place) :
    names.isPrefixOf place = false :=
  Bool.eq_false_iff.mpr fun covers => outside (List.isPrefixOf_iff_prefix.mp covers)

theorem Write.last?_concat (place : List String) (past : List Write) (write : Write) :
    last? place (past ++ [write]) = if write.covers place then some write else last? place past := by
  by_cases covers : write.covers place <;> simp [last?, List.filter_append, covers]

namespace Model
variable {model : Model} {place : List String} {past : List Write} {stored : Option Json}

theorem Determines.congr {other : Option Json} (determines : model.Determines place past stored)
    (alike : Json.AlikeText stored other) : model.Determines place past other := by
  obtain ⟨write, left, last, cast, settles⟩ := determines
  exact ⟨write, left, last, cast, settles.congr alike⟩

/-- A write that covers the place determines what is there from now on. -/
theorem determines_concat {write : Write} (covers : write.covers place = true) {left : Option Json}
    (cast : write.castAt model place = .ok left) (settles : model.hasher.Settles left stored) :
    model.Determines place (past ++ [write]) stored :=
  ⟨write, left, by rw [Write.last?_concat, if_pos covers], cast, settles⟩

theorem Determines.concat {write : Write} (determines : model.Determines place past stored)
    (covers : write.covers place = false) : model.Determines place (past ++ [write]) stored := by
  obtain ⟨last, left, found, cast, settles⟩ := determines
  exact ⟨last, left, by simpa [Write.last?_concat, covers] using found, cast, settles⟩

namespace HasPassword
variable (has : model.HasPassword place)

include has

theorem ne_nil : place ≠ [] := has.segments ▸ Text.segments_ne_nil _

/-- Every path to the password or to what is around it can be written. -/
theorem writable_of_covers {path : String} (covers : Text.segments path <+: place) :
    ∃ type, model.writableType? path = some type ∧ ∃ rest, place = Text.segments path ++ rest ∧
      type.below? rest = some .text := by
  obtain ⟨rest, rfl⟩ := covers
  have typed := has.typed
  rw [FieldType.at?_append (Text.segments_ne_nil path)] at typed
  obtain ⟨type, found, below⟩ := Option.bind_eq_some_iff.mp typed
  refine ⟨type, ?_, rest, rfl, below⟩
  have free : path ∉ reservedNames := by
    intro reserved
    have single : Text.segments path = [path] :=
      Text.segments_of_undotted (undotted_of_mem_reservedNames reserved)
    exact has.free path (by simp [single]) reserved
  simp only [reservedNames, List.mem_cons, List.not_mem_nil, or_false] at free
  rw [writableType?, if_neg free]
  exact found

/-- A path that can be written and does not cover the password stands apart from it. -/
theorem apart_of_writable {path : String} {type : FieldType}
    (writable : model.writableType? path = some type) (outside : ¬ Text.segments path <+: place) :
    Text.Apart (Text.segments path) place := by
  refine ⟨outside, fun above => ?_⟩
  obtain ⟨rest, same⟩ := above
  have typed : FieldType.at? model.schema.fields (Text.segments path) = some type := by
    simp only [writableType?] at writable
    split at writable
    · cases writable
    · exact writable
  rw [← same, FieldType.at?_append has.ne_nil, has.typed, Option.bind_some] at typed
  cases rest with
  | nil => exact outside (same ▸ by simp)
  | cons _ _ => cases typed

theorem determines_insert {supply : Supply} {index : Nat} {payload : Json} {document : Document}
    (prepared : model.prepareInsert supply index payload = .ok document) :
    model.Determines place (past ++ [.insert payload]) (document.body.at? place) := by
  obtain ⟨members, body, rfl, cast, kept⟩ := model.parts_of_prepareInsert prepared
  have whole : Text.segments (Text.dotted place) = place ++ [] := by simp [has.segments]
  have hashed := model.at?_hashPassword has.path whole has.ne_nil
    (supply.salt index) body
  rw [kept has.free, hashed]
  cases given : (Json.object members).under? place with
  | none =>
    rw [at?_none_of_castMembers cast has.typed given]
    exact determines_concat rfl (by simp [Write.castAt, Write.given?, given]) .absent
  | some value =>
    obtain ⟨result, own, there⟩ := at?_of_castMembers cast has.typed given
    rw [there]
    have castAt : (Write.insert (.object members)).castAt model place = .ok (some result) := by
      simpa [Write.castAt, Write.given?, given, Except.map] using congrArg (Except.map some) own
    exact determines_concat rfl castAt (.of_cast own _)

/-- What a set of a path to the password settles to holds the password hashed. -/
theorem settled_eq {salt : ByteArray} {path : String} {type : FieldType} {value result : Json}
    (settled : model.settled salt path type value = .ok result) {rest : List String}
    (onTheWay : place = Text.segments path ++ rest) : ∃ cast,
      castValue model.name path type value = .ok cast ∧ result = cast.hashedAt (model.hasher.hash salt) rest := by
  rw [model.settled_eq_map has.path (has.segments.trans onTheWay)] at settled
  cases own : castValue model.name path type value with
  | error fault =>
    rw [own] at settled
    cases settled
  | ok cast =>
    rw [own] at settled
    cases settled
    exact ⟨cast, rfl, rfl⟩

theorem determines_set {salt : ByteArray} {path : String} {type : FieldType} {value result : Json}
    {body : Body} (writable : model.writableType? path = some type)
    (settled : model.settled salt path type value = .ok result)
    (before : model.Determines place past (body.at? place)) :
    model.Determines place (past ++ [.set path value]) ((body.set path result).at? place) := by
  by_cases covers : Text.segments path <+: place
  · obtain ⟨_, same, rest, onTheWay, below⟩ := has.writable_of_covers covers
    obtain rfl := Option.some.inj (writable.symm.trans same)
    obtain ⟨cast, own, rfl⟩ := has.settled_eq settled onTheWay
    have written : (body.set path (cast.hashedAt (model.hasher.hash salt) rest)).at? place =
        (cast.under? rest).map (·.hashedAt (model.hasher.hash salt) []) := by
      rw [onTheWay, Body.set, Body.at?_put _ _ (Text.segments_ne_nil path), Json.under?_hashedAt]
    have hits : (Write.set path value).covers place = true := List.isPrefixOf_iff_prefix.mpr covers
    have given : (Write.set path value).given? place = value.under? rest := by
      simp [Write.given?, onTheWay]
    rw [← Text.dotted_segments path] at own
    have inside := under?_of_castValue (Text.segments_ne_nil path) own below
    rw [written]
    cases missing : value.under? rest with
    | none =>
      rw [missing] at inside
      rw [inside]
      exact determines_concat hits (by simp [Write.castAt, given, missing]) .absent
    | some held =>
      rw [missing] at inside
      obtain ⟨inner, done, there⟩ := inside
      rw [there]
      rw [← onTheWay] at done
      have castAt : (Write.set path value).castAt model place = .ok (some inner) := by
        simpa [Write.castAt, given, missing, Except.map] using congrArg (Except.map some) done
      exact determines_concat hits castAt (.of_cast done _)
  · have apart := has.apart_of_writable writable covers
    rw [Body.set, Body.at?_put_of_apart _ _ apart]
    exact before.concat (Write.isPrefixOf_eq_false covers)

/-- The sets of an update, the ones of undeclared paths passed over. -/
theorem determines_sets {salt : Nat → ByteArray} {index : Nat} {sets settled : List (String × Json)}
    (done : model.settleAll salt index sets = .ok settled) {body : Body}
    (before : model.Determines place past (body.at? place)) :
    model.Determines place (past ++ sets.map fun (path, value) => .set path value)
      ((settled.foldl (fun body (path, value) => body.set path value) body).at? place) := by
  induction sets generalizing index settled past body with
  | nil =>
    cases done
    simpa using before
  | cons first rest ih =>
    obtain ⟨path, value⟩ := first
    rw [settleAll] at done
    rw [List.map_cons, ← List.singleton_append, ← List.append_assoc]
    split at done
    · rename_i undeclared
      refine ih done (before.concat ?_)
      refine Bool.eq_false_iff.mpr fun covers => ?_
      obtain ⟨_, writable, _⟩ := has.writable_of_covers (List.isPrefixOf_iff_prefix.mp covers)
      rw [undeclared] at writable
      cases writable
    · rename_i type writable
      obtain ⟨result, own, others⟩ := bind_eq_ok.mp done
      obtain ⟨more, later, finished⟩ := bind_eq_ok.mp others
      cases finished
      exact ih later (has.determines_set writable own before)

theorem determines_unsets {paths : List String} {body : Body}
    (before : model.Determines place past (body.at? place)) :
    model.Determines place (past ++ paths.map .unset)
      (((paths.filter fun path => (model.writableType? path).isSome).foldl Body.remove body).at? place) := by
  induction paths generalizing past body with
  | nil => simpa using before
  | cons path rest ih =>
    rw [List.map_cons, ← List.singleton_append, ← List.append_assoc]
    by_cases covers : Text.segments path <+: place
    · obtain ⟨type, writable, below, onTheWay, _⟩ := has.writable_of_covers covers
      rw [List.filter_cons_of_pos (by simp [writable]), List.foldl_cons]
      refine ih ?_
      have gone : (body.remove path).at? place = none := by
        rw [onTheWay, Body.remove, Body.at?_drop _ (Text.segments_ne_nil path)]
      rw [gone]
      exact determines_concat (List.isPrefixOf_iff_prefix.mpr covers) rfl .absent
    · have outside : (Write.unset path).covers place = false := Write.isPrefixOf_eq_false covers
      cases writable : model.writableType? path with
      | none =>
        rw [List.filter_cons_of_neg (by simp [writable])]
        exact ih (before.concat outside)
      | some type =>
        rw [List.filter_cons_of_pos (by simp [writable]), List.foldl_cons]
        refine ih ?_
        rw [Body.remove, Body.at?_drop_of_apart _ (has.apart_of_writable writable covers)]
        exact before.concat outside

theorem determines_update {salt : Nat → ByteArray} {payload : Json} {update : Update}
    (parsed : model.parseUpdate salt payload = .ok update) {body : Body}
    (before : model.Determines place past (body.at? place)) :
    model.Determines place (past ++ model.writes payload) ((update.apply body).at? place) := by
  cases payload with
  | object members =>
    obtain ⟨parts, asked, rest⟩ := bind_eq_ok.mp parsed
    obtain ⟨sets, settled, finished⟩ := bind_eq_ok.mp rest
    cases finished
    have same : model.writes (.object members) =
        (parts.flatMap (·.1)).map (fun (path, value) => .set path value) ++
          (parts.flatMap (·.2)).map .unset := by
      simp only [writes, asked]
    rw [same, ← List.append_assoc]
    exact has.determines_unsets (has.determines_sets settled before)
  | _ => cases parsed

/-- An update determines the password of a document, also if it changes nothing of it. -/
theorem determines_applyUpdate {salt : Nat → ByteArray} {payload : Json} {update : Update}
    (parsed : model.parseUpdate salt payload = .ok update) {document : Document} (now : Timestamp)
    (before : model.Determines place past (document.body.at? place)) :
    model.Determines place (past ++ model.writes payload)
        ((model.applyUpdate now document update).2.body.at? place) ∧
      ((model.applyUpdate now document update).1 = false →
        model.Determines place (past ++ model.writes payload) (document.body.at? place)) := by
  have applied := has.determines_update parsed before
  have nonempty := has.ne_nil
  simp only [applyUpdate]
  split
  · rename_i alike
    refine ⟨applied, fun _ => applied.congr ?_⟩
    rw [Body.at?_eq_under? nonempty, Body.at?_eq_under? nonempty]
    have same : (Json.object (update.apply document.body)).same (.object document.body) = true := alike
    rcases Json.under?_of_same same place with ⟨none, also⟩ | ⟨inner, outer, here, there, own⟩
    · rw [none, also]
      exact .absent
    · rw [here, there]
      exact .of_same own
  · refine ⟨?_, by simp⟩
    split
    · obtain ⟨name, rest, rfl⟩ := List.exists_cons_of_ne_nil nonempty
      have other : updatedKey ≠ name := fun same => has.free name rfl (by simp [reservedNames, same])
      rw [Body.at?_cons, Keyed.find?_insert, if_neg other, ← Body.at?_cons]
      exact applied
    · exact applied

end HasPassword
end Model

/-! ### Checking -/

/-- A hasher can be relied on: its hashes are those of their passwords and of no others, they
are not empty, and none is the password itself. -/
structure Hasher.IsSound (hasher : Hasher) : Prop where
  verify_hash : ∀ salt plain candidate,
    hasher.verify candidate (hasher.hash salt plain) = some (decide (candidate = plain))
  hash_ne_empty : ∀ salt plain, hasher.hash salt plain ≠ ""
  hash_ne_plain : ∀ salt plain, hasher.hash salt plain ≠ plain

theorem Hasher.Settles.ne_plain {hasher : Hasher} (sound : hasher.IsSound) {plain : String}
    {stored : Option Json} (settles : hasher.Settles (some (.text plain)) stored) (nonempty : plain ≠ "") :
    stored ≠ some (.text plain) := by
  cases settles with
  | empty => exact absurd rfl nonempty
  | hashed salt =>
    intro same
    exact sound.hash_ne_plain salt plain (Json.text.inj (Option.some.inj same))

namespace Model
variable {model : Model} {place : List String}

theorem HasPassword.valueAt? (has : model.HasPassword place) (document : Document) :
    document.valueAt? (Text.dotted place) = document.body.at? place := by
  have free : Text.dotted place ≠ idKey := by
    intro same
    have single : place = [idKey] := by
      rw [← has.segments, same, Text.segments_of_undotted (undotted_of_mem_reservedNames (by decide))]
    exact has.free idKey (by simp [single]) (by decide)
  rw [document.valueAt?_of_ne free, Body.get?, has.segments]

/-- A password is accepted exactly if it is the one that was left, and that is not empty. -/
theorem HasPassword.verifyPassword_of_settles (has : model.HasPassword place) (sound : model.hasher.IsSound)
    {document : Document} {left : Option Json}
    (settles : model.hasher.Settles left (document.body.at? place)) (candidate : String) :
    ∃ answer, model.verifyPassword document candidate = .ok answer ∧
      (answer = true ↔ candidate ≠ "" ∧ left = some (.text candidate)) := by
  simp only [verifyPassword, has.path, has.valueAt?]
  generalize document.body.at? place = stored at settles ⊢
  cases settles with
  | absent => exact ⟨false, rfl, by simp⟩
  | null => exact ⟨false, rfl, by simp⟩
  | empty => exact ⟨false, rfl, by simp⟩
  | hashed salt plain nonempty =>
    have shown : (model.hasher.hash salt plain).isEmpty = false := by
      simpa using sound.hash_ne_empty salt plain
    simp only [shown, sound.verify_hash]
    refine ⟨decide (candidate = plain), rfl, ?_⟩
    simp only [decide_eq_true_eq, Option.some.injEq, Json.text.injEq]
    exact ⟨fun same => ⟨same ▸ nonempty, same.symm⟩, fun same => same.2.symm⟩

end Model

/-! ### Runs -/

/-- Reading a document back leaves its password as it is. -/
theorem Row.alikeText_of_read {row : Row} {document : Document} (ordered : (Json.object row.document.body).Ordered)
    (read : row.read = .ok document) {place : List String} (nonempty : place ≠ []) :
    Json.AlikeText (row.document.body.at? place) (document.body.at? place) := by
  rw [Body.at?_eq_under? nonempty, Body.at?_eq_under? nonempty]
  rcases Json.under?_of_reread (reread_of_read ordered read) place with ⟨none, also⟩ | ⟨inner, again, below, here, there, own⟩
  · rw [none, also]
    exact .absent
  · rw [here, there]
    exact .of_reread own

namespace Repository

/-- What holds of every row of a store that was reached, given what was written before: its
keys are in order, and the last write that covers its password tells what is stored of it. -/
structure Accounted (registry : Registry) (past : String × EntityId → List Write) (row : Row) : Prop where
  ordered : (Json.object row.document.body).Ordered
  determined : ∀ model place, registry.models.find? row.collection = some model →
    model.HasPassword place → model.Determines place (past row.key) (row.document.body.at? place)

section
variable {registry : Registry} {store result : Store} {request : Request} {model : Model}
  {past : String × EntityId → List Write} {row : Row}

theorem Accounted.append_nothing {more : String × EntityId → List Write} (accounted : Accounted registry past row)
    (nothing : more row.key = []) : Accounted registry (fun key => past key ++ more key) row :=
  ⟨accounted.ordered, fun model place known has => by
    simpa [nothing] using accounted.determined model place known has⟩

/-- The one payload that a document of a plan comes from is all that is written to it. -/
theorem writes_of_add {entries : List (Json × Document)}
    (distinct : (entries.map fun entry => (model.name, entry.2.id)).Nodup) {payload : Json}
    {document : Document} (member : (payload, document) ∈ entries) :
    (Plan.add model entries).writes (model.name, document.id) = [.insert payload] := by
  induction entries with
  | nil => cases member
  | cons first rest ih =>
    obtain ⟨fresh, later⟩ := List.nodup_cons.mp distinct
    simp only [Plan.writes, Prod.mk.injEq, true_and, List.filterMap_cons] at ih ⊢
    rcases List.mem_cons.mp member with rfl | among
    · have others : rest.filterMap (fun entry =>
          if entry.2.id = document.id then some (Write.insert entry.1) else none) = [] := by
        refine List.filterMap_eq_nil_iff.mpr fun entry listed => if_neg fun same => fresh ?_
        exact List.mem_map.mpr ⟨entry, listed, by simp [same]⟩
      simp [others]
    · have different : first.2.id ≠ document.id := fun same =>
        fresh (List.mem_map.mpr ⟨_, among, by simp [same]⟩)
      simp only [different, if_false]
      exact ih later among

theorem accounted_add (known : registry.models.find? model.name = some model)
    {entries : List (Json × Document)}
    (prepared : ∀ entry ∈ entries, entry.1.Ordered ∧
      ∃ index, model.prepareInsert request.supply index entry.1 = .ok entry.2)
    (performed : store.insertMany model.name (entries.map (·.2)) = .ok result)
    (before : ∀ row ∈ store.rows, Accounted registry past row) (member : row ∈ result.rows) :
    Accounted registry (fun key => past key ++ (Plan.add model entries).writes key) row := by
  have rows := Store.rows_of_insertMany performed
  have distinct := result.distinct
  rw [rows, List.map_append, List.nodup_append] at distinct
  obtain ⟨_, fresh, apart⟩ := distinct
  rw [rows] at member
  rcases List.mem_append.mp member with earlier | added
  · refine (before row earlier).append_nothing (List.filterMap_eq_nil_iff.mpr fun entry listed => ?_)
    refine if_neg fun same => apart _ (List.mem_map_of_mem earlier) _ ?_ same.symm
    exact List.mem_map_of_mem (List.mem_map_of_mem (List.mem_map_of_mem listed))
  · obtain ⟨document, listed, rfl⟩ := List.mem_map.mp added
    obtain ⟨⟨payload, _⟩, among, rfl⟩ := List.mem_map.mp listed
    obtain ⟨ordered, index, own⟩ := prepared _ among
    refine ⟨Model.ordered_of_prepareInsert ordered own, fun other place found has => ?_⟩
    obtain rfl := Option.some.inj (known.symm.trans found)
    have single := writes_of_add (by simpa [List.map_map, Function.comp_def, Row.key] using fresh) among
    simp only [Row.key, single]
    exact has.determines_insert own

/-- The row of a document that was read. -/
theorem row_of_key {document : Document} {stored : Row} (listed : stored ∈ store.rows)
    (same : stored.collection = model.name) (ordered : (Json.object stored.document.body).Ordered)
    (read : stored.read = .ok document) (member : row ∈ store.rows) (key : row.key = (model.name, document.id)) :
    stored = row := by
  have id : document.id = stored.document.id := ((Row.read_eq_ok ordered).mp read).1
  refine List.inj_on_of_nodup_map store.distinct listed member ?_
  rw [key, Row.key, same, id]

section
variable {value : Json} {update : Update} {salt : Nat → ByteArray} {document : Document}

/-- What holds of a row holds of the document that is read of it. -/
theorem Accounted.of_read (accounted : Accounted registry past row)
    (known : registry.models.find? model.name = some model) (same : row.collection = model.name)
    (read : row.read = .ok document) :
    (Json.object document.body).Ordered ∧ ∀ place, model.HasPassword place →
      model.Determines place (past (model.name, document.id)) (document.body.at? place) := by
  refine ⟨Row.ordered_of_read accounted.ordered read, fun place has => ?_⟩
  have determined := accounted.determined model place (same ▸ known) has
  rw [Row.key, same, ← Row.id_of_read read] at determined
  exact determined.congr (Row.alikeText_of_read accounted.ordered read has.ne_nil)

/-- A row keeps its account if an update leaves the document that is read of it as it is. -/
theorem Accounted.append_idle (accounted : Accounted registry past row)
    (known : registry.models.find? model.name = some model) (same : row.collection = model.name)
    (read : row.read = .ok document) (parsed : model.parseUpdate salt value = .ok update) {now : Timestamp}
    (idle : (model.applyUpdate now document update).1 = false) {more : String × EntityId → List Write}
    (writing : more row.key = model.writes value) :
    Accounted registry (fun key => past key ++ more key) row := by
  refine ⟨accounted.ordered, fun other place found has => ?_⟩
  obtain rfl := Option.some.inj (known.symm.trans (same ▸ found))
  have applied := (has.determines_applyUpdate parsed now ((accounted.of_read known same read).2 place has)).2 idle
  rw [Row.id_of_read read, ← same] at applied
  simp only [writing]
  exact applied.congr (Row.alikeText_of_read accounted.ordered read has.ne_nil).symm

theorem accounted_change (known : registry.models.find? model.name = some model) {found : List Document}
    {now : Timestamp} (ordered : value.Ordered) (parsed : model.parseUpdate salt value = .ok update)
    (read : ∀ document ∈ found,
      ∃ row ∈ store.rows, row.collection = model.name ∧ row.read = .ok document)
    (before : ∀ row ∈ store.rows, Accounted registry past row)
    (member : row ∈ (store.replaceMany model.name (Plan.changed model now update found)).2.rows) :
    Accounted registry (fun key => past key ++ (Plan.change model value update found).writes key) row := by
  have writing (document : Document) (among : document ∈ found) :
      (Plan.change model value update found).writes (model.name, document.id) = model.writes value :=
    if_pos (List.any_eq_true.mpr ⟨document, among, decide_eq_true rfl⟩)
  rcases Store.mem_replaceMany member with ⟨kept, apart⟩ | ⟨result, changed, rfl⟩
  · by_cases hit : (found.any fun document => (model.name, document.id) = row.key) = true
    · obtain ⟨document, among, here⟩ := List.any_eq_true.mp hit
      have key : (model.name, document.id) = row.key := of_decide_eq_true here
      obtain ⟨stored, listed, same, own⟩ := read document among
      obtain rfl := row_of_key listed same (before stored listed).ordered own kept key.symm
      -- A document that changes would have been written over the row.
      have idle : (model.applyUpdate now document update).1 = false := by
        refine Bool.eq_false_iff.mpr fun busy => ?_
        refine apart (model.applyUpdate now document update).2
          (mem_changed.mpr ⟨document, among, Prod.ext busy rfl⟩) ?_
        rw [id_of_applyUpdate]
        exact key.symm
      exact (before _ kept).append_idle known same own parsed idle (key ▸ writing document among)
    · exact (before row kept).append_nothing (if_neg hit)
  · obtain ⟨document, among, applied⟩ := mem_changed.mp changed
    obtain ⟨stored, listed, own, done⟩ := read document among
    obtain ⟨whole, determined⟩ := (before stored listed).of_read known own done
    have same : result = (model.applyUpdate now document update).2 := by rw [applied]
    refine ⟨?_, fun other place found has => ?_⟩
    · rw [same]
      exact Model.ordered_applyUpdate whole (Model.ordered_of_parseUpdate ordered parsed) now
    · obtain rfl := Option.some.inj (known.symm.trans found)
      simp only [Row.key, id_of_applied applied, writing document among]
      rw [same]
      exact (has.determines_applyUpdate parsed now (determined place has)).1

end

/-- A request keeps account of every row. -/
theorem accounted_after
    (named : ∀ name model, registry.models.find? name = some model → model.name = name)
    (ordered : request.envelope.Ordered) (before : ∀ row ∈ store.rows, Accounted registry past row)
    (member : row ∈ (after registry store request).rows) :
    Accounted registry (fun key => past key ++ writes registry store request key) row := by
  rw [after_eq] at member
  unfold writes
  cases made : plan registry store request with
  | error error =>
    rw [made] at member
    exact (before row member).append_nothing rfl
  | ok plan =>
    rw [made] at member
    simp only [Plan.outcome] at member ⊢
    cases performed : plan.perform request.supply.now store with
    | error error =>
      rw [performed] at member
      exact (before row member).append_nothing rfl
    | ok result =>
      rw [performed] at member
      obtain ⟨model, looked, planned⟩ := planned_of_plan made
      have found := Registry.find?_of_lookup looked
      have known : registry.models.find? model.name = some model := by
        rw [named _ _ found]
        exact found
      cases planned with
      | nothing =>
        cases performed
        exact (before row member).append_nothing rfl
      | drop dropped =>
        cases performed
        exact (before row (List.mem_filter.mp member).1).append_nothing rfl
      | @add entries prepared =>
        have ready : ∀ entry ∈ entries, entry.1.Ordered ∧
            ∃ index, model.prepareInsert request.supply index entry.1 = .ok entry.2 := by
          intro entry listed
          obtain ⟨given, own⟩ := prepared entry listed
          rcases given with single | ⟨payloads, several, among⟩
          · exact ⟨ordered.entity _ single, own⟩
          · exact ⟨ordered.entities _ several _ among, own⟩
        exact accounted_add known ready performed before member
      | change given parsed read =>
        cases performed
        exact accounted_change known (ordered.value _ given) parsed read before member

/-- Requests one after the other keep account of every row. -/
theorem accounted_run
    (named : ∀ name model, registry.models.find? name = some model → model.name = name)
    {requests : List Request} (ordered : ∀ request ∈ requests, request.envelope.Ordered)
    (before : ∀ row ∈ store.rows, Accounted registry past row)
    (member : row ∈ (requests.foldl (after registry) store).rows) :
    Accounted registry (fun key => past key ++ history registry key store requests) row := by
  induction requests generalizing store past with
  | nil => exact (before row member).append_nothing rfl
  | cons request rest ih =>
    have step : ∀ row ∈ (after registry store request).rows,
        Accounted registry (fun key => past key ++ writes registry store request key) row :=
      fun row => accounted_after named (ordered request List.mem_cons_self) before
    have later := ih (fun other listed => ordered other (List.mem_cons_of_mem _ listed)) step member
    simpa only [history, List.append_assoc] using later

end

theorem accounted_of_reached {definitions : List Declaration} {hasher : Hasher} {options : CompileOptions}
    {registry : Registry} (built : Registry.build definitions hasher options = .ok registry) (depth : Nat)
    {requests : List Request} (ordered : ∀ request ∈ requests, request.envelope.Ordered) {row : Row}
    (stored : row ∈ (reached (registry.withDepth depth) requests).rows) :
    Accounted (registry.withDepth depth) (history (registry.withDepth depth) · .empty requests) row := by
  have named : ∀ name model, (registry.withDepth depth).models.find? name = some model → model.name = name :=
    fun name model listed => (Registry.parts_of_build built listed).1
  have none : ∀ row ∈ Store.empty.rows, Accounted (registry.withDepth depth) (fun _ => []) row := by
    simp [Store.empty]
  simpa using accounted_run named ordered none stored

/-- In every store that requests reach, what is stored of a password is what the last write
that covers it left: nothing, null, the empty text, or the hash of any other text. So checking
a candidate never fails, and accepts exactly the password that was written last. -/
theorem password_of_history {definitions : List Declaration} {hasher : Hasher} {options : CompileOptions}
    {registry : Registry} (built : Registry.build definitions hasher options = .ok registry)
    (accepted : ∀ definition ∈ definitions, definition.validate = .ok ())
    (plain : ∀ definition ∈ definitions, definition.Plain) (depth : Nat) (requests : List Request)
    (ordered : ∀ request ∈ requests, request.envelope.Ordered) {row : Row}
    (stored : row ∈ (reached (registry.withDepth depth) requests).rows) {model : Model}
    (known : registry.lookup row.collection = .ok model) {path : String}
    (password : model.schema.behaviors.password = some path) :
    ∃ write left,
      Write.last? (Text.segments path) (history (registry.withDepth depth) row.key .empty requests) = some write ∧
      write.castAt model (Text.segments path) = .ok left ∧
      ∀ document, document = row.document ∨ row.read = .ok document →
        hasher.Settles left (document.body.get? path) ∧
        (hasher.IsSound →
          (∀ plain, plain ≠ "" → left = some (.text plain) → document.body.get? path ≠ some (.text plain)) ∧
          ∀ candidate, ∃ answer, model.verifyPassword document candidate = .ok answer ∧
            (answer = true ↔ candidate ≠ "" ∧ left = some (.text candidate))) := by
  have found : registry.models.find? row.collection = some model := Registry.find?_of_lookup known
  have has := Registry.hasPassword_of_build built accepted plain found password
  have accounted := accounted_of_reached built depth ordered stored
  obtain ⟨write, left, last, cast, settles⟩ := accounted.determined model _ found has
  obtain rfl : model.hasher = hasher := (Registry.parts_of_build built found).2.1
  have dotted : Text.dotted (Text.segments path) = path := Text.dotted_segments path
  refine ⟨write, left, last, cast, fun document held => ?_⟩
  have own : model.hasher.Settles left (document.body.at? (Text.segments path)) := by
    rcases held with rfl | read
    · exact settles
    · exact settles.congr (Row.alikeText_of_read accounted.ordered read has.ne_nil)
  refine ⟨own, fun sound => ⟨fun plain nonempty same => ?_, fun candidate => ?_⟩⟩
  · subst same
    exact own.ne_plain sound nonempty
  · exact has.verifyPassword_of_settles sound own candidate

end Repository

/-! ### Accounts -/

theorem markingHasher_isSound : markingHasher.IsSound where
  verify_hash salt plain candidate := by
    have marked : ("hash of " ++ plain).startsWith "hash of " = true :=
      String.startsWith_string_iff.mpr (by simp)
    have same : ("hash of " ++ plain == "hash of " ++ candidate) = decide (candidate = plain) := by
      rw [Bool.eq_iff_iff, beq_iff_eq, decide_eq_true_iff, String.append_right_inj, eq_comm]
    unfold markingHasher
    dsimp only
    rw [if_pos marked, same]
  hash_ne_empty salt plain empty := absurd (String.append_eq_empty_iff.mp empty).1 (by decide)
  hash_ne_plain salt plain := by
    intro same
    have longer := congrArg String.length same
    rw [markingHasher, String.length_append] at longer
    have marked : "hash of ".length = 8 := by decide
    omega

theorem accounts_plain : accounts.Plain := by
  intro declaration holds
  cases holds with
  | inside member _ => cases member
  | self => exact Field.plain_of_names (by decide +kernel) (by decide +kernel)

def accountRegistry : Registry := { models := [("account", ⟨accountSchema, markingHasher⟩)] }

def accountSupply : Supply := ⟨⟨0, by decide⟩, EntityId.mint 0, fun _ => ByteArray.empty⟩

def accountEntity : Json :=
  .object [("login", .text "ann"), ("secret", .object [("pass", .text "sesame")])]

def accountChange : Json := .object [("secret.pass", .text "open")]

/-- An account is added with a password, which is changed then. -/
def accountRequests : List Request :=
  [⟨.addEntity, { model := "account", entity := some accountEntity }, accountSupply⟩,
    ⟨.updateEntity, { model := "account", id := some (EntityId.mint 0 0).text, value := some accountChange },
      accountSupply⟩]

theorem ordered_accountRequests : ∀ request ∈ accountRequests, request.envelope.Ordered := by
  have entity : accountEntity.Ordered := by decide +kernel
  have change : accountChange.Ordered := by decide +kernel
  intro request member
  simp only [accountRequests, List.mem_cons, List.not_mem_nil, or_false] at member
  rcases member with rfl | rfl
  · exact ⟨by simpa using entity, by simp, by simp⟩
  · exact ⟨by simp, by simp, by simpa using change⟩

/-- The account is stored with the hash of the password that it was changed to. -/
theorem password_of_accountRequests :
    ∃ row ∈ (Repository.reached (accountRegistry.withDepth 2) accountRequests).rows, ∃ write left,
      Write.last? ["secret", "pass"]
        (Repository.history (accountRegistry.withDepth 2) row.key .empty accountRequests) = some write ∧
      write.castAt ⟨accountSchema, markingHasher⟩ ["secret", "pass"] = .ok left ∧
      ∀ document, document = row.document ∨ row.read = .ok document →
        markingHasher.Settles left (document.body.get? "secret.pass") ∧
        (markingHasher.IsSound →
          (∀ plain, plain ≠ "" → left = some (.text plain) →
            document.body.get? "secret.pass" ≠ some (.text plain)) ∧
          ∀ candidate, ∃ answer,
            Model.verifyPassword ⟨accountSchema, markingHasher⟩ document candidate = .ok answer ∧
              (answer = true ↔ candidate ≠ "" ∧ left = some (.text candidate))) := by
  have built : Registry.build [accounts] markingHasher {} = .ok accountRegistry := by cbv
  have accepted : ∀ definition ∈ [accounts], definition.validate = .ok () := by
    simpa using (by decide +kernel : accounts.validate = .ok ())
  have plain : ∀ definition ∈ [accounts], definition.Plain := by simpa using accounts_plain
  have collections : (Repository.reached (accountRegistry.withDepth 2) accountRequests).rows.map Row.collection =
      ["account"] := by decide +kernel
  obtain ⟨row, single, collection⟩ := List.map_eq_singleton_iff.mp collections
  have stored : row ∈ (Repository.reached (accountRegistry.withDepth 2) accountRequests).rows := by simp [single]
  have known : accountRegistry.lookup row.collection = .ok ⟨accountSchema, markingHasher⟩ := by
    rw [collection]
    rfl
  have password : accountSchema.behaviors.password = some "secret.pass" := rfl
  have segments : Text.segments "secret.pass" = ["secret", "pass"] := by decide +kernel
  rw [← segments]
  exact ⟨row, stored, Repository.password_of_history built accepted plain 2 accountRequests
    ordered_accountRequests stored known password⟩

end Dossier
