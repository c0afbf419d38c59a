import Dossier.Proofs.ProjectedDocuments
import Dossier.Proofs.RegisteredModels
import Dossier.Request.Filter

/-! The query of a filter, and when it is refused. Of the clauses on a field only the last one with
a value counts, in the query as well as for its cast. -/
namespace Dossier

/-- What the last clause on a field that has a value compares the field with. -/
def Filter.lastValued (filter : Filter) (field : String) : Option (Comparison × Json) :=
  (filter.clauses.filterMap fun clause =>
    if clause.field = field then clause.value.map (clause.comparison, ·) else none).getLast?

namespace Model

/-- The type that operands for a field are cast to. Both stamps are dates; arrays, maps and
undeclared fields take operands as they are. -/
def operandType? (model : Model) (field : String) : Option FieldType :=
  if field = createdKey ∨ field = updatedKey then some .date
  else match model.schema.fieldType? field with
    | none | some .array | some (.object _) => none
    | some type => some type

/-- Why an operand for a field is refused. The field overlaps the password if, without quotes, it
is the path of the password, contains it or lies within it. -/
inductive Rejects (model : Model) (field : String) (value : Json) : Prop where
  | password {path : String} (declared : model.schema.behaviors.password = some path)
      (overlaps : Text.segments path <+: Text.segments (unquoted field) ∨
        Text.segments (unquoted field) <+: Text.segments path) : Rejects model field value
  | id (own : field = idKey) (invalid : ∀ text id, value = .text text → EntityId.parse? text ≠ some id) :
      Rejects model field value
  | uncast {type : FieldType} {fault : RequestError} (other : field ≠ idKey)
      (typed : model.operandType? field = some type) (fails : castValue model.name field type value = .error fault) :
      Rejects model field value

/-- What an operand for a field is cast to. Ids are kept as they are written. -/
inductive CastsTo (model : Model) (field : String) : Json → Json → Prop where
  | id {text : String} {id : EntityId} (own : field = idKey) (valid : EntityId.parse? text = some id) :
      CastsTo model field (.text text) (.text text)
  | kept {value : Json} (other : field ≠ idKey) (untyped : model.operandType? field = none) :
      CastsTo model field value value
  | cast {value result : Json} {type : FieldType} (other : field ≠ idKey)
      (typed : model.operandType? field = some type) (done : castValue model.name field type value = .ok result) :
      CastsTo model field value result

/-- The query of a filter has for each field the condition of the last clause with a value, and no
other clause counts. Its cast is refused for one of these conditions, or else casts the operand of
each of them. -/
structure MergesFilter (model : Model) (filter : Filter) : Prop where
  survives : ∀ field, filter.query.find? field = (filter.lastValued field).map fun last => .compare last.1 last.2
  agrees : ∀ other : Filter, (∀ field, other.lastValued field = filter.lastValued field) → other.query = filter.query
  refused : (∃ fault, model.castQuery filter.query = .error fault) ↔
    ∃ field last, filter.lastValued field = some last ∧ model.Rejects field last.2
  casts : ∀ query, model.castQuery filter.query = .ok query → query.keys = filter.query.keys ∧
    ∀ field, Option.Rel
      (fun last condition => ∃ result, condition = .compare last.1 result ∧ model.CastsTo field last.2 result)
      (filter.lastValued field) (query.find? field)

end Model

theorem Model.CastsTo.null {model : Model} {field : String} {result : Json}
    (casts : model.CastsTo field .null result) : result = .null := by
  cases casts with
  | kept _ _ => rfl
  | @cast _ _ type _ _ done =>
    cases type <;> cases done
    all_goals rfl

/-! ### The query -/

namespace Filter

theorem find?_query (filter : Filter) (field : String) :
    filter.query.find? field = (filter.lastValued field).map fun last => .compare last.1 last.2 := by
  rw [query, Keyed.find?_ofEntries_eq_getLast?, lastValued, ← List.getLast?_map, List.filterMap_filterMap,
    List.map_filterMap]
  congr 2
  funext clause
  by_cases own : clause.field = field <;> cases clause.value <;> simp [own]

theorem ordered_query (filter : Filter) : filter.query.Ordered := Keyed.ordered_ofEntries _

/-- Filters whose last clauses with a value agree stand for one query. -/
theorem query_eq {filter other : Filter} (agree : ∀ field, other.lastValued field = filter.lastValued field) :
    other.query = filter.query :=
  other.ordered_query.ext filter.ordered_query fun field => by rw [find?_query, find?_query, agree]

theorem mem_query {filter : Filter} {field : String} {condition : Condition} :
    (field, condition) ∈ filter.query ↔
      ∃ last, filter.lastValued field = some last ∧ condition = .compare last.1 last.2 := by
  rw [← filter.ordered_query.find?_eq_some, find?_query, Option.map_eq_some_iff]
  exact exists_congr fun last => and_congr_right fun _ => eq_comm

end Filter

/-! ### The cast -/

namespace Model
variable {model : Model} {field : String} {value : Json}

theorem guardPassword_eq_ok_iff {usage : Usage} : model.guardPassword field usage = .ok () ↔
    ∀ path, model.schema.behaviors.password = some path →
      ¬ (Text.segments path <+: Text.segments (unquoted field) ∨
        Text.segments (unquoted field) <+: Text.segments path) := by
  unfold guardPassword
  cases declared : model.schema.behaviors.password with
  | none => simp
  | some path =>
    simp only [Option.some.injEq, forall_eq', ← Text.isWithin_iff, ← Bool.or_eq_true]
    split
    · rename_i overlaps
      exact iff_of_false nofun fun apart => apart overlaps
    · rename_i apart
      exact iff_of_true rfl apart

/-- What the operand of a condition becomes, if the guard lets the field pass. -/
def castOperand (model : Model) (field : String) (value : Json) : Except RequestError Json :=
  if field = idKey then model.checkId value
  else match model.operandType? field with
    | none => .ok value
    | some type => castValue model.name field type value

theorem castCondition_compare (stamps : model.schema.behaviors.stamps = true) (comparison : Comparison) :
    model.castCondition field (.compare comparison value) = (do
      model.guardPassword field .filter
      return .compare comparison (← model.castOperand field value)) := by
  unfold castCondition castOperand
  refine congrArg (Except.bind _) (funext fun _ => ?_)
  by_cases own : field = idKey
  · rw [if_pos own, if_pos own]
    rfl
  · rw [if_neg own, if_neg own, fieldType?, operandType?]
    by_cases stamp : field = createdKey ∨ field = updatedKey
    · rw [if_pos ⟨stamps, stamp⟩, if_pos stamp]
      rfl
    · rw [if_neg fun both => stamp both.2, if_neg stamp]
      cases model.schema.fieldType? field with
      | none => rfl
      | some type => cases type <;> rfl

theorem castOperand_eq_ok {result : Json} :
    model.castOperand field value = .ok result ↔ model.CastsTo field value result := by
  unfold castOperand
  constructor
  · intro done
    split at done
    · rename_i own
      unfold checkId at done
      split at done
      · split at done
        · rename_i valid
          obtain ⟨id, parsed⟩ := Option.isSome_iff_exists.mp valid
          cases done
          exact .id own parsed
        · cases done
      · cases done
    · rename_i other
      split at done
      · rename_i untyped
        cases done
        exact .kept other untyped
      · rename_i type typed
        exact .cast other typed done
  · intro casts
    cases casts with
    | id own valid => simp [own, checkId, valid]
    | kept other untyped => rw [if_neg other, untyped]
    | cast other typed done =>
      rw [if_neg other, typed]
      exact done

theorem rejects_iff : model.Rejects field value ↔
    model.guardPassword field .filter ≠ .ok () ∨ ∃ fault, model.castOperand field value = .error fault := by
  constructor
  · intro rejects
    cases rejects with
    | password declared overlaps => exact .inl fun passed => guardPassword_eq_ok_iff.mp passed _ declared overlaps
    | id own invalid =>
      refine .inr ?_
      rw [castOperand, if_pos own]
      cases value with
      | text text =>
        have none : EntityId.parse? text = none := Option.eq_none_iff_forall_ne_some.mpr (invalid text · rfl)
        exact ⟨_, by simp only [checkId, none]; rfl⟩
      | _ => exact ⟨_, rfl⟩
    | uncast other typed fails => exact .inr ⟨_, by rw [castOperand, if_neg other, typed]; exact fails⟩
  · rintro (stopped | ⟨fault, fails⟩)
    · rw [Ne, guardPassword_eq_ok_iff] at stopped
      simp only [not_forall, not_not] at stopped
      obtain ⟨path, declared, overlaps⟩ := stopped
      exact .password declared overlaps
    · unfold castOperand at fails
      split at fails
      · rename_i own
        refine .id own ?_
        rintro text id rfl parsed
        simp [checkId, parsed] at fails
      · rename_i other
        split at fails
        · cases fails
        · rename_i type typed
          exact .uncast other typed fails

section
variable (stamps : model.schema.behaviors.stamps = true)
include stamps

theorem castCondition_fails_iff (comparison : Comparison) :
    (∃ fault, model.castCondition field (.compare comparison value) = .error fault) ↔ model.Rejects field value := by
  rw [castCondition_compare stamps, rejects_iff]
  cases model.guardPassword field .filter with
  | error fault => exact iff_of_true ⟨fault, rfl⟩ (.inl nofun)
  | ok =>
    cases model.castOperand field value with
    | error fault => exact iff_of_true ⟨fault, rfl⟩ (.inr ⟨fault, rfl⟩)
    | ok result => exact iff_of_false nofun (by simp)

theorem exists_of_castCondition {comparison : Comparison} {condition : Condition}
    (done : model.castCondition field (.compare comparison value) = .ok condition) :
    ∃ result, condition = .compare comparison result ∧ model.CastsTo field value result := by
  rw [castCondition_compare stamps] at done
  obtain ⟨_, _, rest⟩ := bind_eq_ok.mp done
  obtain ⟨result, cast, finished⟩ := bind_eq_ok.mp rest
  cases finished
  exact ⟨result, rfl, castOperand_eq_ok.mp cast⟩

end

/-- The query of a filter is the merge of its clauses, whose last ones alone are judged. -/
theorem mergesFilter_of_stamps (stamps : model.schema.behaviors.stamps = true) (filter : Filter) :
    model.MergesFilter filter where
  survives := filter.find?_query
  agrees other agree := Filter.query_eq agree
  refused := by
    rw [castQuery, mapM_fails_iff]
    constructor
    · rintro ⟨⟨field, condition⟩, listed, fault, failed⟩
      obtain ⟨last, valued, rfl⟩ := Filter.mem_query.mp listed
      refine ⟨field, last, valued, (castCondition_fails_iff stamps last.1).mp ?_⟩
      rcases bind_eq_error.mp failed with own | ⟨_, _, later⟩
      · exact ⟨fault, own⟩
      · cases later
    · rintro ⟨field, last, valued, rejects⟩
      obtain ⟨fault, failed⟩ := (castCondition_fails_iff stamps last.1).mpr rejects
      exact ⟨_, Filter.mem_query.mpr ⟨last, valued, rfl⟩, fault, bind_eq_error.mpr (.inl failed)⟩
  casts query cast := by
    have steps : List.Forall₂ (fun entry result => entry.1 = result.1 ∧
        model.castCondition entry.1 entry.2 = .ok result.2) filter.query query := by
      refine (mapM_eq_ok.mp cast).imp fun entry result own => ?_
      obtain ⟨condition, done, finished⟩ := bind_eq_ok.mp own
      cases finished
      exact ⟨rfl, done⟩
    refine ⟨?_, fun field => ?_⟩
    · have keys : List.Forall₂ (fun key other => key = other) filter.query.keys query.keys := by
        rw [Keyed.keys, Keyed.keys, List.forall₂_map_left_iff, List.forall₂_map_right_iff]
        exact steps.imp fun _ _ both => both.1
      exact (List.forall₂_eq_eq_eq ▸ keys).symm
    · have found := Keyed.find?_of_forall₂ (model.castCondition · · = .ok ·) steps field
      rw [Filter.find?_query] at found
      generalize query.find? field = condition at found ⊢
      cases valued : filter.lastValued field with
      | none =>
        rw [valued] at found
        cases found
        exact .none
      | some last =>
        rw [valued] at found
        cases found with
        | some done => exact .some (exists_of_castCondition stamps done)

/-- The model of a registry merges the clauses of every filter, and judges the last ones alone. -/
theorem mergesFilter {definitions : List Declaration} {hasher : Hasher} {options : CompileOptions}
    {base : Registry} (built : Registry.build definitions hasher options = .ok base) {name : String}
    (found : base.models.find? name = some model) (filter : Filter) : model.MergesFilter filter :=
  mergesFilter_of_stamps (Registry.stamps_of_build built found) filter

/-- A clause with a text that is no id, and one that asks for players without a team. -/
def teamlessFilter : Filter :=
  .all [⟨"club.team", .eq, some (.text "reds")⟩, ⟨"club.team", .eq, some .null⟩, ⟨"club.team", .gt, none⟩]

theorem lastValued_teamless {field : String} {last : Comparison × Json} :
    teamlessFilter.lastValued field = some last ↔ field = "club.team" ∧ last = (.eq, .null) := by
  by_cases own : "club.team" = field
  · simp [Filter.lastValued, teamlessFilter, Filter.clauses, own, eq_comm]
  · simp [Filter.lastValued, teamlessFilter, Filter.clauses, own, Ne.symm own]

/-- The first clause would be refused, but the second one counts. -/
theorem teamless_merged : Rejects ⟨playerSchema, markingHasher⟩ "club.team" (.text "reds") ∧
    ∃ query, castQuery ⟨playerSchema, markingHasher⟩ teamlessFilter.query = .ok query ∧
      query.find? "club.team" = some (.compare .eq .null) := by
  let player : Model := ⟨playerSchema, markingHasher⟩
  have built : Registry.build roster markingHasher {} = .ok rosterRegistry := by cbv
  have found : rosterRegistry.models.find? "player" = some player := by cbv
  have merges : player.MergesFilter teamlessFilter := mergesFilter built found teamlessFilter
  have other : "club.team" ≠ idKey := by decide
  have typed : player.operandType? "club.team" = some (.reference "team") := by cbv
  have noId : EntityId.parse? "reds" = none := by decide +kernel
  have fails : castValue player.name "club.team" (.reference "team") (.text "reds") =
      .error (.invalidValue player.name "club.team" (.notReference "reds" "team")) := by
    simp only [castValue, Cast.reference, pure_bind, noId]
    rfl
  refine ⟨.uncast other typed fails, ?_⟩
  cases cast : player.castQuery teamlessFilter.query with
  | error fault =>
    obtain ⟨field, last, valued, rejects⟩ := merges.refused.mp ⟨fault, cast⟩
    obtain ⟨rfl, rfl⟩ := lastValued_teamless.mp valued
    cases rejects with
    | password declared _ => cases declared
    | id own _ => exact absurd own other
    | uncast _ _ fails => cases fails
  | ok query =>
    refine ⟨query, rfl, ?_⟩
    have held := (merges.casts query cast).2 "club.team"
    rw [lastValued_teamless.mpr ⟨rfl, rfl⟩] at held
    generalize query.find? "club.team" = condition at held ⊢
    cases held with
    | some casts =>
      obtain ⟨result, rfl, casts⟩ := casts
      rw [casts.null]

end Model
end Dossier
