import Mathlib.Data.List.Forall2

/-! What the outcome of several steps says about each of them. -/
namespace Dossier
variable {ε ε' α β : Type}

@[simp] theorem ok_bind (value : α) (next : α → Except ε β) : (Except.ok value >>= next) = next value := rfl

@[simp] theorem error_bind (fault : ε) (next : α → Except ε β) :
    (Except.error fault >>= next) = .error fault := rfl

@[simp] theorem mapError_ok (value : α) (f : ε → ε') :
    (Except.ok value : Except ε α).mapError f = .ok value := rfl

@[simp] theorem mapError_error (fault : ε) (f : ε → ε') :
    (Except.error fault : Except ε α).mapError f = .error (f fault) := rfl

theorem bind_eq_ok {outcome : Except ε α} {next : α → Except ε β} {result : β} :
    (outcome >>= next) = .ok result ↔ ∃ value, outcome = .ok value ∧ next value = .ok result := by
  cases outcome with
  | error error => simp
  | ok value => simp

theorem bind_eq_error {outcome : Except ε α} {next : α → Except ε β} {fault : ε} :
    (outcome >>= next) = .error fault ↔
      outcome = .error fault ∨ ∃ value, outcome = .ok value ∧ next value = .error fault := by
  cases outcome with
  | error error => simp
  | ok value => simp

/-- Steps over a list succeed if they do one by one. -/
theorem mapM_eq_ok {step : α → Except ε β} {items : List α} {results : List β} :
    items.mapM step = .ok results ↔ List.Forall₂ (fun item result => step item = .ok result) items results := by
  induction items generalizing results with
  | nil => simp [pure, Except.pure]
  | cons item rest ih =>
    rw [List.mapM_cons, bind_eq_ok]
    constructor
    · rintro ⟨result, first, others⟩
      obtain ⟨more, later, same⟩ := bind_eq_ok.mp others
      cases same
      exact .cons first (ih.mp later)
    · rintro (_ | ⟨first, later⟩)
      exact ⟨_, first, bind_eq_ok.mpr ⟨_, ih.mpr later, rfl⟩⟩

theorem mapM_of_ok {step : α → Except ε β} {f : α → β} {items : List α}
    (each : ∀ item ∈ items, step item = .ok (f item)) : items.mapM step = .ok (items.map f) := by
  apply mapM_eq_ok.mpr
  rw [List.forall₂_map_right_iff, List.forall₂_same]
  exact each

theorem exists_mapM {step : α → Except ε β} {items : List α}
    (each : ∀ item ∈ items, ∃ result, step item = .ok result) : ∃ results, items.mapM step = .ok results := by
  induction items with
  | nil => exact ⟨[], rfl⟩
  | cons item rest ih =>
    obtain ⟨result, own⟩ := each item List.mem_cons_self
    obtain ⟨results, later⟩ := ih fun other member => each other (List.mem_cons_of_mem _ member)
    exact ⟨result :: results, mapM_eq_ok.mpr (.cons own (mapM_eq_ok.mp later))⟩

theorem exists_of_mapM {step : α → Except ε β} {items : List α} {results : List β}
    (done : items.mapM step = .ok results) {result : β} (member : result ∈ results) :
    ∃ item ∈ items, step item = .ok result := by
  have steps := mapM_eq_ok.mp done
  clear done
  induction steps with
  | nil => cases member
  | cons first later ih =>
    rcases List.mem_cons.mp member with rfl | among
    · exact ⟨_, List.mem_cons_self, first⟩
    · obtain ⟨item, listed, own⟩ := ih among
      exact ⟨item, List.mem_cons_of_mem _ listed, own⟩

theorem result_of_mapM {step : α → Except ε β} {items : List α} {results : List β}
    (done : items.mapM step = .ok results) {item : α} (member : item ∈ items) :
    ∃ result ∈ results, step item = .ok result := by
  have steps := mapM_eq_ok.mp done
  clear done
  induction steps with
  | nil => cases member
  | cons first later ih =>
    rcases List.mem_cons.mp member with rfl | among
    · exact ⟨_, List.mem_cons_self, first⟩
    · obtain ⟨result, listed, own⟩ := ih among
      exact ⟨result, List.mem_cons_of_mem _ listed, own⟩

/-- Steps over a list fail if one of them does. -/
theorem mapM_fails_iff {step : α → Except ε β} {items : List α} :
    (∃ fault, items.mapM step = .error fault) ↔ ∃ item ∈ items, ∃ fault, step item = .error fault := by
  constructor
  · rintro ⟨fault, failed⟩
    by_contra none
    simp only [not_exists, not_and] at none
    obtain ⟨results, done⟩ : ∃ results, items.mapM step = .ok results := exists_mapM fun item member => by
      cases own : step item with
      | ok result => exact ⟨result, rfl⟩
      | error other => exact absurd own (none item member other)
    cases failed.symm.trans done
  · rintro ⟨item, member, fault, failed⟩
    cases done : items.mapM step with
    | error other => exact ⟨other, rfl⟩
    | ok results =>
      obtain ⟨_, _, own⟩ := result_of_mapM done member
      cases failed.symm.trans own

/-- Checks of a list succeed if each of them does. -/
theorem forM_eq_ok {check : α → Except ε PUnit} {items : List α} :
    items.forM check = .ok () ↔ ∀ item ∈ items, check item = .ok () := by
  induction items with
  | nil => simp [pure, Except.pure]
  | cons item rest ih =>
    change (check item >>= fun _ => rest.forM check) = _ ↔ _
    rw [bind_eq_ok, List.forall_mem_cons]
    exact ⟨fun ⟨_, own, later⟩ => ⟨own, ih.mp later⟩, fun ⟨own, later⟩ => ⟨_, own, ih.mpr later⟩⟩

/-- If checks of a list fail, one of them does. -/
theorem exists_of_forM {check : α → Except ε PUnit} {items : List α} {fault : ε}
    (failed : items.forM check = .error fault) : ∃ item ∈ items, check item = .error fault := by
  induction items with
  | nil => cases failed
  | cons item rest ih =>
    change (check item >>= fun _ => rest.forM check) = _ at failed
    cases own : check item with
    | error other =>
      rw [own] at failed
      cases failed
      exact ⟨item, List.mem_cons_self, own⟩
    | ok =>
      rw [own] at failed
      obtain ⟨later, among, same⟩ := ih failed
      exact ⟨later, List.mem_cons_of_mem _ among, same⟩

/-- Steps from one value to the next succeed if each does wherever something holds that all of
them keep. -/
theorem exists_of_foldlM {step : β → α → Except ε β} {items : List α} (holds : β → Prop)
    (each : ∀ held, holds held → ∀ item ∈ items, ∃ next, step held item = .ok next ∧ holds next)
    {start : β} (first : holds start) : ∃ result, items.foldlM step start = .ok result := by
  induction items generalizing start with
  | nil => exact ⟨start, rfl⟩
  | cons item rest ih =>
    obtain ⟨next, done, kept⟩ := each start first item List.mem_cons_self
    obtain ⟨result, later⟩ :=
      ih (fun held inside other member => each held inside other (List.mem_cons_of_mem _ member)) kept
    refine ⟨result, ?_⟩
    rw [List.foldlM_cons]
    exact bind_eq_ok.mpr ⟨next, done, later⟩

/-- Numbered steps over a list, each item with what becomes of it. -/
theorem mem_zip_of_mapM {step : α × Nat → Except ε β} {items : List α} {start : Nat} {results : List β}
    (done : (items.zipIdx start).mapM step = .ok results) {pair : α × β} (member : pair ∈ items.zip results) :
    ∃ index, step (pair.1, index) = .ok pair.2 := by
  have steps := mapM_eq_ok.mp done
  clear done
  induction items generalizing start results with
  | nil => cases member
  | cons item rest ih =>
    rw [List.zipIdx_cons] at steps
    cases steps with
    | cons first later =>
      rcases List.mem_cons.mp member with rfl | among
      · exact ⟨start, first⟩
      · exact ih among later

/-- Filtering by tests that may fail does all tests first. -/
theorem filterM_eq (test : α → Except ε Bool) (items : List α) : items.filterM test =
    (items.mapM test).map fun answers => ((items.zip answers).filter (·.2)).map (·.1) := by
  have general (passed : List α) : List.filterAuxM test items passed =
      (items.mapM test).map fun answers =>
        (((items.zip answers).filter (·.2)).map (·.1)).reverse ++ passed := by
    induction items generalizing passed with
    | nil => rfl
    | cons item rest ih =>
      rw [List.filterAuxM, List.mapM_cons]
      cases test item with
      | error error => rfl
      | ok kept =>
        change List.filterAuxM test rest (cond kept (item :: passed) passed) = _
        rw [ih]
        cases rest.mapM test with
        | error error => rfl
        | ok answers => cases kept <;> simp [Except.map, pure, Except.pure]
  rw [List.filterM, general]
  cases items.mapM test with
  | error error => rfl
  | ok answers => simp [Except.map, pure, Except.pure]

/-- If all tests succeed, filtering keeps what passes. -/
theorem filterM_of_ok {test : α → Except ε Bool} {passes : α → Bool} {items : List α}
    (each : ∀ item ∈ items, test item = .ok (passes item)) : items.filterM test = .ok (items.filter passes) := by
  rw [filterM_eq, mapM_of_ok each]
  refine congrArg Except.ok ?_
  clear each
  induction items with
  | nil => rfl
  | cons item rest ih =>
    cases own : passes item with
    | true => simpa [own] using ih
    | false => simpa [own] using ih

/-- Filtering succeeds only if all tests do. -/
theorem answers_of_filterM {test : α → Except ε Bool} {items passed : List α}
    (filtered : items.filterM test = .ok passed) : ∀ item ∈ items, ∃ answer, test item = .ok answer := by
  rw [filterM_eq] at filtered
  cases answered : items.mapM test with
  | error fault => simp [answered, Except.map] at filtered
  | ok answers =>
    intro item member
    obtain ⟨answer, _, own⟩ := result_of_mapM answered member
    exact ⟨answer, own⟩

theorem eq_filter_of_filterM {test : α → Except ε Bool} {items passed : List α}
    (filtered : items.filterM test = .ok passed) : passed = items.filter fun item => (test item).toOption.getD false := by
  refine Except.ok.inj (filtered.symm.trans (filterM_of_ok fun item member => ?_))
  obtain ⟨answer, own⟩ := answers_of_filterM filtered item member
  rw [own]
  rfl

/-! ### Two outcomes side by side -/

/-- Related results, or one error twice. -/
inductive Agree (related : α → β → Prop) : Except ε α → Except ε β → Prop where
  | ok {result : α} {other : β} (alike : related result other) : Agree related (.ok result) (.ok other)
  | error (fault : ε) : Agree related (.error fault) (.error fault)

namespace Agree
variable {α' β' : Type} {related : α → β → Prop} {further : α' → β' → Prop}

theorem of_eq {outcome other : Except ε α} (same : outcome = other) : Agree Eq outcome other := by
  subst same
  cases outcome with
  | ok result => exact .ok rfl
  | error fault => exact .error fault

theorem eq {outcome other : Except ε α} (agree : Agree Eq outcome other) : outcome = other := by
  cases agree with
  | ok same => rw [same]
  | error => rfl

theorem bind {outcome : Except ε α} {other : Except ε β} {next : α → Except ε α'} {after : β → Except ε β'}
    (agree : Agree related outcome other)
    (later : ∀ {result also}, related result also → Agree further (next result) (after also)) :
    Agree further (outcome >>= next) (other >>= after) := by
  cases agree with
  | ok alike => exact later alike
  | error fault => exact .error fault

theorem mapError {outcome : Except ε α} {other : Except ε β} (agree : Agree related outcome other)
    (f : ε → ε') : Agree related (outcome.mapError f) (other.mapError f) := by
  cases agree with
  | ok alike => exact .ok alike
  | error fault => exact .error (f fault)

theorem mapM {items : List α} {others : List β} {step : α → Except ε α'} {also : β → Except ε β'}
    (listed : List.Forall₂ related items others)
    (each : ∀ {item other}, related item other → Agree further (step item) (also other)) :
    Agree (List.Forall₂ further) (items.mapM step) (others.mapM also) := by
  induction listed with
  | nil => exact .ok .nil
  | cons first _ ih =>
    rw [List.mapM_cons, List.mapM_cons]
    refine (each first).bind fun own => ?_
    exact ih.bind fun later => .ok (.cons own later)

theorem foldlM {items : List α'} {step : α → α' → Except ε α} {also : β → α' → Except ε β}
    (each : ∀ {held other}, related held other → ∀ item, Agree related (step held item) (also other item))
    {start : α} {first : β} (alike : related start first) :
    Agree related (items.foldlM step start) (items.foldlM also first) := by
  induction items generalizing start first with
  | nil => exact .ok alike
  | cons item rest ih =>
    rw [List.foldlM_cons, List.foldlM_cons]
    exact (each alike item).bind ih

theorem filterM {items : List α} {others : List β} {test : α → Except ε Bool} {also : β → Except ε Bool}
    (listed : List.Forall₂ related items others)
    (each : ∀ {item other}, related item other → test item = also other) :
    Agree (List.Forall₂ related) (items.filterM test) (others.filterM also) := by
  have answered : items.mapM test = others.mapM also := by
    have answers := mapM listed fun alike => of_eq (each alike)
    simp only [List.forall₂_eq_eq_eq] at answers
    exact answers.eq
  rw [filterM_eq, filterM_eq, answered]
  cases others.mapM also with
  | error fault => exact .error fault
  | ok answers =>
    refine .ok ?_
    clear answered
    induction listed generalizing answers with
    | nil => exact .nil
    | cons first _ ih =>
      cases answers with
      | nil => exact .nil
      | cons answer rest =>
        cases answer with
        | true => exact .cons first (ih rest)
        | false => exact ih rest

end Agree

end Dossier
