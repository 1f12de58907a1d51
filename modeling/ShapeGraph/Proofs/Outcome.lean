import Mathlib.Data.List.Forall2
import ShapeGraph.Fault

/-!
# Outcomes of steps in sequence

Operations check, derive and compute in sequence and stop at the first fault.
What follows takes a success apart into the successes of its steps.

* `bind_eq_ok` — two steps in sequence succeed if both do;
* `mapM_eq_ok` — a step for every item of a list;
* `bind_eq_error`, `exists_error_of_mapM` — where a fault comes from.
-/

namespace ShapeGraph

variable {α β : Type}

/-- After a success, a sequence is what comes next. -/
theorem ok_bind (a : α) (next : α → Except Fault β) : (Except.ok a >>= next) = next a := rfl

/-- Two steps succeed if the first one does, and the second one from what it returns. -/
@[simp] theorem bind_eq_ok {x : Except Fault α} {next : α → Except Fault β} {b : β} :
    (x >>= next) = .ok b ↔ ∃ a, x = .ok a ∧ next a = .ok b := by
  cases x with
  | error fault => simp [bind, Except.bind]
  | ok a => simp [bind, Except.bind]

/-- A sequence stops at the first fault. -/
theorem bind_eq_error {x : Except Fault α} {next : α → Except Fault β} {fault : Fault} :
    (x >>= next) = .error fault ↔
      x = .error fault ∨ ∃ a, x = .ok a ∧ next a = .error fault := by
  cases x with
  | error other => simp [bind, Except.bind]
  | ok a => simp [bind, Except.bind]

/-- A value that is returned is the outcome. -/
@[simp] theorem pure_eq_ok {a b : α} : (pure a : Except Fault α) = .ok b ↔ a = b := by
  simp [pure, Except.pure]

/-- A function of an outcome succeeds if the outcome does. -/
@[simp] theorem map_eq_ok {f : α → β} {x : Except Fault α} {b : β} :
    f <$> x = .ok b ↔ ∃ a, x = .ok a ∧ f a = b := by
  cases x with
  | error fault => simp [Functor.map, Except.map]
  | ok a => simp [Functor.map, Except.map]

/-- A fault may be given another cause, but what succeeds stays as it is. -/
@[simp] theorem mapError_eq_ok {cause : Fault → Fault} {x : Except Fault α} {a : α} :
    x.mapError cause = .ok a ↔ x = .ok a := by
  cases x with
  | error fault => simp [Except.mapError]
  | ok b => simp [Except.mapError]

/-- A check lets through what it is about. -/
@[simp] theorem ite_ok_eq_ok {c : Prop} [Decidable c] {fault : Fault} {a b : α} :
    (if c then .ok a else .error fault : Except Fault α) = .ok b ↔ c ∧ a = b := by
  split <;> simp [*]

/-- A guarded step succeeds if its guard lets it through and the rest succeeds. -/
@[simp] theorem ite_error_eq_ok {c : Prop} [Decidable c] {fault : Fault}
    {x : Except Fault α} {b : α} :
    (if c then .error fault else x) = .ok b ↔ ¬c ∧ x = .ok b := by
  split <;> simp [*]

/-- What follows either of two steps follows the one that is taken. -/
theorem ite_bind_eq_ok {c : Prop} [Decidable c] {x y : Except Fault α}
    {next : α → Except Fault β} {b : β} :
    (if c then x >>= next else y >>= next) = .ok b ↔
      ∃ a, (if c then x else y) = .ok a ∧ next a = .ok b := by
  split <;> exact bind_eq_ok

/-- A step for every item succeeds with the results of all items, in order. -/
theorem mapM_eq_ok {step : α → Except Fault β} {items : List α} {results : List β} :
    items.mapM step = .ok results ↔
      List.Forall₂ (fun item result => step item = .ok result) items results := by
  induction items generalizing results with
  | nil => cases results <;> simp
  | cons item rest ih =>
      simp only [List.mapM_cons, bind_eq_ok, pure_eq_ok, List.forall₂_cons_left_iff]
      constructor
      · rintro ⟨result, hresult, others, hothers, rfl⟩
        exact ⟨result, others, hresult, ih.mp hothers, rfl⟩
      · rintro ⟨result, others, hresult, hothers, rfl⟩
        exact ⟨result, hresult, others, ih.mpr hothers, rfl⟩

/-- Every result is that of some item. -/
theorem exists_of_mem_mapM {step : α → Except Fault β} {items : List α} {results : List β}
    (h : items.mapM step = .ok results) {b : β} (hb : b ∈ results) :
    ∃ a ∈ items, step a = .ok b := by
  obtain ⟨hlength, hall⟩ := List.forall₂_iff_get.mp (mapM_eq_ok.mp h)
  obtain ⟨i, hi, rfl⟩ := List.getElem_of_mem hb
  exact ⟨items[i], List.getElem_mem _, hall i (hlength ▸ hi) hi⟩

/-- A fault of a step for every item is that of some item. -/
theorem exists_error_of_mapM {step : α → Except Fault β} {items : List α} {fault : Fault}
    (h : items.mapM step = .error fault) : ∃ a ∈ items, step a = .error fault := by
  induction items with
  | nil => simp [pure, Except.pure] at h
  | cons item rest ih =>
      rw [List.mapM_cons] at h
      rcases bind_eq_error.mp h with hitem | ⟨_, _, h⟩
      · exact ⟨item, List.mem_cons_self, hitem⟩
      · rcases bind_eq_error.mp h with hrest | ⟨_, _, h⟩
        · obtain ⟨a, ha, hstep⟩ := ih hrest
          exact ⟨a, List.mem_cons_of_mem _ ha, hstep⟩
        · cases h

/-- A step that succeeds for each item succeeds for all of them. -/
theorem mapM_ok {step : α → Except Fault β} {items : List α}
    (h : ∀ item ∈ items, ∃ result, step item = .ok result) :
    ∃ results, items.mapM step = .ok results := by
  induction items with
  | nil => exact ⟨[], rfl⟩
  | cons item rest ih =>
      obtain ⟨result, hresult⟩ := h item List.mem_cons_self
      obtain ⟨others, hothers⟩ := ih fun other hother => h other (List.mem_cons_of_mem _ hother)
      exact ⟨result :: others, mapM_eq_ok.mpr (.cons hresult (mapM_eq_ok.mp hothers))⟩

/-- A step that succeeds for all items succeeds for each of them. -/
theorem ok_of_mem_mapM {step : α → Except Fault β} {items : List α} {results : List β}
    (h : items.mapM step = .ok results) {a : α} (ha : a ∈ items) : ∃ b, step a = .ok b := by
  obtain ⟨hlength, hall⟩ := List.forall₂_iff_get.mp (mapM_eq_ok.mp h)
  obtain ⟨i, hi, rfl⟩ := List.getElem_of_mem ha
  exact ⟨results[i], hall i hi (hlength ▸ hi)⟩

end ShapeGraph
