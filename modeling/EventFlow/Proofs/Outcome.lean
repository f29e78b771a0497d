import EventFlow.Run
import Mathlib.Data.List.Forall2

/-!
The outcome of a computation, apart from what it reports.

A computation that has no state is known by its outcome alone. The lemmas here push `outcome`
through the ways of putting computations together, down to plain `Except`; what a list of
computations comes to is said by its first failure (`mapM_eq_error_iff`), or by a result for each
element (`mapM_eq_ok_iff`).
-/

namespace EventFlow

namespace Run

variable {ε α β : Type}

def outcome (x : Traced ε α) : Except ε α :=
  (x ()).outcome

@[simp] theorem outcome_pure (a : α) : outcome (pure a : Traced ε α) = .ok a := rfl

@[simp] theorem outcome_ofExcept (x : Except ε α) : outcome (ofExcept x) = x := rfl

@[simp] theorem outcome_info (message : String) :
    outcome (info message : Traced ε Unit) = .ok () := rfl

@[simp] theorem outcome_warn (message : String) :
    outcome (warn message : Traced ε Unit) = .ok () := rfl

@[simp] theorem outcome_bind (x : Traced ε α) (f : α → Traced ε β) :
    outcome (x >>= f) = outcome x >>= fun a => outcome (f a) := by
  change (Run.bind x f ()).outcome = Except.bind (x ()).outcome fun a => (f a ()).outcome
  rw [Run.bind]
  cases h : (x ()).outcome with
  | error e => rfl
  | ok a => rfl

theorem outcome_bind_of_ok {x : Traced ε α} {a : α} (h : outcome x = .ok a) (f : α → Traced ε β) :
    outcome (x >>= f) = outcome (f a) := by
  rw [outcome_bind, h]
  rfl

/-- What ends well does so step by step. -/
theorem exists_of_outcome_bind {x : Traced ε α} {f : α → Traced ε β} {b : β}
    (h : outcome (x >>= f) = .ok b) : ∃ a, outcome x = .ok a ∧ outcome (f a) = .ok b := by
  cases hx : outcome x with
  | error e =>
      rw [outcome_bind, hx] at h
      cases h
  | ok a => exact ⟨a, rfl, (outcome_bind_of_ok hx f).symm.trans h⟩

@[simp] theorem outcome_each (xs : List α) (f : α → Traced ε β) :
    outcome (each xs f) = xs.mapM fun x => outcome (f x) := by
  induction xs with
  | nil => rfl
  | cons x rest ih =>
      rw [each, List.mapM_cons, outcome_bind]
      simp only [outcome_bind, ih, outcome_pure]
      rfl

/-- A report on the way does not change what comes after it. -/
theorem outcome_report (c : Prop) [Decidable c] (message : String) (k : Unit → Traced ε α) :
    outcome (if c then debug message >>= k else k ()) = outcome (k ()) := by
  split <;> rfl

theorem mapM_eq_ok_iff {f : α → Except ε β} {xs : List α} {ys : List β} :
    xs.mapM f = .ok ys ↔ List.Forall₂ (fun x y => f x = .ok y) xs ys := by
  induction xs generalizing ys with
  | nil =>
      rw [List.mapM_nil, List.forall₂_nil_left_iff]
      exact ⟨fun h => (Except.ok.inj h).symm, fun h => h ▸ rfl⟩
  | cons x rest ih =>
      rw [List.mapM_cons, List.forall₂_cons_left_iff]
      cases hx : f x with
      | error e =>
          constructor
          · intro h
            cases h
          · rintro ⟨y, _, hy, _⟩
            cases hy
      | ok y =>
          cases hrest : rest.mapM f with
          | error e =>
              constructor
              · intro h
                cases h
              · rintro ⟨z, zs, _, hzs, _⟩
                rw [ih.2 hzs] at hrest
                cases hrest
          | ok zs =>
              constructor
              · intro h
                cases h
                exact ⟨y, zs, rfl, ih.1 hrest, rfl⟩
              · rintro ⟨z, zs', hz, hzs, rfl⟩
                rw [ih.2 hzs] at hrest
                cases hz
                cases hrest
                rfl

theorem mapM_eq_error_iff {f : α → Except ε β} {xs : List α} {e : ε} :
    xs.mapM f = .error e ↔ ∃ (i : Nat) (x : α), xs[i]? = some x ∧ f x = .error e ∧
      ∀ j < i, ∀ y, xs[j]? = some y → ∃ z, f y = .ok z := by
  induction xs with
  | nil =>
      constructor
      · intro h
        cases h
      · rintro ⟨i, x, hx, _⟩
        simp at hx
  | cons x rest ih =>
      rw [List.mapM_cons]
      cases hx : f x with
      | error e' =>
          constructor
          · intro h
            cases h
            exact ⟨0, x, rfl, hx, fun j hj => absurd hj (Nat.not_lt_zero j)⟩
          · rintro ⟨i, y, hy, hfy, hbefore⟩
            cases i with
            | zero =>
                cases hy
                rw [hx] at hfy
                cases hfy
                rfl
            | succ i =>
                obtain ⟨z, hz⟩ := hbefore 0 (Nat.succ_pos i) x rfl
                rw [hx] at hz
                cases hz
      | ok z =>
          have hstep : (Except.ok z >>= fun b => do
              let bs ← rest.mapM f
              pure (b :: bs)) = Except.error e ↔ rest.mapM f = .error e := by
            cases rest.mapM f with
            | error e' => rfl
            | ok zs => exact ⟨fun h => (by cases h), fun h => (by cases h)⟩
          rw [hstep, ih]
          constructor
          · rintro ⟨i, y, hy, hfy, hbefore⟩
            refine ⟨i + 1, y, hy, hfy, ?_⟩
            intro j hj w hw
            cases j with
            | zero =>
                cases hw
                exact ⟨z, hx⟩
            | succ j => exact hbefore j (Nat.lt_of_succ_lt_succ hj) w hw
          · rintro ⟨i, y, hy, hfy, hbefore⟩
            cases i with
            | zero =>
                cases hy
                rw [hx] at hfy
                cases hfy
            | succ i =>
                exact ⟨i, y, hy, hfy, fun j hj w hw => hbefore (j + 1) (Nat.succ_lt_succ hj) w hw⟩

theorem mapM_congr {f f' : α → Except ε β} {xs : List α} (h : ∀ x ∈ xs, f x = f' x) :
    xs.mapM f = xs.mapM f' := by
  induction xs with
  | nil => rfl
  | cons x rest ih =>
      rw [List.mapM_cons, List.mapM_cons, h x List.mem_cons_self,
        ih fun y hy => h y (List.mem_cons_of_mem x hy)]

/-- Results that are changed one by one are changed all in all. -/
theorem mapM_map {f f' : α → Except ε β} {r : β → β} {xs : List α}
    (h : ∀ x ∈ xs, f' x = (f x).map r) : xs.mapM f' = (xs.mapM f).map (List.map r) := by
  induction xs with
  | nil => rfl
  | cons x rest ih =>
      rw [List.mapM_cons, List.mapM_cons, h x List.mem_cons_self,
        ih fun y hy => h y (List.mem_cons_of_mem x hy)]
      cases f x with
      | error e => rfl
      | ok y =>
          cases rest.mapM f with
          | error e => rfl
          | ok ys => rfl

theorem bind_of_eq_error {x : Except ε α} {e : ε} (h : x = .error e) (f : α → Except ε β) :
    (x >>= f) = .error e := by
  rw [h]
  rfl

theorem mapM_cons_of_eq_error {f : α → Except ε β} {x : α} {e : ε} (h : f x = .error e)
    (rest : List α) : (x :: rest).mapM f = .error e := by
  rw [List.mapM_cons]
  exact bind_of_eq_error h _

end Run

end EventFlow
