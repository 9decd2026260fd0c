import NodeLink.Cpp.Outcome

/-!
# Loops over an input buffer

A `Consumer` takes one unit after another off the front of an input buffer until
the next one is not complete.  Its state holds the buffer, and every pass that
goes on leaves less of it (`size_lt`), so `drain` runs the loop with fuel and
`drain_eq` is the equation of the loop without it.

`Head` relates a state to the states the loop has at its head.  A loop faults
exactly if the pass at one of them does (`drain_fault_iff`), and what every pass
preserves holds in the state the loop ends in (`drain_invariant`).  `drainCost`
adds up a cost of the passes, and `drainSteps` lists the states they are made in
(`drain_view`).

`Incremental` says that a pass does not look past the unit it takes.  Then
draining is compatible with appending (`drain_append`): it makes no difference
whether the input was there from the start or arrived in between.
-/

namespace Stream

open Cpp

/-- The body of a loop over an input buffer.  A pass that finds no complete unit is `none`. -/
structure Consumer (ε φ σ : Type*) where
  pass : σ → Option (Outcome ε φ σ)
  size : σ → Nat
  size_lt : ∀ {s s'}, pass s = some (.ok s') → size s' < size s

namespace Consumer

variable {ε φ σ : Type*} (c : Consumer ε φ σ)

/-- At most `n` passes. -/
def loop : Nat → σ → Outcome ε φ σ
  | 0, s => .ok s
  | n + 1, s =>
      match c.pass s with
      | none => .ok s
      | some o => o.andThen (loop n)

/-- The loop, with one pass more than the buffer can feed. -/
def drain (s : σ) : Outcome ε φ σ := c.loop (c.size s + 1) s

variable {c} {s s' s'' : σ}

/-- More fuel than the size makes no difference. -/
theorem loop_eq_of_size_lt {n m : Nat} (hn : c.size s < n) (hm : c.size s < m) :
    c.loop n s = c.loop m s := by
  induction n generalizing m s with
  | zero => omega
  | succ n ih =>
      cases m with
      | zero => omega
      | succ m =>
          simp only [loop]
          cases hp : c.pass s with
          | none => rfl
          | some o =>
              cases o with
              | ok s1 =>
                  have hlt := c.size_lt hp
                  exact ih (by omega) (by omega)
              | throw e s1 => rfl
              | fault f => rfl

/-- The equation of the loop. -/
theorem drain_eq (s : σ) :
    c.drain s = match c.pass s with
      | none => .ok s
      | some o => o.andThen c.drain := by
  simp only [drain]
  rw [loop]
  cases hp : c.pass s with
  | none => rfl
  | some o =>
      cases o with
      | ok s1 =>
          have hlt := c.size_lt hp
          exact loop_eq_of_size_lt (by omega) (by omega)
      | throw e s1 => rfl
      | fault f => rfl

theorem drain_of_none (h : c.pass s = none) : c.drain s = .ok s := by
  rw [drain_eq, h]

theorem drain_of_some {o : Outcome ε φ σ} (h : c.pass s = some o) :
    c.drain s = o.andThen c.drain := by
  rw [drain_eq, h]

/-- Induction on the passes of the loop. -/
theorem drain_induction {P : σ → Prop}
    (step : ∀ s, (∀ s', c.pass s = some (.ok s') → P s') → P s) (s : σ) : P s := by
  induction hn : c.size s using Nat.strongRecOn generalizing s with
  | ind n ih =>
      refine step s fun s' hp => ih (c.size s') ?_ s' rfl
      rw [← hn]
      exact c.size_lt hp

/-! ## The head of the loop -/

variable (c) in
/-- The states the loop has at its head when it is entered with `s`. -/
inductive Head (s : σ) : σ → Prop where
  | entry : Head s s
  | next {s1 s2 : σ} : Head s s1 → c.pass s1 = some (.ok s2) → Head s s2

theorem Head.first (hp : c.pass s = some (.ok s')) (h : c.Head s' s'') : c.Head s s'' := by
  induction h with
  | entry => exact .next .entry hp
  | next _ hp' ih => exact .next ih hp'

/-- From each of its heads the loop goes on the same way. -/
theorem Head.drain_eq (h : c.Head s s') : c.drain s = c.drain s' := by
  induction h with
  | entry => rfl
  | next _ hp ih =>
      rw [ih, drain_of_some hp]
      rfl

/-- A loop that returns stops at a head without a complete unit. -/
theorem drain_ok (h : c.drain s = .ok s') : c.Head s s' ∧ c.pass s' = none := by
  induction s using drain_induction (c := c) with
  | step s ih =>
      rw [drain_eq] at h
      cases hp : c.pass s with
      | none =>
          rw [hp] at h
          cases h
          exact ⟨.entry, hp⟩
      | some o =>
          rw [hp] at h
          obtain ⟨s1, rfl, h1⟩ := Outcome.andThen_eq_ok h
          exact ⟨(ih s1 hp h1).1.first hp, (ih s1 hp h1).2⟩

/-- A loop faults exactly if the pass at one of its heads does. -/
theorem drain_fault_iff {f : φ} :
    c.drain s = .fault f ↔ ∃ s', c.Head s s' ∧ c.pass s' = some (.fault f) := by
  constructor
  · intro h
    induction s using drain_induction (c := c) with
    | step s ih =>
        rw [drain_eq] at h
        cases hp : c.pass s with
        | none => rw [hp] at h; cases h
        | some o =>
            rw [hp] at h
            cases o with
            | ok s1 =>
                obtain ⟨s', hhead, hf⟩ := ih s1 hp h
                exact ⟨s', hhead.first hp, hf⟩
            | throw e s1 => cases h
            | fault g =>
                cases h
                exact ⟨s, .entry, hp⟩
  · rintro ⟨s', hhead, hf⟩
    rw [hhead.drain_eq, drain_of_some hf]
    rfl

/-- What every pass preserves, exceptions included, holds where the loop ends. -/
theorem drain_invariant {P : σ → Prop}
    (hstep : ∀ s o s', P s → c.pass s = some o → o.state? = some s' → P s') (h0 : P s)
    (h : (c.drain s).state? = some s') : P s' := by
  induction s using drain_induction (c := c) with
  | step s ih =>
      rw [drain_eq] at h
      cases hp : c.pass s with
      | none =>
          rw [hp] at h
          cases Option.some.inj h
          exact h0
      | some o =>
          rw [hp] at h
          rcases Outcome.state?_andThen h with ⟨s1, rfl, h1⟩ | ⟨e, rfl⟩
          · exact ih s1 hp (hstep s _ s1 h0 hp rfl) h1
          · exact hstep s _ s' h0 hp rfl

/-! ## What a loop costs -/

variable (c) in
/-- What at most `n` passes cost together, the last one included. -/
def loopCost (cost : σ → Nat) : Nat → σ → Nat
  | 0, _ => 0
  | n + 1, s =>
      match c.pass s with
      | none => 0
      | some (.ok s') => cost s + loopCost cost n s'
      | some _ => cost s

variable (c) in
/-- What the passes of the loop cost together. -/
def drainCost (cost : σ → Nat) (s : σ) : Nat := c.loopCost cost (c.size s + 1) s

theorem loopCost_eq_of_size_lt {cost : σ → Nat} {n m : Nat} (hn : c.size s < n)
    (hm : c.size s < m) : c.loopCost cost n s = c.loopCost cost m s := by
  induction n generalizing m s with
  | zero => omega
  | succ n ih =>
      cases m with
      | zero => omega
      | succ m =>
          simp only [loopCost]
          cases hp : c.pass s with
          | none => rfl
          | some o =>
              cases o with
              | ok s1 =>
                  have hlt := c.size_lt hp
                  exact congrArg (cost s + ·) (ih (by omega) (by omega))
              | throw e s1 => rfl
              | fault f => rfl

theorem drainCost_of_none {cost : σ → Nat} (h : c.pass s = none) : c.drainCost cost s = 0 := by
  simp only [drainCost, loopCost]
  rw [h]

theorem drainCost_of_ok {cost : σ → Nat} (h : c.pass s = some (.ok s')) :
    c.drainCost cost s = cost s + c.drainCost cost s' := by
  have hlt := c.size_lt h
  rw [drainCost, loopCost, h]
  exact congrArg (cost s + ·) (loopCost_eq_of_size_lt hlt (Nat.lt_succ_self _))

theorem drainCost_of_throw {cost : σ → Nat} {e : ε} (h : c.pass s = some (.throw e s')) :
    c.drainCost cost s = cost s := by
  rw [drainCost, loopCost, h]

/-! ## The passes of a loop -/

variable (c) in
/-- The states in which one of at most `n` passes finds a unit, in order. -/
def loopSteps : Nat → σ → List σ
  | 0, _ => []
  | n + 1, s =>
      match c.pass s with
      | none => []
      | some (.ok s') => s :: loopSteps n s'
      | some _ => [s]

variable (c) in
/-- The states in which a pass of the loop finds a unit, in order. -/
def drainSteps (s : σ) : List σ := c.loopSteps (c.size s + 1) s

variable {α : Type*}

variable (c) in
/-- A pass that finds a unit does the same with more input behind it.  `Fits` bounds the input this
is asked of. -/
structure Incremental (append : σ → List α → σ) (Fits : σ → List α → Prop) : Prop where
  pass_append : ∀ {s d o}, Fits s d → c.pass s = some o →
    c.pass (append s d) = some (o.map fun s' => append s' d)
  fits_pass : ∀ {s d s'}, Fits s d → c.pass s = some (.ok s') → Fits s' d

/-- Draining what was appended is draining, appending, and draining again.  After an exception the
rest of the input is only in the buffer. -/
theorem drain_append {append : σ → List α → σ} {Fits : σ → List α → Prop}
    (hc : c.Incremental append Fits) {d : List α} (hf : Fits s d) :
    c.drain (append s d) = match c.drain s with
      | .ok s' => c.drain (append s' d)
      | .throw e s' => .throw e (append s' d)
      | .fault f => .fault f := by
  induction s using drain_induction (c := c) with
  | step s ih =>
      cases hp : c.pass s with
      | none => rw [drain_of_none hp]
      | some o =>
          rw [drain_of_some (hc.pass_append hf hp), drain_of_some hp]
          cases o with
          | ok s1 => exact ih s1 hp (hc.fits_pass hf hp)
          | throw e s1 => rfl
          | fault f => rfl

end Consumer

end Stream
