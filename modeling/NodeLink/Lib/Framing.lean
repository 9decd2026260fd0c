import Mathlib.Data.List.Basic

/-!
# Streams of units

A `Framing` says how the first unit of a stream is cut off.  Which units can come
next depends on a phase.  What was cut off stays the same when more of the stream
arrives, so a stream that arrives bit by bit is cut like one that is there as a
whole: `Reads` is how a reader gets on, and `Reads.units` compares it with `units`,
which cuts the whole stream.
-/

/-- How the first unit of a stream is cut off, phase by phase. -/
structure Framing (α β γ : Type*) where
  next : γ → List α → Option (β × γ × List α)
  shorter : ∀ {p b x q rest}, next p b = some (x, q, rest) → rest.length < b.length
  stable : ∀ {p b x q rest} (c : List α), next p b = some (x, q, rest) →
    next p (b ++ c) = some (x, q, rest ++ c)

namespace Framing

variable {α β γ : Type*} (F : Framing α β γ)

/-- At most `n` units of a stream, the phase behind them, and what is left. -/
def loop : Nat → γ → List α → List β × γ × List α
  | 0, p, b => ([], p, b)
  | n + 1, p, b =>
      match F.next p b with
      | none => ([], p, b)
      | some (x, q, rest) => (x :: (loop n q rest).1, (loop n q rest).2)

/-- The units of a stream, the phase behind them, and what is left. -/
def units (p : γ) (b : List α) : List β × γ × List α := F.loop b.length p b

variable {F} {p q q' : γ} {b rest rest' : List α} {x : β} {xs : List β}

/-- As many turns as there are symbols are enough. -/
theorem loop_eq_of_length_le {n m : Nat} (hn : b.length ≤ n) (hm : b.length ≤ m) :
    F.loop n p b = F.loop m p b := by
  induction n generalizing m p b with
  | zero =>
      have hb : b = [] := List.eq_nil_of_length_eq_zero (Nat.le_zero.mp hn)
      have hnone : F.next p b = none := by
        cases h : F.next p b with
        | none => rfl
        | some r =>
            have hlt := F.shorter h
            rw [hb] at hlt
            exact absurd hlt (Nat.not_lt_zero _)
      cases m with
      | zero => rfl
      | succ m => simp only [loop, hnone]
  | succ n ih =>
      cases h : F.next p b with
      | none => cases m <;> simp only [loop, h]
      | some r =>
          obtain ⟨x, q, rest⟩ := r
          have hlt := F.shorter h
          cases m with
          | zero => omega
          | succ m =>
              have hrest : F.loop n q rest = F.loop m q rest := ih (by omega) (by omega)
              simp only [loop, h, hrest]

theorem units_of_none (h : F.next p b = none) : F.units p b = ([], p, b) := by
  rw [units]
  cases b.length <;> simp only [loop, h]

theorem units_of_some (h : F.next p b = some (x, q, rest)) :
    F.units p b = (x :: (F.units q rest).1, (F.units q rest).2) := by
  have hlt := F.shorter h
  have hfirst : F.units p b = F.loop (b.length - 1 + 1) p b :=
    loop_eq_of_length_le (Nat.le_refl _) (by omega)
  have hrest : F.loop (b.length - 1) q rest = F.units q rest :=
    loop_eq_of_length_le (by omega) (Nat.le_refl _)
  rw [hfirst]
  simp only [loop, h, hrest]

/-- How a reader gets on in a stream: the units it has cut off, and what is left of what has
arrived. -/
inductive Reads (F : Framing α β γ) (p : γ) (b : List α) : List β → γ → List α → Prop where
  | start : Reads F p b [] p b
  | cut {xs : List β} {q q' : γ} {rest rest' : List α} {x : β} : Reads F p b xs q rest →
      F.next q rest = some (x, q', rest') → Reads F p b (xs ++ [x]) q' rest'

namespace Reads

/-- More of the stream arrives. -/
theorem arrive (h : F.Reads p b xs q rest) (c : List α) :
    F.Reads p (b ++ c) xs q (rest ++ c) := by
  induction h with
  | start => exact .start
  | cut _ hx ih => exact ih.cut (F.stable c hx)

/-- What is cut off so far stands first among the units of the stream. -/
theorem units (h : F.Reads p b xs q rest) :
    F.units p b = (xs ++ (F.units q rest).1, (F.units q rest).2) := by
  induction h with
  | start => rfl
  | @cut xs q q' rest rest' x _ hx ih =>
      rw [ih, units_of_some hx, List.append_assoc]
      rfl

/-- A reader that waits for more has cut off all units. -/
theorem units_of_waiting (h : F.Reads p b xs q rest) (hn : F.next q rest = none) :
    F.units p b = (xs, q, rest) := by
  rw [h.units, units_of_none hn, List.append_nil]

/-- A reader that goes on comes to wait for more. -/
theorem exists_waiting (h : F.Reads p b xs q rest) :
    ∃ ys q' rest', F.Reads p b (xs ++ ys) q' rest' ∧ F.next q' rest' = none := by
  induction hn : rest.length using Nat.strongRecOn generalizing xs q rest with
  | ind n ih =>
      cases hx : F.next q rest with
      | none => exact ⟨[], q, rest, (List.append_nil xs).symm ▸ h, hx⟩
      | some r =>
          obtain ⟨x, q1, rest1⟩ := r
          have hlt := F.shorter hx
          obtain ⟨ys, q', rest', hr, hwait⟩ := ih rest1.length (by omega) (h.cut hx) rfl
          rw [List.append_assoc] at hr
          exact ⟨x :: ys, q', rest', hr, hwait⟩

end Reads

/-- A stream is cut into its units up to where the next one is not complete. -/
theorem reads_units (p : γ) (b : List α) :
    F.Reads p b (F.units p b).1 (F.units p b).2.1 (F.units p b).2.2 ∧
      F.next (F.units p b).2.1 (F.units p b).2.2 = none := by
  obtain ⟨xs, q, rest, hr, hwait⟩ := (Reads.start (F := F) (p := p) (b := b)).exists_waiting
  rw [hr.units_of_waiting hwait]
  exact ⟨hr, hwait⟩

/-- More of a stream is cut where the units so far end. -/
theorem units_append (p : γ) (b c : List α) :
    F.units p (b ++ c) = ((F.units p b).1 ++ (F.units (F.units p b).2.1 ((F.units p b).2.2 ++ c)).1,
      (F.units (F.units p b).2.1 ((F.units p b).2.2 ++ c)).2) :=
  ((reads_units p b).1.arrive c).units

end Framing
