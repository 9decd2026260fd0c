import NodeLink.Lib.Framing
import NodeLink.Lib.Stream

/-!
# Loops that interpret what they cut off

A `Stream.Consumer` takes units off its buffer and acts on each at once.  If a
`Framing` says where its units end, and `handle` says what one unit does to the
part of the state that is not the buffer, the loop is an interpreter
(`Interprets`): cutting the whole buffer first and handling the units after that
comes to the same (`Interprets.drain`).
-/

namespace Stream.Consumer

open Cpp

variable {ε φ σ τ α β γ : Type*}

/-- The units one after another, up to the first that does not return. -/
def handleAll (handle : β → τ → Outcome ε φ τ) : List β → τ → Outcome ε φ τ
  | [], t => .ok t
  | x :: xs, t => (handle x t).andThen (handleAll handle xs)

/-- From the states in `I` on, a pass of the loop handles the unit that stands first. -/
structure Interprets (c : Consumer ε φ σ) (F : Framing α β γ) (phase : σ → γ) (buffer : σ → List α)
    (forget : σ → τ) (handle : β → τ → Outcome ε φ τ) (I : σ → Prop) : Prop where
  waits : ∀ {s}, I s → c.pass s = none → F.next (phase s) (buffer s) = none
  takes : ∀ {s o}, I s → c.pass s = some o → ∃ x q rest,
    F.next (phase s) (buffer s) = some (x, q, rest) ∧ o.map forget = handle x (forget s) ∧
      ∀ s', o = .ok s' → I s' ∧ phase s' = q ∧ buffer s' = rest

variable {c : Consumer ε φ σ} {F : Framing α β γ} {phase : σ → γ} {buffer : σ → List α}
  {forget : σ → τ} {handle : β → τ → Outcome ε φ τ} {I : σ → Prop}

theorem handleAll_append (xs ys : List β) (t : τ) : handleAll handle (xs ++ ys) t =
    (handleAll handle xs t).andThen (handleAll handle ys) := by
  induction xs generalizing t with
  | nil => rfl
  | cons x xs ih =>
      rw [List.cons_append, handleAll, handleAll]
      cases handle x t with
      | ok t1 => exact ih t1
      | throw e t1 => rfl
      | fault u => rfl

/-- The loop does what its units do one after another.  If it returns, what is left of the buffer is
what the units leave. -/
theorem Interprets.drain (h : c.Interprets F phase buffer forget handle I) {s : σ} (hs : I s) :
    (c.drain s).map forget = handleAll handle (F.units (phase s) (buffer s)).1 (forget s) ∧
      ∀ s', c.drain s = .ok s' → I s' ∧ (F.units (phase s) (buffer s)).2 = (phase s', buffer s') := by
  induction s using drain_induction (c := c) with
  | step s ih =>
      cases hp : c.pass s with
      | none =>
          rw [drain_of_none hp, Framing.units_of_none (h.waits hs hp)]
          refine ⟨rfl, fun s' hok => ?_⟩
          cases hok
          exact ⟨hs, rfl⟩
      | some o =>
          obtain ⟨x, q, rest, hnext, hhandle, hok⟩ := h.takes hs hp
          rw [drain_of_some hp, Framing.units_of_some hnext]
          simp only [handleAll]
          rw [← hhandle]
          cases o with
          | ok s1 =>
              obtain ⟨hs1, rfl, rfl⟩ := hok s1 rfl
              exact ih s1 hp hs1
          | throw e s1 => exact ⟨rfl, fun s' h => by cases h⟩
          | fault u => exact ⟨rfl, fun s' h => by cases h⟩

end Stream.Consumer
