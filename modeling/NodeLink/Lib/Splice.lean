import Mathlib.Data.List.Basic
import Mathlib.Data.List.TakeDrop

/-!
# Overwriting part of a list

`overwrite c off b` replaces the elements of `c` from position `off` on by `b`.
The lemmas are about the case a buffer is filled from the left: what is written
so far is a prefix, the rest is padding, and the next block goes right behind
the prefix.
-/

namespace Splice

variable {α : Type*}

/-- `c` with the elements from `off` on replaced by those of `b`. -/
def overwrite (c : List α) (off : Nat) (b : List α) : List α :=
  c.take off ++ b ++ c.drop (off + b.length)

/-- Inside the list, the length does not change. -/
@[simp] theorem overwrite_length {c : List α} {off : Nat} {b : List α}
    (h : off + b.length ≤ c.length) : (overwrite c off b).length = c.length := by
  simp only [overwrite, List.length_append, List.length_take, List.length_drop]
  omega

/-- Writing nothing changes nothing. -/
@[simp] theorem overwrite_nil (c : List α) (off : Nat) : overwrite c off [] = c := by
  simp [overwrite]

/-- The next block behind a prefix, over padding. -/
theorem overwrite_append_replicate (p b : List α) (x : α) (n : Nat) :
    overwrite (p ++ List.replicate n x) p.length b =
      p ++ b ++ List.replicate (n - b.length) x := by
  simp only [overwrite]
  rw [List.take_append_of_le_length (Nat.le_refl _), List.take_length,
    List.drop_append, List.drop_replicate, List.drop_eq_nil_of_le (by omega)]
  simp only [List.nil_append, Nat.add_sub_cancel_left]

/-- Writing at the end appends. -/
theorem overwrite_end (c b : List α) : overwrite c c.length b = c ++ b := by
  simp only [overwrite]
  rw [List.take_length, List.drop_eq_nil_of_le (by omega), List.append_nil]

end Splice
