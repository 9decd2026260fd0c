import Mathlib.Logic.Function.Basic
import NodeLink.Lib.Splice

/-!
# Blocks in slots

A list that grows when something is written behind its end (`put`), seen as a row
of slots of one size.  A block goes to the start of a slot and does not reach the
next one.  Then it overwrites only what was in its own slot: `Shows` says that
the list holds, in every slot, the block written there last, or filler where
none was written (`Shows.put`).
-/

namespace Slots

variable {α : Type*} {z : α} {l b : List α} {off i n k : Nat}

/-- `l` with `b` from `off` on, and `z` in the gap if `l` ends before `off`. -/
def put (z : α) (l : List α) (off : Nat) (b : List α) : List α :=
  Splice.overwrite (l ++ List.replicate (off - l.length) z) off b

theorem put_length : (put z l off b).length = max l.length (off + b.length) := by
  simp only [put, Splice.overwrite, List.length_append, List.length_take, List.length_drop,
    List.length_replicate]
  omega

theorem put_getElem?_of_lt (h : i < b.length) : (put z l off b)[off + i]? = b[i]? := by
  have hpad : off ≤ (l ++ List.replicate (off - l.length) z).length := by
    rw [List.length_append, List.length_replicate]
    omega
  simp only [put, Splice.overwrite]
  rw [List.append_assoc, List.getElem?_append_right (by rw [List.length_take]; omega),
    List.length_take, Nat.min_eq_left hpad, Nat.add_sub_cancel_left, List.getElem?_append_left h]

/-- Outside the block nothing changes inside the list, and filler comes up behind its end. -/
theorem put_getElem?_of_outside (h : i < off ∨ off + b.length ≤ i) :
    (put z l off b)[i]? = if i < l.length then l[i]? else if i < off then some z else none := by
  have hpad : off ≤ (l ++ List.replicate (off - l.length) z).length := by
    rw [List.length_append, List.length_replicate]
    omega
  have hall : (l ++ List.replicate (off - l.length) z)[i]? =
      if i < l.length then l[i]? else if i < off then some z else none := by
    split
    · exact List.getElem?_append_left ‹_›
    · rw [List.getElem?_append_right (by omega), List.getElem?_replicate]
      split <;> split <;> first | rfl | omega
  simp only [put, Splice.overwrite]
  rw [← hall]
  rcases h with h | h
  · rw [List.append_assoc, List.getElem?_append_left (by rw [List.length_take]; omega),
      List.getElem?_take_of_lt h]
  · have hlen : (List.take off (l ++ List.replicate (off - l.length) z) ++ b).length =
        off + b.length := by
      rw [List.length_append, List.length_take]
      omega
    rw [List.getElem?_append_right (by omega), hlen, List.getElem?_drop]
    congr 1
    omega

/-! ## What stands where -/

/-- The block stands in the list, from `off` on. -/
def Stands (l : List α) (off : Nat) (b : List α) : Prop := ∀ i < b.length, l[off + i]? = b[i]?

/-- There is nothing but filler from `off` on, for `n` elements. -/
def Blank (z : α) (l : List α) (off n : Nat) : Prop :=
  ∀ i < n, l[off + i]? = some z ∨ l[off + i]? = none

theorem stands_put (z : α) (l : List α) (off : Nat) (b : List α) : Stands (put z l off b) off b :=
  fun _ hi => put_getElem?_of_lt hi

theorem Stands.length_le (h : Stands l off b) (hb : b ≠ []) : off + b.length ≤ l.length := by
  have hpos := List.length_pos_iff.mpr hb
  have hlast := h (b.length - 1) (by omega)
  rw [List.getElem?_eq_getElem (show b.length - 1 < b.length by omega)] at hlast
  have := (List.getElem?_eq_some_iff.mp hlast).1
  omega

theorem Stands.put {b' : List α} {off' : Nat} (h : Stands l off b)
    (hd : off + b.length ≤ off' ∨ off' + b'.length ≤ off) : Stands (put z l off' b') off b := by
  intro i hi
  have hin := h i hi
  have hlt : off + i < l.length := by
    rw [List.getElem?_eq_getElem hi] at hin
    exact (List.getElem?_eq_some_iff.mp hin).1
  rw [put_getElem?_of_outside (by omega), if_pos hlt, hin]

theorem Blank.put {b' : List α} {off' : Nat} (h : Blank z l off n)
    (hd : off + n ≤ off' ∨ off' + b'.length ≤ off) : Blank z (Slots.put z l off' b') off n := by
  intro i hi
  rw [put_getElem?_of_outside (by omega)]
  split
  · exact h i hi
  · split
    · exact .inl rfl
    · exact .inr rfl

/-! ## Slots -/

/-- In slot `k` of size `n` the list holds the block `σ k`, or filler. -/
def ShowsAt (z : α) (n : Nat) (l : List α) (k : Nat) : Option (List α) → Prop
  | some b => Stands l (k * n) b
  | none => Blank z l (k * n) n

/-- The list holds in every slot what the store holds for it. -/
def Shows (z : α) (n : Nat) (σ : Nat → Option (List α)) (l : List α) : Prop :=
  ∀ k, ShowsAt z n l k (σ k)

variable {σ : Nat → Option (List α)}

theorem shows_nil (z : α) (n : Nat) : Shows z n (fun _ => none) [] := fun _ _ _ => .inr rfl

/-- Two slots do not overlap. -/
theorem slots_disjoint {k k' : Nat} (h : k ≠ k') (n : Nat) :
    k * n + n ≤ k' * n ∨ k' * n + n ≤ k * n := by
  rcases Nat.lt_or_gt_of_ne h with hlt | hlt
  · exact .inl ((Nat.succ_mul k n) ▸ Nat.mul_le_mul_right n hlt)
  · exact .inr ((Nat.succ_mul k' n) ▸ Nat.mul_le_mul_right n hlt)

/-- No block is larger than a slot. -/
def Fits (n : Nat) (σ : Nat → Option (List α)) : Prop := ∀ k b, σ k = some b → b.length ≤ n

theorem Fits.update (h : Fits n σ) (hb : b.length ≤ n) :
    Fits n (Function.update σ k (some b)) := by
  intro k' b' hk'
  by_cases hk : k' = k
  · subst hk
    rw [Function.update_self] at hk'
    exact Option.some.inj hk' ▸ hb
  · rw [Function.update_of_ne hk] at hk'
    exact h k' b' hk'

/-- A block put at the start of a slot takes the place of what was in that slot. -/
theorem Shows.put (h : Shows z n σ l) (hf : Fits n σ) (hb : b.length ≤ n) :
    Shows z n (Function.update σ k (some b)) (Slots.put z l (k * n) b) := by
  intro k'
  by_cases hk : k' = k
  · subst hk
    rw [Function.update_self]
    exact stands_put z l _ b
  · rw [Function.update_of_ne hk]
    have hd := slots_disjoint hk n
    have hk' := h k'
    cases hσ : σ k' with
    | none =>
        rw [hσ] at hk'
        exact Blank.put hk' (by omega)
    | some b' =>
        rw [hσ] at hk'
        have := hf k' b' hσ
        exact Stands.put hk' (by omega)

/-- An empty block stands anywhere. -/
theorem Shows.update_nil (h : Shows z n σ l) : Shows z n (Function.update σ k (some [])) l := by
  intro k'
  by_cases hk : k' = k
  · subst hk
    rw [Function.update_self]
    exact fun i hi => absurd hi (Nat.not_lt_zero i)
  · rw [Function.update_of_ne hk]
    exact h k'

end Slots
