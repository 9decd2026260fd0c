import Mathlib.Data.List.Basic

/-!
# The first occurrence

`find` is `std::string::find` for a string: the first index at which it stands.
`find_eq_some_iff` is what it returns, without the recursion.
-/

namespace Cpp

variable {α : Type*} [DecidableEq α] {pat s u v : List α} {c : α} {i : Nat}

/-- The first index at which `pat` stands. -/
def find (pat : List α) : List α → Option Nat
  | [] => if pat = [] then some 0 else none
  | c :: s => if pat <+: c :: s then some 0 else (find pat s).map (· + 1)

theorem find_of_prefix (h : pat <+: s) : find pat s = some 0 := by
  cases s with
  | nil => rw [find, if_pos (List.prefix_nil.mp h)]
  | cons c s => rw [find, if_pos h]

/-- What begins with `c` is not found where there is no `c`. -/
theorem find_of_not_mem (h : c ∉ s) : find (c :: pat) s = none := by
  induction s with
  | nil => rw [find, if_neg (List.cons_ne_nil c pat)]
  | cons a s ih =>
      have hne : ¬ c :: pat <+: a :: s := fun hp =>
        h ((List.cons_prefix_cons.mp hp).1 ▸ List.mem_cons_self)
      rw [find, if_neg hne, ih fun hc => h (List.mem_cons_of_mem a hc)]
      rfl

/-- What begins with `c` is found behind a part without a `c`. -/
theorem find_append (h : c ∉ u) (hv : c :: pat <+: v) :
    find (c :: pat) (u ++ v) = some u.length := by
  induction u with
  | nil => exact find_of_prefix hv
  | cons a u ih =>
      have hne : ¬ c :: pat <+: a :: (u ++ v) := fun hp =>
        h ((List.cons_prefix_cons.mp hp).1 ▸ List.mem_cons_self)
      rw [List.cons_append, find, if_neg hne, ih fun hc => h (List.mem_cons_of_mem a hc)]
      rfl

/-- `find` returns the index of an occurrence that has none before it. -/
theorem find_eq_some_iff :
    find pat s = some i ↔ i ≤ s.length ∧ pat <+: s.drop i ∧ ∀ j < i, ¬ pat <+: s.drop j := by
  induction s generalizing i with
  | nil =>
      rw [find]
      constructor
      · intro h
        split at h
        next hp =>
          cases h
          refine ⟨Nat.le_refl 0, ?_, fun j hj => absurd hj (Nat.not_lt_zero j)⟩
          rw [hp]
          exact List.nil_prefix
        next => cases h
      · rintro ⟨hi, hp, -⟩
        obtain rfl : i = 0 := Nat.le_zero.mp hi
        rw [if_pos (List.prefix_nil.mp hp)]
  | cons c s ih =>
      rw [find]
      split
      next hp =>
        constructor
        · intro h
          cases h
          exact ⟨Nat.zero_le _, hp, fun j hj => absurd hj (Nat.not_lt_zero j)⟩
        · rintro ⟨-, -, hfirst⟩
          cases i with
          | zero => rfl
          | succ i => exact absurd hp (hfirst 0 (Nat.succ_pos i))
      next hp =>
        constructor
        · intro h
          obtain ⟨k, hk, rfl⟩ := Option.map_eq_some_iff.mp h
          obtain ⟨hle, hat, hfirst⟩ := ih.mp hk
          refine ⟨Nat.succ_le_succ hle, hat, fun j hj => ?_⟩
          cases j with
          | zero => exact hp
          | succ j => exact hfirst j (Nat.lt_of_succ_lt_succ hj)
        · rintro ⟨hle, hat, hfirst⟩
          cases i with
          | zero => exact absurd hat hp
          | succ i =>
              have hk : find pat s = some i :=
                ih.mpr ⟨Nat.le_of_succ_le_succ hle, hat, fun j hj =>
                  hfirst (j + 1) (Nat.succ_lt_succ hj)⟩
              rw [hk]
              rfl

end Cpp
