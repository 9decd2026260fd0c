import Mathlib.Data.List.Basic
import Mathlib.Data.List.TakeDrop
import Mathlib.Algebra.BigOperators.Group.List.Basic
import Mathlib.Tactic.Ring

/-!
# Cutting a length into tiles

A length `n` cut into tiles of `p` has `count n p` tiles.  All are full but the
last, which holds what is left.  `tile l p i` is the `i`-th tile of a list.

The tiles are not empty (`size_pos`), lie side by side (`offset_add_size`,
`offset_add_size_le`), and cover the whole (`le_count_mul`, `sum_size`).  One
more tile behind the first tiles of a list is a longer start of it
(`take_append_tile`).
-/

namespace Tiling

/-- The number of tiles: `n / p`, rounded up. -/
def count (n p : Nat) : Nat := (n + p - 1) / p

/-- The size of tile `i`. -/
def size (n p i : Nat) : Nat := min p (n - i * p)

/-- Tile `i` of a list. -/
def tile {α : Type*} (l : List α) (p i : Nat) : List α := (l.drop (i * p)).take p

variable {n p i : Nat}

/-- A tile is there exactly if it starts before the end. -/
theorem lt_count_iff (hp : 0 < p) : i < count n p ↔ i * p < n := by
  simp only [count]
  rw [Nat.lt_div_iff_mul_lt hp]
  omega

theorem size_pos (hp : 0 < p) (h : i < count n p) : 0 < size n p i := by
  have := (lt_count_iff hp).mp h
  simp only [size]
  omega

theorem size_le : size n p i ≤ p := Nat.min_le_left _ _

/-- A tile with another one behind it is full. -/
theorem size_of_succ_lt (hp : 0 < p) (h : i + 1 < count n p) : size n p i = p := by
  have h1 := (lt_count_iff hp).mp h
  rw [Nat.add_mul, Nat.one_mul] at h1
  simp only [size]
  omega

/-- A tile with another one behind it ends where that one starts. -/
theorem offset_add_size (hp : 0 < p) (h : i + 1 < count n p) :
    i * p + size n p i = (i + 1) * p := by
  rw [size_of_succ_lt hp h, Nat.add_mul, Nat.one_mul]

/-- Every tile ends inside the length. -/
theorem offset_add_size_le (hp : 0 < p) (h : i < count n p) : i * p + size n p i ≤ n := by
  have := (lt_count_iff hp).mp h
  simp only [size]
  omega

/-- The last tile ends where the length does. -/
theorem offset_add_size_last (hp : 0 < p) (h : i + 1 = count n p) : i * p + size n p i = n := by
  have h1 := (lt_count_iff (n := n) (i := i) hp).mp (by omega)
  have h2 := mt (lt_count_iff (n := n) (i := i + 1) hp).mpr (by omega)
  rw [Nat.add_mul, Nat.one_mul] at h2
  simp only [size]
  omega

/-- The size of the last tile is the remainder, or a full tile when there is none. -/
theorem size_last (hp : 0 < p) (h : i + 1 = count n p) :
    size n p i = if n % p = 0 then p else n % p := by
  have hend := offset_add_size_last hp h
  have hpos := size_pos hp (show i < count n p by omega)
  have hle := size_le (n := n) (p := p) (i := i)
  have hmod : n % p = size n p i % p := by
    conv_lhs => rw [← hend]
    exact Nat.mul_add_mod_self_right i p _
  rw [hmod]
  by_cases hf : size n p i = p
  · rw [hf, Nat.mod_self, if_pos rfl]
  · rw [Nat.mod_eq_of_lt (by omega), if_neg (by omega)]

theorem count_pos_iff (hp : 0 < p) : 0 < count n p ↔ 0 < n := by
  rw [lt_count_iff hp, Nat.zero_mul]

/-- The tiles reach to the end. -/
theorem le_count_mul (hp : 0 < p) : n ≤ count n p * p := by
  have h := mt (lt_count_iff (n := n) (i := count n p) hp).mpr (lt_irrefl _)
  omega

/-- The first `k` tiles cover `k * p`, or everything. -/
theorem sum_size_range (k : Nat) :
    ((List.range k).map (size n p)).sum = min (k * p) n := by
  induction k with
  | zero => simp
  | succ k ih =>
      rw [List.range_succ, List.map_append, List.sum_append, ih]
      simp only [List.map_cons, List.map_nil, List.sum_cons, List.sum_nil, size]
      rw [Nat.add_mul, Nat.one_mul]
      omega

/-- The sizes of the tiles sum to the length. -/
theorem sum_size (hp : 0 < p) : ((List.range (count n p)).map (size n p)).sum = n := by
  rw [sum_size_range, Nat.min_eq_right (le_count_mul hp)]

/-! ## Tiles of a list -/

variable {α : Type*}

@[simp] theorem tile_length (l : List α) (p i : Nat) : (tile l p i).length = size l.length p i := by
  simp only [tile, size]
  rw [List.length_take, List.length_drop]

/-- One more tile behind the first `i`. -/
theorem take_append_tile (l : List α) (p i : Nat) :
    l.take (i * p) ++ tile l p i = l.take ((i + 1) * p) := by
  rw [tile, Nat.add_mul, Nat.one_mul, List.take_add]

end Tiling
