import Mathlib.Data.Nat.Digits.Lemmas

/-!
# Fields at offsets

A message with a fixed layout is its fields, one behind the other.  Field `k`
starts where the widths of those before it add up to (`slice_flatten`).

`beValue` is the number a field of bytes stands for, high byte first.  Among
fields of one width it determines the bytes (`beValue_inj`).
-/

namespace Layout

variable {α : Type*} {parts : List (List α)} {p : List α} {widths : List Nat} {k : Nat}

/-- The `n` elements from index `i` on. -/
def slice (l : List α) (i n : Nat) : List α := (l.drop i).take n

/-- Where field `k` starts. -/
def offset : List Nat → Nat → Nat
  | w :: widths, k + 1 => w + offset widths k
  | _, _ => 0

theorem slice_append_right (l l' : List α) (i n : Nat) :
    slice (l ++ l') (l.length + i) n = slice l' i n := by
  rw [slice, slice, ← List.drop_drop, List.drop_left]

theorem slice_append_left (l l' : List α) : slice (l ++ l') 0 l.length = l := by
  rw [slice, List.drop_zero, List.take_left]

theorem slice_length {l : List α} {i n : Nat} (h : i + n ≤ l.length) : (slice l i n).length = n := by
  rw [slice, List.length_take, List.length_drop]
  omega

/-- A slice that is one longer has one more element at its end. -/
theorem slice_succ {l : List α} {i n : Nat} {d : α} (h : i + n < l.length) :
    slice l i (n + 1) = slice l i n ++ [l.getD (i + n) d] := by
  rw [slice, slice, List.take_add_one, List.getElem?_drop, List.getD_eq_getElem?_getD,
    List.getElem?_eq_getElem h]
  rfl

/-- A message holds its fields at their offsets. -/
theorem slice_flatten (hw : parts.map List.length = widths) (hp : parts[k]? = some p) :
    slice parts.flatten (offset widths k) (widths.getD k 0) = p := by
  subst hw
  induction parts generalizing k with
  | nil => cases hp
  | cons q parts ih =>
      cases k with
      | zero =>
          cases hp
          exact slice_append_left p parts.flatten
      | succ k =>
          rw [List.flatten_cons, List.map_cons, List.getD_cons_succ, offset, slice_append_right]
          exact ih hp

/-! ## Numbers -/

/-- The number bytes stand for, high byte first. -/
def beValue (b : List UInt8) : Nat := Nat.ofDigits 256 (b.reverse.map UInt8.toNat)

variable {b b' : List UInt8}

theorem beValue_append (b b' : List UInt8) :
    beValue (b ++ b') = beValue b * 256 ^ b'.length + beValue b' := by
  rw [beValue, List.reverse_append, List.map_append, Nat.ofDigits_append, List.length_map,
    List.length_reverse, ← beValue, ← beValue, Nat.mul_comm, Nat.add_comm]

@[simp] theorem beValue_singleton (a : UInt8) : beValue [a] = a.toNat := Nat.ofDigits_singleton

theorem beValue_concat (b : List UInt8) (a : UInt8) :
    beValue (b ++ [a]) = beValue b * 256 + a.toNat := by
  rw [beValue_append, beValue_singleton, List.length_singleton, Nat.pow_one]

theorem beValue_lt (b : List UInt8) : beValue b < 256 ^ b.length := by
  have hlt : ∀ d ∈ b.reverse.map UInt8.toNat, d < 256 := fun d hd => by
    obtain ⟨a, -, rfl⟩ := List.mem_map.mp hd
    exact a.toNat_lt
  have h := Nat.ofDigits_lt_base_pow_length (by decide : 1 < 256) hlt
  rwa [List.length_map, List.length_reverse] at h

/-- The value of a field determines its bytes. -/
theorem beValue_inj (hlen : b.length = b'.length) (h : beValue b = beValue b') : b = b' := by
  have hlt (b : List UInt8) : ∀ d ∈ b.reverse.map UInt8.toNat, d < 256 := fun d hd => by
    obtain ⟨a, -, rfl⟩ := List.mem_map.mp hd
    exact a.toNat_lt
  have hrev : b.reverse.map UInt8.toNat = b'.reverse.map UInt8.toNat :=
    Nat.ofDigits_inj_of_len_eq (by decide) (by simp [hlen]) (hlt b) (hlt b') h
  have hinj : Function.Injective UInt8.toNat := fun _ _ h => UInt8.toNat_inj.mp h
  exact List.reverse_inj.mp (List.map_injective_iff.mpr hinj hrev)

end Layout
