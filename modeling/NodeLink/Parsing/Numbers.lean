import Mathlib.Data.List.Induction
import Mathlib.Data.List.TakeWhile
import NodeLink.Parsing.Bnode

/-!
# Decimal numbers

A `Numeral` is a decimal number without leading zeros.  The numerals are exactly
the strings `std::to_string` prints (`numeral_toStringNat` and
`Numeral.eq_toStringNat`), and `std::stoll` reads each of them back.

A `StrictInt` is a number of the `int64_t` range as bencode spells it: no plus
sign, no leading zeros and no negative zero.  Those are the strings
`std::to_string` prints for an `int64_t`.
-/

namespace NodeLink

/-! ## The digits `std::to_string` prints -/

theorem toStringNat_of_lt {n : Nat} (h : n < 10) : toStringNat n = [UInt8.ofNat (48 + n)] := by
  simp only [toStringNat]
  rw [Nat.toDigits_of_lt_base h]
  simp [Nat.toNat_digitChar_of_lt_ten h]

theorem toStringNat_of_ge {n : Nat} (h : 10 ≤ n) :
    toStringNat n = toStringNat (n / 10) ++ [UInt8.ofNat (48 + n % 10)] := by
  simp only [toStringNat]
  rw [Nat.toDigits_of_base_le (by decide) h]
  simp [Nat.toNat_digitChar_of_lt_ten (Nat.mod_lt n (by decide : 0 < 10))]

theorem isDigit_iff {c : UInt8} : isDigit c = true ↔ 48 ≤ c.toNat ∧ c.toNat ≤ 57 := by
  simp [isDigit, UInt8.le_iff_toNat_le]

theorem toNat_ofNat_digit {d : Nat} (h : d < 10) : (UInt8.ofNat (48 + d)).toNat = 48 + d := by
  rw [UInt8.toNat_ofNat']
  omega

theorem isDigit_ofNat {d : Nat} (h : d < 10) : isDigit (UInt8.ofNat (48 + d)) = true := by
  rw [isDigit_iff, toNat_ofNat_digit h]
  omega

/-- A digit is the byte of the value it stands for. -/
theorem ofNat_digit {c : UInt8} (h : isDigit c = true) : UInt8.ofNat (48 + (c.toNat - 48)) = c := by
  rw [isDigit_iff] at h
  rw [Nat.add_sub_cancel' h.1, UInt8.ofNat_toNat]

@[simp] theorem digitsValue_nil : digitsValue [] = 0 := rfl

@[simp] theorem digitsValue_concat (s : Str) (c : UInt8) :
    digitsValue (s ++ [c]) = 10 * digitsValue s + (c.toNat - 48) := by
  simp [digitsValue]

/-! ## Numerals -/

/-- A decimal number without leading zeros. -/
structure Numeral (s : Str) : Prop where
  ne_nil : s ≠ []
  digits : ∀ c ∈ s, isDigit c = true
  leading : s.head? = some 48 → s = [48]

theorem Numeral.singleton {c : UInt8} (h : isDigit c = true) : Numeral [c] where
  ne_nil := List.cons_ne_nil c []
  digits b hb := by
    rw [List.mem_singleton] at hb
    rw [hb]
    exact h
  leading hc := by
    rw [List.head?_cons, Option.some.injEq] at hc
    rw [hc]

/-- A numeral other than zero goes on with any digit. -/
theorem Numeral.concat {s : Str} {c : UInt8} (hs : Numeral s) (h0 : s ≠ [48])
    (hc : isDigit c = true) : Numeral (s ++ [c]) where
  ne_nil := List.append_ne_nil_of_right_ne_nil s (List.cons_ne_nil c [])
  digits b hb := by
    rcases List.mem_append.mp hb with hb | hb
    · exact hs.digits b hb
    · rw [List.mem_singleton.mp hb]
      exact hc
  leading hd := by
    rw [List.head?_append_of_ne_nil s hs.ne_nil] at hd
    exact absurd (hs.leading hd) h0

/-- Without its last digit a longer numeral is a numeral other than zero. -/
theorem Numeral.of_concat {s : Str} {c : UInt8} (h : Numeral (s ++ [c])) (hs : s ≠ []) :
    Numeral s ∧ s ≠ [48] := by
  have hhead : s.head? ≠ some 48 := by
    intro hh
    have hl := h.leading (by rw [List.head?_append_of_ne_nil s hs]; exact hh)
    have hlen := congrArg List.length hl
    rw [List.length_append, List.length_singleton, List.length_singleton] at hlen
    exact hs (List.length_eq_zero_iff.mp (by omega))
  refine ⟨⟨hs, fun b hb => h.digits b (List.mem_append_left _ hb), fun hh => absurd hh hhead⟩, ?_⟩
  rintro rfl
  exact hhead rfl

/-- Only the numeral zero has the value zero. -/
theorem Numeral.value_pos {s : Str} (h : Numeral s) (h0 : s ≠ [48]) : 0 < digitsValue s := by
  induction s using List.reverseRecOn with
  | nil => exact absurd rfl h.ne_nil
  | append_singleton t c ih =>
      rw [digitsValue_concat]
      by_cases ht : t = []
      · subst ht
        have hc := h.digits c (List.mem_singleton_self c)
        rw [isDigit_iff] at hc
        have hne : c.toNat ≠ 48 := by
          intro e
          have hc48 : c = 48 := UInt8.toNat_inj.mp e
          exact h0 (by rw [hc48]; rfl)
        omega
      · obtain ⟨h1, h2⟩ := h.of_concat ht
        have := ih h1 h2
        omega

/-- What `std::to_string` prints is a numeral of the number. -/
theorem numeral_toStringNat (n : Nat) :
    Numeral (toStringNat n) ∧ digitsValue (toStringNat n) = n := by
  induction n using Nat.strongRecOn with
  | ind n ih =>
      rcases Nat.lt_or_ge n 10 with hn | hn
      · rw [toStringNat_of_lt hn]
        refine ⟨.singleton (isDigit_ofNat hn), ?_⟩
        rw [show [UInt8.ofNat (48 + n)] = [] ++ [UInt8.ofNat (48 + n)] from rfl,
          digitsValue_concat, toNat_ofNat_digit hn]
        simp
      · have hd : n % 10 < 10 := Nat.mod_lt n (by decide)
        obtain ⟨h1, h2⟩ := ih (n / 10) (Nat.div_lt_self (by omega) (by decide))
        rw [toStringNat_of_ge hn, digitsValue_concat, toNat_ofNat_digit hd, h2]
        refine ⟨h1.concat ?_ (isDigit_ofNat hd), by omega⟩
        intro h48
        rw [h48] at h2
        have : digitsValue [48] = 0 := rfl
        omega

/-- A numeral is what `std::to_string` prints of its value. -/
theorem Numeral.eq_toStringNat {s : Str} (h : Numeral s) : s = toStringNat (digitsValue s) := by
  induction s using List.reverseRecOn with
  | nil => exact absurd rfl h.ne_nil
  | append_singleton t c ih =>
      have hc := h.digits c (List.mem_append_right t (List.mem_singleton_self c))
      have hv := isDigit_iff.mp hc
      rw [digitsValue_concat]
      by_cases ht : t = []
      · subst ht
        rw [digitsValue_nil, Nat.mul_zero, Nat.zero_add, toStringNat_of_lt (by omega),
          ofNat_digit hc]
        rfl
      · obtain ⟨h1, h2⟩ := h.of_concat ht
        have hpos := h1.value_pos h2
        rw [toStringNat_of_ge (by omega)]
        rw [show (10 * digitsValue t + (c.toNat - 48)) / 10 = digitsValue t by omega,
          show (10 * digitsValue t + (c.toNat - 48)) % 10 = c.toNat - 48 by omega,
          ofNat_digit hc, ← ih h1]

@[simp] theorem digitsValue_toStringNat (n : Nat) : digitsValue (toStringNat n) = n :=
  (numeral_toStringNat n).2

theorem toStringNat_ne_nil (n : Nat) : toStringNat n ≠ [] := (numeral_toStringNat n).1.ne_nil

theorem isDigit_toStringNat {n : Nat} {c : UInt8} (h : c ∈ toStringNat n) : isDigit c = true :=
  (numeral_toStringNat n).1.digits c h

/-- A byte that is no digit is not printed. -/
theorem not_mem_toStringNat {c : UInt8} (h : isDigit c = false) (n : Nat) : c ∉ toStringNat n := by
  intro hc
  rw [isDigit_toStringNat hc] at h
  cases h

/-! ## What `std::stoll` reads -/

/-- A digit is neither a blank nor a sign. -/
theorem isDigit_facts {c : UInt8} (h : isDigit c = true) :
    isSpace c = false ∧ c ≠ 45 ∧ c ≠ 43 ∧ c ≠ 58 ∧ c ≠ 101 ∧ c ≠ 105 ∧ c ≠ 108 ∧ c ≠ 100 := by
  rw [isDigit_iff] at h
  refine ⟨?_, ?_⟩
  · simp only [isSpace, Bool.or_eq_false_iff, Bool.and_eq_false_iff, beq_eq_false_iff_ne,
      decide_eq_false_iff_not, UInt8.le_iff_toNat_le]
    refine ⟨?_, .inr ?_⟩
    · rintro rfl
      exact absurd h.1 (by decide)
    · intro hc
      exact absurd (h.1.trans hc) (by decide)
  · refine ⟨?_, ?_, ?_, ?_, ?_, ?_, ?_⟩ <;> rintro rfl <;> revert h <;> decide

/-- The value `std::stoll` gives to digits behind a sign. -/
def signedValue (neg : Bool) (ds : Str) : Int :=
  if neg then -(digitsValue ds : Int) else digitsValue ds

/-- `std::stoll` on the digits `strtoll` finds. -/
theorem stoll_eq {s rest ds : Str} {neg : Bool} (hs : takeSign (s.dropWhile isSpace) = (neg, rest))
    (hd : rest.takeWhile isDigit = ds) (hne : ds ≠ []) (hlo : -2 ^ 63 ≤ signedValue neg ds)
    (hhi : signedValue neg ds < 2 ^ 63) : stoll s = .ok (Int64.ofInt (signedValue neg ds)) := by
  simp only [stoll]
  rw [hs]
  simp only [hd]
  rw [if_neg hne, if_neg]
  · rfl
  · simp only [signedValue] at hlo hhi
    omega

theorem takeSign_digit {c : UInt8} {s : Str} (h : isDigit c = true) :
    takeSign (c :: s) = (false, c :: s) := by
  obtain ⟨-, h1, h2, -⟩ := isDigit_facts h
  simp only [takeSign]
  split
  · rename_i heq
    exact absurd (List.cons.inj heq).1 h1
  · rename_i heq
    exact absurd (List.cons.inj heq).1 h2
  · rfl

theorem takeWhile_toStringNat (n : Nat) : (toStringNat n).takeWhile isDigit = toStringNat n :=
  List.takeWhile_eq_self_iff.mpr fun _ h => isDigit_toStringNat h

/-- `std::stoll` undoes `std::to_string` of a length. -/
theorem stoll_toStringNat {n : Nat} (h : n < 2 ^ 63) :
    stoll (toStringNat n) = .ok (Int64.ofInt n) := by
  have hval : signedValue false (toStringNat n) = n := by simp [signedValue]
  have hsign : takeSign ((toStringNat n).dropWhile isSpace) = (false, toStringNat n) := by
    cases hs : toStringNat n with
    | nil => exact absurd hs (toStringNat_ne_nil n)
    | cons c s =>
        have hc := isDigit_toStringNat (n := n) (hs ▸ List.mem_cons_self)
        rw [List.dropWhile_cons_of_neg (by simp [(isDigit_facts hc).1]), takeSign_digit hc]
  have := stoll_eq hsign (takeWhile_toStringNat n) (toStringNat_ne_nil n)
    (by rw [hval]; omega) (by rw [hval]; omega)
  rw [hval] at this
  exact this

/-- `std::stoll` undoes `std::to_string` of an `int64_t`. -/
theorem stoll_toStringInt (v : Int64) : stoll (toStringInt v) = .ok v := by
  have hlo := v.minValue_le_toInt
  have hhi := v.toInt_lt
  simp only [toStringInt]
  split
  · rename_i hneg
    have hval : signedValue true (toStringNat v.toInt.natAbs) = v.toInt := by
      simp only [signedValue, if_true, digitsValue_toStringNat]
      omega
    have hsign : takeSign ((45 :: toStringNat v.toInt.natAbs).dropWhile isSpace) =
        (true, toStringNat v.toInt.natAbs) := rfl
    have := stoll_eq hsign (takeWhile_toStringNat _) (toStringNat_ne_nil _)
      (by rw [hval]; exact hlo) (by rw [hval]; exact hhi)
    rw [this, hval, Int64.ofInt_toInt]
  · rename_i hpos
    rw [stoll_toStringNat (by omega), show (v.toInt.natAbs : Int) = v.toInt by omega,
      Int64.ofInt_toInt]

/-! ## The numbers of strict bencode -/

/-- A number of the `int64_t` range: no plus sign, no leading zeros, no negative zero. -/
inductive StrictInt : Str → Prop
  | nonneg {ds : Str} : Numeral ds → digitsValue ds < 2 ^ 63 → StrictInt ds
  | neg {ds : Str} : Numeral ds → ds ≠ [48] → digitsValue ds ≤ 2 ^ 63 → StrictInt (45 :: ds)

theorem strictInt_toStringInt (v : Int64) : StrictInt (toStringInt v) := by
  have hlo : -2 ^ 63 ≤ v.toInt := v.minValue_le_toInt
  have hhi := v.toInt_lt
  obtain ⟨h1, h2⟩ := numeral_toStringNat v.toInt.natAbs
  simp only [toStringInt]
  split
  · refine .neg h1 ?_ (by rw [h2]; omega)
    intro h48
    rw [h48] at h2
    have : digitsValue [48] = 0 := rfl
    omega
  · exact .nonneg h1 (by rw [h2]; omega)

/-- A strict number is what `std::to_string` prints of some `int64_t`. -/
theorem StrictInt.exists_eq {s : Str} (h : StrictInt s) : ∃ v : Int64, s = toStringInt v := by
  cases h with
  | nonneg hn hb =>
      refine ⟨Int64.ofInt (digitsValue s), ?_⟩
      have hv : (Int64.ofInt (digitsValue s)).toInt = digitsValue s := by
        rw [Cpp.toInt_ofInt64]
        omega
      simp only [toStringInt]
      rw [hv, if_neg (by omega), Int.natAbs_natCast]
      exact hn.eq_toStringNat
  | @neg ds hn h0 hb =>
      have hpos := hn.value_pos h0
      refine ⟨Int64.ofInt (-(digitsValue ds : Int)), ?_⟩
      have hv : (Int64.ofInt (-(digitsValue ds : Int))).toInt = -(digitsValue ds : Int) := by
        rw [Cpp.toInt_ofInt64]
        omega
      simp only [toStringInt]
      rw [hv, if_pos (by omega), Int.natAbs_neg, Int.natAbs_natCast, ← hn.eq_toStringNat]

end NodeLink
