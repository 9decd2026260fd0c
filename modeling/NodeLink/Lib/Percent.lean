import Mathlib.Data.List.Basic

/-!
# Percent-encoding

RFC 3986, over bytes.  `decode` takes `%` and two hexadecimal digits for a byte,
and any other byte for itself.  It fails at a `%` without two digits behind it.

`Escaped` strings are made of unreserved characters and such triples.  An encoder
that writes each byte as one of the two (`Escapes`) writes an `Escaped` string
(`escaped_flatMap`), and is undone by `decode` (`decode_flatMap`).
-/

namespace Percent

/-- `unreserved`: letters, digits, and `-`, `.`, `_`, `~`. -/
def Unreserved (c : UInt8) : Prop :=
  (65 ≤ c ∧ c ≤ 90) ∨ (97 ≤ c ∧ c ≤ 122) ∨ (48 ≤ c ∧ c ≤ 57) ∨
    c = 45 ∨ c = 46 ∨ c = 95 ∨ c = 126

instance (c : UInt8) : Decidable (Unreserved c) :=
  inferInstanceAs (Decidable (_ ∨ _))

/-- `gen-delims`: `:/?#[]@`. -/
def genDelims : List UInt8 := [58, 47, 63, 35, 91, 93, 64]

/-- `sub-delims`: `!$&'()*+,;=`. -/
def subDelims : List UInt8 := [33, 36, 38, 39, 40, 41, 42, 43, 44, 59, 61]

/-- `reserved`. -/
def Reserved (c : UInt8) : Prop := c ∈ genDelims ++ subDelims

instance (c : UInt8) : Decidable (Reserved c) := inferInstanceAs (Decidable (c ∈ _))

/-- The value of a hexadecimal digit, in either case. -/
def hexValue (c : UInt8) : Option Nat :=
  if 48 ≤ c ∧ c ≤ 57 then some (c.toNat - 48)
  else if 65 ≤ c ∧ c ≤ 70 then some (c.toNat - 55)
  else if 97 ≤ c ∧ c ≤ 102 then some (c.toNat - 87)
  else none

/-- The bytes an encoded string stands for. -/
def decode : List UInt8 → Option (List UInt8)
  | [] => some []
  | c :: s =>
      if c = 37 then
        match s with
        | h :: l :: s =>
            match hexValue h, hexValue l with
            | some a, some b => (decode s).map (UInt8.ofNat (16 * a + b) :: ·)
            | _, _ => none
        | _ => none
      else (decode s).map (c :: ·)

/-- Unreserved characters, and `%` with two hexadecimal digits. -/
inductive Escaped : List UInt8 → Prop where
  | nil : Escaped []
  | literal {c : UInt8} {s : List UInt8} : Unreserved c → Escaped s → Escaped (c :: s)
  | triple {h l : UInt8} {a b : Nat} {s : List UInt8} :
      hexValue h = some a → hexValue l = some b → Escaped s → Escaped (37 :: h :: l :: s)

/-- What `decode` computes, as a relation. -/
inductive Decodes : List UInt8 → List UInt8 → Prop where
  | nil : Decodes [] []
  | literal {c : UInt8} {s r : List UInt8} : c ≠ 37 → Decodes s r → Decodes (c :: s) (c :: r)
  | triple {h l : UInt8} {a b : Nat} {s r : List UInt8} :
      hexValue h = some a → hexValue l = some b → Decodes s r →
        Decodes (37 :: h :: l :: s) (UInt8.ofNat (16 * a + b) :: r)

variable {c h l : UInt8} {a b : Nat} {s s' r r' : List UInt8}

/-! ## The decoder -/

theorem decode_cons (hc : c ≠ 37) : decode (c :: s) = (decode s).map (c :: ·) := by
  rw [decode.eq_def]
  exact if_neg hc

theorem decode_triple (hh : hexValue h = some a) (hl : hexValue l = some b) :
    decode (37 :: h :: l :: s) = (decode s).map (UInt8.ofNat (16 * a + b) :: ·) := by
  rw [decode, if_pos rfl]
  simp only [hh, hl]

theorem decodes_of_decode (hs : decode s = some r) : Decodes s r := by
  fun_induction decode s generalizing r with
  | case1 =>
      cases hs
      exact .nil
  | case2 h l s a b hl hh ih =>
      obtain ⟨q, hq, rfl⟩ := Option.map_eq_some_iff.mp hs
      exact .triple hh hl (ih hq)
  | case3 => cases hs
  | case4 => cases hs
  | case5 c s hc ih =>
      obtain ⟨q, hq, rfl⟩ := Option.map_eq_some_iff.mp hs
      exact .literal hc (ih hq)

theorem Decodes.decode_eq (hs : Decodes s r) : decode s = some r := by
  induction hs with
  | nil => rfl
  | literal hc _ ih =>
      rw [decode_cons hc, ih]
      rfl
  | triple hh hl _ ih =>
      rw [decode_triple hh hl, ih]
      rfl

/-- A part that is decoded is decoded in front of anything. -/
theorem Decodes.append (hs : Decodes s r) (s' : List UInt8) :
    decode (s ++ s') = (decode s').map (r ++ ·) := by
  induction hs with
  | nil => exact Option.map_id'.symm
  | literal hc _ ih =>
      rw [List.cons_append, decode_cons hc, ih, Option.map_map]
      rfl
  | triple hh hl _ ih =>
      rw [List.cons_append, List.cons_append, List.cons_append, decode_triple hh hl, ih,
        Option.map_map]
      rfl

/-- What is appended to a string that is decoded makes a difference. -/
theorem eq_nil_of_decode_append (hs : decode s = some r) (h : decode (s ++ s') = some r) :
    s' = [] := by
  rw [(decodes_of_decode hs).append] at h
  obtain ⟨q, hq, hr⟩ := Option.map_eq_some_iff.mp h
  obtain rfl : q = [] := List.append_cancel_left (hr.trans (List.append_nil r).symm)
  cases decodes_of_decode hq
  rfl

/-- A string without a `%` stands for itself. -/
theorem decode_of_not_mem (hs : 37 ∉ s) : decode s = some s := by
  induction s with
  | nil => rfl
  | cons c s ih =>
      have hc : c ≠ 37 := fun hc => hs (hc ▸ List.mem_cons_self)
      rw [decode_cons hc, ih fun h => hs (List.mem_cons_of_mem c h)]
      rfl

/-- Each `%` makes the decoded string shorter by two. -/
theorem Decodes.length_add (hs : Decodes s r) : r.length + 2 * s.count 37 ≤ s.length := by
  induction hs with
  | nil => exact Nat.le_refl 0
  | literal hc _ ih =>
      rw [List.count_cons_of_ne hc, List.length_cons, List.length_cons]
      omega
  | @triple h l a b s r hh hl _ ih =>
      have hne {c : UInt8} {n : Nat} (hc : hexValue c = some n) : c ≠ 37 := fun h => by
        subst h
        cases hc
      rw [List.count_cons_self, List.count_cons_of_ne (hne hh), List.count_cons_of_ne (hne hl)]
      simp only [List.length_cons]
      omega

/-- Only a string without a `%` stands for itself. -/
theorem decode_eq_self_iff : decode s = some s ↔ 37 ∉ s := by
  refine ⟨fun hs hmem => ?_, decode_of_not_mem⟩
  have hlen := (decodes_of_decode hs).length_add
  have hpos := List.count_pos_iff.mpr hmem
  omega

/-! ## Encoders -/

/-- An encoder that writes a byte as itself or as its triple. -/
def Escapes (f : UInt8 → List UInt8) : Prop :=
  ∀ c, f c = [c] ∧ Unreserved c ∨
    ∃ h l a b, f c = [37, h, l] ∧ hexValue h = some a ∧ hexValue l = some b ∧
      c = UInt8.ofNat (16 * a + b)

variable {f : UInt8 → List UInt8}

theorem escaped_flatMap (hf : Escapes f) (s : List UInt8) : Escaped (s.flatMap f) := by
  induction s with
  | nil => exact .nil
  | cons c s ih =>
      rw [List.flatMap_cons]
      obtain ⟨hc, hu⟩ | ⟨h, l, a, b, hc, hh, hl, -⟩ := hf c
      · rw [hc]
        exact .literal hu ih
      · rw [hc]
        exact .triple hh hl ih

theorem decode_flatMap (hf : Escapes f) (s : List UInt8) : decode (s.flatMap f) = some s := by
  induction s with
  | nil => rfl
  | cons c s ih =>
      rw [List.flatMap_cons]
      obtain ⟨hc, hu⟩ | ⟨h, l, a, b, hc, hh, hl, hv⟩ := hf c
      · have hne : c ≠ 37 := fun h => by
          subst h
          revert hu
          decide
        rw [hc, List.singleton_append, decode_cons hne, ih]
        rfl
      · rw [hc, List.cons_append, List.cons_append, List.singleton_append, decode_triple hh hl, ih,
          ← hv]
        rfl

theorem unreserved_of_hexValue (hh : hexValue h = some a) : Unreserved h := by
  rw [hexValue] at hh
  split at hh
  next hd => exact .inr (.inr (.inl hd))
  next =>
    split at hh
    next hu => exact .inl ⟨hu.1, UInt8.le_trans hu.2 (by decide)⟩
    next =>
      split at hh
      next hd => exact .inr (.inl ⟨hd.1, UInt8.le_trans hd.2 (by decide)⟩)
      next => cases hh

/-- Besides unreserved characters there are only the `%`. -/
theorem Escaped.mem (hs : Escaped s) (hc : c ∈ s) : Unreserved c ∨ c = 37 := by
  induction hs with
  | nil => cases hc
  | literal hu _ ih =>
      obtain rfl | hc := List.mem_cons.mp hc
      · exact .inl hu
      · exact ih hc
  | triple hh hl _ ih =>
      obtain rfl | hc := List.mem_cons.mp hc
      · exact .inr rfl
      obtain rfl | hc := List.mem_cons.mp hc
      · exact .inl (unreserved_of_hexValue hh)
      obtain rfl | hc := List.mem_cons.mp hc
      · exact .inl (unreserved_of_hexValue hl)
      · exact ih hc

theorem not_reserved_of_unreserved (hu : Unreserved c) : ¬ Reserved c := fun hr => by
  have hall : (genDelims ++ subDelims).all (fun d => ¬ Unreserved d) = true := by decide
  exact of_decide_eq_true (List.all_eq_true.mp hall c hr) hu

end Percent
