import NodeLink.Lib.Percent
import NodeLink.Tracker.Url

/-!
# Percent-encoding, as `UrlEncode` does it

The stream keeps its fill character and its base from byte to byte, and has no
width between two rounds (`encodeByte_eq`).  So `urlEncode` writes each byte as
`escape` of it, and what holds of encoders that write a byte as itself or as its
triple holds of `urlEncode` (`urlEncode_correct`).
-/

namespace NodeLink

namespace Tracker

open Percent

variable {o : OStringStream} {c : UInt8}

/-- What a round of the loop writes. -/
def escape (c : UInt8) : Str :=
  if isKept c then [c]
  else 37 :: (List.replicate (2 - (OStringStream.hexString c.toNat).length) 48 ++
    OStringStream.hexString c.toNat)

/-- The state of the stream between two rounds. -/
structure Between (o : OStringStream) : Prop where
  fill : o.fill = 48
  hex : o.hex = true
  width : o.width = 0

/-- A round appends what the byte is written as, and leaves the format as it was. -/
theorem encodeByte_eq (h : Between o) (c : UInt8) :
    encodeByte o c = { o with str := o.str ++ escape c } := by
  obtain ⟨str, fill, hex, width⟩ := o
  obtain ⟨rfl, rfl, rfl⟩ : fill = 48 ∧ hex = true ∧ width = 0 := ⟨h.fill, h.hex, h.width⟩
  rw [encodeByte, escape]
  split
  next =>
    simp only [OStringStream.putChar, OStringStream.put, Nat.zero_sub, List.replicate_zero,
      List.append_nil]
  next =>
    simp only [OStringStream.putChar, OStringStream.putNat, OStringStream.setw, OStringStream.put,
      if_true, Nat.zero_sub, List.replicate_zero, List.append_nil, List.append_assoc,
      List.nil_append, List.cons_append]

theorem foldl_encodeByte (h : Between o) (b : Buffer) :
    b.foldl encodeByte o = { o with str := o.str ++ b.flatMap escape } := by
  induction b generalizing o with
  | nil => rw [List.foldl_nil, List.flatMap_nil, List.append_nil]
  | cons c b ih =>
      have hnext : Between { o with str := o.str ++ escape c } := ⟨h.fill, h.hex, h.width⟩
      rw [List.foldl_cons, encodeByte_eq h, ih hnext, List.flatMap_cons, List.append_assoc]

theorem urlEncode_eq (b : Buffer) : urlEncode b = b.flatMap escape := by
  rw [urlEncode, foldl_encodeByte ⟨rfl, rfl, rfl⟩]
  rfl

/-! ## One byte -/

theorem unreserved_of_isKept (h : isKept c = true) : Unreserved c := by
  simp only [isKept, isAlnum, isDigit, Bool.or_eq_true, Bool.and_eq_true, decide_eq_true_eq,
    beq_iff_eq] at h
  rw [Unreserved]
  tauto

/-- The character of a hexadecimal digit, as the stream writes it. -/
def hexChar (n : Nat) : UInt8 := UInt8.ofNat (Nat.digitChar n).toNat

theorem hexValue_hexChar {n : Nat} (h : n < 16) : hexValue (hexChar n) = some n := by
  have hall : ∀ n < 16, hexValue (hexChar n) = some n := by decide
  exact hall n h

/-- Two digits, high one first, whether or not the stream fills up. -/
theorem escape_of_not_isKept (h : isKept c = false) :
    escape c = [37, hexChar (c.toNat / 16), hexChar (c.toNat % 16)] := by
  have hlt := c.toNat_lt
  have hbase : 1 < 16 := by decide
  rw [escape, h, if_neg Bool.false_ne_true, OStringStream.hexString]
  by_cases hsmall : c.toNat < 16
  · rw [Nat.toDigits_of_lt_base hsmall, Nat.div_eq_of_lt hsmall, Nat.mod_eq_of_lt hsmall]
    rfl
  · have hdiv : c.toNat / 16 < 16 := by omega
    rw [Nat.toDigits_of_base_le hbase (Nat.le_of_not_lt hsmall), Nat.toDigits_of_lt_base hdiv]
    rfl

theorem escapes_escape : Escapes escape := by
  intro c
  cases h : isKept c with
  | true => exact .inl ⟨by rw [escape, h, if_pos rfl], unreserved_of_isKept h⟩
  | false =>
      have hlt := c.toNat_lt
      have hvalue : c = UInt8.ofNat (16 * (c.toNat / 16) + c.toNat % 16) := by
        rw [Nat.div_add_mod]
        exact UInt8.ofNat_toNat.symm
      exact .inr ⟨_, _, _, _, escape_of_not_isKept h, hexValue_hexChar (by omega),
        hexValue_hexChar (Nat.mod_lt _ (by decide)), hvalue⟩

/-! ## The whole string -/

theorem decode_urlEncode (b : Buffer) : decode (urlEncode b) = some b := by
  rw [urlEncode_eq, decode_flatMap escapes_escape]

theorem escaped_urlEncode (b : Buffer) : Escaped (urlEncode b) := by
  rw [urlEncode_eq]
  exact escaped_flatMap escapes_escape b

theorem not_reserved_of_mem_urlEncode {b : Buffer} (hc : c ∈ urlEncode b) : ¬ Reserved c := by
  obtain hu | rfl := (escaped_urlEncode b).mem hc
  · exact not_reserved_of_unreserved hu
  · decide

/-- `UrlEncode` writes unreserved characters and triples only, and is undone by percent-decoding:
it is injective, and no delimiter is in what it writes. -/
theorem urlEncode_correct :
    (∀ b : Buffer, Escaped (urlEncode b) ∧ decode (urlEncode b) = some b ∧
      ∀ c ∈ urlEncode b, ¬ Reserved c) ∧
    Function.Injective urlEncode := by
  refine ⟨fun b => ⟨escaped_urlEncode b, decode_urlEncode b, fun _ hc =>
    not_reserved_of_mem_urlEncode hc⟩, fun b b' h => ?_⟩
  have hb := decode_urlEncode b
  rw [h, decode_urlEncode] at hb
  exact (Option.some.inj hb).symm

end Tracker

end NodeLink
