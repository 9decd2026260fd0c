import Mathlib.Algebra.Group.Nat.Defs
import Mathlib.Data.List.Basic
import Mathlib.Data.List.Induction
import Mathlib.Tactic.Ring

/-!
# SHA-1 as FIPS 180-4 defines it

The standard works on a message of bits.  It appends a `1` bit, the least
number of `0` bits that reaches 448 modulo 512, and the length as a 64-bit
big-endian number (section 5.1.1).  The padded message is cut into blocks of
sixteen 32-bit words (5.2.1), each block is expanded to a schedule of 80 words,
and 80 rounds update the five words of the hash value (6.1.2).

Bytes enter most significant bit first, and the digest leaves as twenty bytes,
each word most significant byte first, or as forty hexadecimal digits.

For a message of whole bytes the padding is made of whole bytes too
(`pad_bitsOf`), and a word of a block is read from four of them
(`blockWord_bitsOf`).
-/

namespace Fips180

/-- A 32-bit word of the standard. -/
abbrev Word := BitVec 32

/-- The bits of a byte, most significant first. -/
def bitsOfByte (b : UInt8) : List Bool := (List.range 8).map fun i => b.toNat.testBit (7 - i)

/-- A byte string as the message of bits it stands for. -/
def bitsOf (m : List UInt8) : List Bool := m.flatMap bitsOfByte

/-- The 64-bit big-endian representation of a number. -/
def bits64 (n : Nat) : List Bool := (List.range 64).map fun i => n.testBit (63 - i)

/-- The least `k` with `l + 1 + k ≡ 448 (mod 512)`. -/
def zeroBits (l : Nat) : Nat := (959 - l % 512) % 512

/-- Section 5.1.1: the padded message. -/
def pad (m : List Bool) : List Bool :=
  m ++ true :: (List.replicate (zeroBits m.length) false ++ bits64 m.length)

/-- The number a string of bits stands for, most significant bit first. -/
def numOfBits (bs : List Bool) : Nat := bs.foldl (fun n b => 2 * n + b.toNat) 0

/-- Section 5.2.1: word `t` of block `i` of a padded message. -/
def blockWord (m : List Bool) (i t : Nat) : Word :=
  BitVec.ofNat 32 (numOfBits ((m.drop (512 * i + 32 * t)).take 32))

/-- Section 4.1.1: the functions `f_t`. -/
def f (t : Nat) (x y z : Word) : Word :=
  if t < 20 then (x &&& y) ^^^ (~~~x &&& z)
  else if t < 40 then x ^^^ y ^^^ z
  else if t < 60 then (x &&& y) ^^^ (x &&& z) ^^^ (y &&& z)
  else x ^^^ y ^^^ z

/-- Section 4.2.1: the constants `K_t`. -/
def K (t : Nat) : Word :=
  if t < 20 then 0x5a827999#32 else if t < 40 then 0x6ed9eba1#32
  else if t < 60 then 0x8f1bbcdc#32 else 0xca62c1d6#32

/-- The schedule of a block, extended by `n` words over the block's own words. -/
def scheduleFrom (w : List Word) : Nat → List Word
  | 0 => w
  | n + 1 =>
      let v := scheduleFrom w n
      let t := v.length
      v ++ [(v.getD (t - 3) 0 ^^^ v.getD (t - 8) 0 ^^^ v.getD (t - 14) 0 ^^^
        v.getD (t - 16) 0).rotateLeft 1]

/-- Section 6.1.2, step 1: the schedule of block `i`. -/
def schedule (m : List Bool) (i : Nat) : List Word :=
  scheduleFrom ((List.range 16).map (blockWord m i)) 64

/-- The five words of a hash value, or the five working variables. -/
structure Hash where
  a : Word
  b : Word
  c : Word
  d : Word
  e : Word
deriving DecidableEq, Repr

/-- Section 5.3.1: the initial hash value. -/
def initial : Hash := ⟨0x67452301#32, 0xefcdab89#32, 0x98badcfe#32, 0x10325476#32, 0xc3d2e1f0#32⟩

/-- Section 6.1.2, step 3: one round. -/
def round (w : List Word) (h : Hash) (t : Nat) : Hash :=
  ⟨h.a.rotateLeft 5 + f t h.b h.c h.d + h.e + K t + w.getD t 0, h.a, h.b.rotateLeft 30, h.c, h.d⟩

/-- Section 6.1.2: the hash value after one more block. -/
def block (m : List Bool) (h : Hash) (i : Nat) : Hash :=
  let v := (List.range 80).foldl (round (schedule m i)) h
  ⟨v.a + h.a, v.b + h.b, v.c + h.c, v.d + h.d, v.e + h.e⟩

/-- The hash value of a message of bits. -/
def hash (m : List Bool) : Hash :=
  let p := pad m
  (List.range (p.length / 512)).foldl (block p) initial

/-- The four bytes of a word, most significant first. -/
def bytesOfWord (w : Word) : List UInt8 :=
  [UInt8.ofNat (w.toNat / 2 ^ 24), UInt8.ofNat (w.toNat / 2 ^ 16), UInt8.ofNat (w.toNat / 2 ^ 8),
    UInt8.ofNat w.toNat]

/-- The words of a hash value, in order. -/
def Hash.words (h : Hash) : List Word := [h.a, h.b, h.c, h.d, h.e]

/-- SHA-1 of a byte string. -/
def sha1 (m : List UInt8) : List UInt8 := (hash (bitsOf m)).words.flatMap bytesOfWord

/-- A digit below sixteen, in lower case. -/
def hexDigit (d : Nat) : UInt8 := if d < 10 then UInt8.ofNat (48 + d) else UInt8.ofNat (87 + d)

/-- The last `k` hexadecimal digits of a number. -/
def hexDigits : Nat → Nat → List UInt8
  | 0, _ => []
  | k + 1, n => hexDigits k (n / 16) ++ [hexDigit (n % 16)]

/-- SHA-1 of a byte string as text, eight digits for each word. -/
def sha1Hex (m : List UInt8) : List UInt8 :=
  (hash (bitsOf m)).words.flatMap fun w => hexDigits 8 w.toNat

/-- A digest has 160 bits. -/
@[simp] theorem sha1_length (m : List UInt8) : (sha1 m).length = 20 := rfl

/-- The SHA-1 example of one block, `abc`. -/
example : sha1 [0x61, 0x62, 0x63] =
    [0xa9, 0x99, 0x3e, 0x36, 0x47, 0x06, 0x81, 0x6a, 0xba, 0x3e,
     0x25, 0x71, 0x78, 0x50, 0xc2, 0x6c, 0x9c, 0xd0, 0xd8, 0x9d] := by decide +kernel

/-! ## Bits and bytes -/

theorem numOfBits_append (a b : List Bool) :
    numOfBits (a ++ b) = numOfBits a * 2 ^ b.length + numOfBits b := by
  induction b using List.reverseRecOn with
  | nil => simp [numOfBits]
  | append_singleton b c ih =>
      simp only [numOfBits, ← List.append_assoc, List.foldl_append, List.foldl_cons, List.foldl_nil,
        List.length_append, List.length_singleton] at ih ⊢
      rw [ih]
      ring

theorem numOfBits_byte : ∀ n < 256,
    numOfBits ((List.range 8).map fun i => n.testBit (7 - i)) = n := by
  decide +kernel

@[simp] theorem numOfBits_bitsOfByte (b : UInt8) : numOfBits (bitsOfByte b) = b.toNat :=
  numOfBits_byte b.toNat b.toNat_lt

@[simp] theorem bitsOfByte_length (b : UInt8) : (bitsOfByte b).length = 8 := rfl

@[simp] theorem bitsOf_append (a b : List UInt8) : bitsOf (a ++ b) = bitsOf a ++ bitsOf b :=
  List.flatMap_append

@[simp] theorem bitsOf_cons (b : UInt8) (m : List UInt8) :
    bitsOf (b :: m) = bitsOfByte b ++ bitsOf m := rfl

@[simp] theorem bitsOf_nil : bitsOf [] = [] := rfl

@[simp] theorem bitsOf_length (m : List UInt8) : (bitsOf m).length = 8 * m.length := by
  induction m with
  | nil => rfl
  | cons b m ih =>
      rw [bitsOf_cons, List.length_append, ih, bitsOfByte_length, List.length_cons]
      omega

theorem bitsOf_drop (m : List UInt8) (k : Nat) : (bitsOf m).drop (8 * k) = bitsOf (m.drop k) := by
  rcases Nat.le_total k m.length with hk | hk
  · conv => lhs; rw [← List.take_append_drop k m, bitsOf_append]
    rw [List.drop_append_of_le_length, List.drop_of_length_le, List.nil_append] <;>
      simp [bitsOf_length, Nat.min_eq_left hk]
  · rw [List.drop_of_length_le hk, List.drop_of_length_le (by rw [bitsOf_length]; omega)]
    rfl

theorem bitsOf_take (m : List UInt8) (k : Nat) : (bitsOf m).take (8 * k) = bitsOf (m.take k) := by
  rcases Nat.le_total k m.length with hk | hk
  · conv => lhs; rw [← List.take_append_drop k m, bitsOf_append]
    rw [List.take_append_of_le_length, List.take_of_length_le] <;>
      simp [bitsOf_length, Nat.min_eq_left hk]
  · rw [List.take_of_length_le hk, List.take_of_length_le (by rw [bitsOf_length]; omega)]

/-- A word of a block is the value of four bytes. -/
theorem blockWord_bitsOf (m : List UInt8) (i t : Nat) :
    blockWord (bitsOf m) i t =
      BitVec.ofNat 32 (numOfBits (bitsOf ((m.drop (64 * i + 4 * t)).take 4))) := by
  simp only [blockWord]
  rw [show 512 * i + 32 * t = 8 * (64 * i + 4 * t) by omega, bitsOf_drop]
  exact congrArg (fun bs => BitVec.ofNat 32 (numOfBits bs)) (bitsOf_take _ 4)

theorem numOfBits_four (b0 b1 b2 b3 : UInt8) : numOfBits (bitsOf [b0, b1, b2, b3]) =
    b0.toNat * 2 ^ 24 + b1.toNat * 2 ^ 16 + b2.toNat * 2 ^ 8 + b3.toNat := by
  simp only [bitsOf_cons, bitsOf_nil, List.append_nil, numOfBits_append, numOfBits_bitsOfByte,
    List.length_append, bitsOfByte_length]
  omega

/-! ## The padding of whole bytes -/

/-- The eight bytes of a number below `2 ^ 64`, most significant first. -/
def bytes64 (n : Nat) : List UInt8 := (List.range 8).map fun i => UInt8.ofNat (n / 2 ^ (56 - i * 8))

/-- The number of zero bytes behind the first byte of the padding. -/
def zeroBytes (l : Nat) : Nat := (119 - l % 64) % 64

/-- The padded message, in bytes. -/
def padBytes (m : List UInt8) : List UInt8 :=
  m ++ 0x80 :: (List.replicate (zeroBytes m.length) 0 ++ bytes64 (m.length * 8))

theorem bitsOfByte_div (n k : Nat) : bitsOfByte (UInt8.ofNat (n / 2 ^ k)) =
    (List.range 8).map fun i => n.testBit (k + (7 - i)) := by
  refine List.map_congr_left fun i hi => ?_
  have hi := List.mem_range.mp hi
  rw [UInt8.toNat_ofNat', show (2 : Nat) ^ 8 = 2 ^ 8 from rfl, Nat.testBit_mod_two_pow,
    Nat.testBit_div_two_pow, decide_eq_true (by omega : 7 - i < 8), Bool.true_and, Nat.add_comm]

theorem bits64_eq (n : Nat) : bits64 n = bitsOf (bytes64 n) := by
  have hbytes : bytes64 n = [UInt8.ofNat (n / 2 ^ 56), UInt8.ofNat (n / 2 ^ 48),
      UInt8.ofNat (n / 2 ^ 40), UInt8.ofNat (n / 2 ^ 32), UInt8.ofNat (n / 2 ^ 24),
      UInt8.ofNat (n / 2 ^ 16), UInt8.ofNat (n / 2 ^ 8), UInt8.ofNat (n / 2 ^ 0)] := rfl
  rw [hbytes]
  simp only [bitsOf_cons, bitsOf_nil, bitsOfByte_div]
  rfl

theorem bitsOf_zeros (k : Nat) : bitsOf (List.replicate k 0) = List.replicate (8 * k) false := by
  induction k with
  | zero => rfl
  | succ k ih =>
      rw [List.replicate_succ, bitsOf_cons, ih, show 8 * (k + 1) = 8 + 8 * k by omega,
        List.replicate_add]
      rfl

/-- The padding of a message of whole bytes. -/
theorem pad_bitsOf (m : List UInt8) : pad (bitsOf m) = bitsOf (padBytes m) := by
  have hzeros : zeroBits (8 * m.length) = 7 + 8 * zeroBytes m.length := by
    simp only [zeroBits, zeroBytes]
    omega
  have hbyte : bitsOfByte 0x80 = true :: List.replicate 7 false := rfl
  simp only [pad, padBytes, bitsOf_append, bitsOf_cons, bitsOf_length]
  rw [hzeros, hbyte, bitsOf_zeros, List.replicate_add, bits64_eq, Nat.mul_comm 8 m.length]
  simp

/-- The padded message is made of whole blocks. -/
theorem padBytes_length (m : List UInt8) : (padBytes m).length % 64 = 0 := by
  simp only [padBytes, bytes64, zeroBytes, List.length_append, List.length_cons,
    List.length_replicate, List.length_map, List.length_range]
  omega

end Fips180
