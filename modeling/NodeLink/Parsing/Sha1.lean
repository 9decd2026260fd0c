import NodeLink.Parsing.Buffer

/-!
# `Sha1::Calculate`

The hash the integrity check computes, as the code computes it on bytes and
`uint32_t` words.  The result is a `std::string` of hexadecimal digits, five
words of eight characters.  `calculate_length` says it always has forty
characters.
-/

namespace NodeLink

namespace Sha1

/-- `LeftRotate`. -/
def leftRotate (x c : UInt32) : UInt32 := (x <<< c) ||| (x >>> (32 - c))

/-- The loop `while ((m.size() * 8) % 512 != 448) m.push_back(0)`, at most `fuel` rounds of it. -/
def pushZeros : Nat → Buffer → Buffer
  | 0, m => m
  | fuel + 1, m =>
      if (m.length * 8) % 2 ^ 64 % 512 ≠ 448 then pushZeros fuel (m ++ [0]) else m

/-- The padded message `m`.  `ml` is the bit length as a `uint64_t`. -/
def padded (data : Buffer) : Buffer :=
  let ml : UInt64 := UInt64.ofNat (data.length * 8)
  let m := pushZeros 64 (data ++ [0x80])
  m ++ (List.range 8).map fun i => ((ml >>> UInt64.ofNat (56 - i * 8)) &&& 0xFF).toUInt8

/-- The array `w` with `n` words computed past the sixteen it starts with. -/
def extend (w : List UInt32) : Nat → List UInt32
  | 0 => w
  | n + 1 =>
      let v := extend w n
      let j := v.length
      v ++ [leftRotate (v.getD (j - 3) 0 ^^^ v.getD (j - 8) 0 ^^^ v.getD (j - 14) 0 ^^^
        v.getD (j - 16) 0) 1]

/-- The array `w[80]` of the block at `i`. -/
def schedule (m : Buffer) (i : Nat) : List UInt32 :=
  extend ((List.range 16).map fun j => wordAt m (i + j * 4)) 64

/-- The variables `a` to `e`, or `h0` to `h4`. -/
structure Words where
  a : UInt32
  b : UInt32
  c : UInt32
  d : UInt32
  e : UInt32
deriving DecidableEq, Repr

/-- The start values of `h0` to `h4`. -/
def start : Words := ⟨0x67452301, 0xEFCDAB89, 0x98BADCFE, 0x10325476, 0xC3D2E1F0⟩

/-- One pass of the loop over `j < 80`. -/
def round (w : List UInt32) (v : Words) (j : Nat) : Words :=
  let f : UInt32 :=
    if j < 20 then (v.b &&& v.c) ||| (~~~v.b &&& v.d)
    else if j < 40 then v.b ^^^ v.c ^^^ v.d
    else if j < 60 then (v.b &&& v.c) ||| (v.b &&& v.d) ||| (v.c &&& v.d)
    else v.b ^^^ v.c ^^^ v.d
  let k : UInt32 :=
    if j < 20 then 0x5A827999 else if j < 40 then 0x6ED9EBA1
    else if j < 60 then 0x8F1BBCDC else 0xCA62C1D6
  let temp := leftRotate v.a 5 + f + v.e + k + w.getD j 0
  ⟨temp, v.a, leftRotate v.b 30, v.c, v.d⟩

/-- One pass of the loop over the blocks, at byte `i`. -/
def block (m : Buffer) (h : Words) (i : Nat) : Words :=
  let v := (List.range 80).foldl (round (schedule m i)) h
  ⟨h.a + v.a, h.b + v.b, h.c + v.c, h.d + v.d, h.e + v.e⟩

/-- The words `h0` to `h4` at the end.  The block loop runs at `i = 0, 64, ..` below `m.size()`. -/
def hash (data : Buffer) : Words :=
  let m := padded data
  ((List.range ((m.length + 63) / 64)).map (64 * ·)).foldl (block m) start

/-- A word in lower-case hexadecimal, as `std::hex` prints it. -/
def hexOf (x : UInt32) : Str := (Nat.toDigits 16 x.toNat).map fun c => UInt8.ofNat c.toNat

/-- `std::setw(8)` with the fill character `'0'`. -/
def setw8 (s : Str) : Str := List.replicate (8 - s.length) 48 ++ s

/-- `Sha1::Calculate`. -/
def calculate (data : Buffer) : Str :=
  let h := hash data
  setw8 (hexOf h.a) ++ setw8 (hexOf h.b) ++ setw8 (hexOf h.c) ++ setw8 (hexOf h.d) ++
    setw8 (hexOf h.e)

/-! ## The length of the result -/

/-- A word has at most eight hexadecimal digits. -/
theorem hexOf_length_le (x : UInt32) : (hexOf x).length ≤ 8 := by
  have hx : x.toNat < 16 ^ 8 := by
    have := x.toNat_lt
    omega
  rw [hexOf, List.length_map]
  exact (Nat.length_toDigits_le_iff (by omega) (by omega)).mpr hx

/-- A padded word has exactly eight characters. -/
theorem setw8_hexOf_length (x : UInt32) : (setw8 (hexOf x)).length = 8 := by
  have h := hexOf_length_le x
  rw [setw8, List.length_append, List.length_replicate]
  omega

/-- The rendering of every digest has forty characters. -/
theorem calculate_length (data : Buffer) : (calculate data).length = 40 := by
  simp only [calculate, List.length_append, setw8_hexOf_length]

end Sha1

end NodeLink
