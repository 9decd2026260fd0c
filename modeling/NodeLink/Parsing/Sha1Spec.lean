import NodeLink.Lib.Fips180
import NodeLink.Parsing.Sha1

/-!
# `Sha1::Calculate` computes SHA-1

The code works on bytes and `uint32_t`, the standard on bits and 32-bit words.
The padded message of the code is the padded message of the standard in bytes
(`padded_eq`), its words are the standard's words (`blockWord_eq`), and a round
of the code is a round of the standard (`round_eq`): the functions are written
with `or` where the standard has exclusive or, on bits that are never both set.
From there on the two loops run side by side.
-/

namespace NodeLink

namespace Sha1

/-! ## Padding -/

/-- The loop pushes zeros until the length is 56 modulo 64. -/
theorem pushZeros_eq : ∀ {k fuel : Nat} {m : Buffer}, (m.length + k) % 64 = 56 → k < 64 →
    k < fuel → pushZeros fuel m = m ++ List.replicate k 0
  | 0, fuel + 1, m, h, _, _ => by
      rw [pushZeros, if_neg (by omega), List.replicate_zero, List.append_nil]
  | k + 1, fuel + 1, m, h, hk, hf => by
      have hrec : pushZeros fuel (m ++ [0]) = m ++ [0] ++ List.replicate k 0 :=
        pushZeros_eq (by rw [List.length_append, List.length_singleton]; omega) (by omega)
          (by omega)
      rw [pushZeros, if_pos (by omega), hrec, List.append_assoc, List.singleton_append,
        ← List.replicate_succ]

theorem pushZeros_data (data : Buffer) {fuel : Nat}
    (hf : Fips180.zeroBytes data.length < fuel) : pushZeros fuel (data ++ [0x80]) =
      data ++ 0x80 :: List.replicate (Fips180.zeroBytes data.length) 0 := by
  rw [pushZeros_eq (k := Fips180.zeroBytes data.length), List.append_assoc, List.singleton_append]
  · rw [List.length_append, List.length_singleton, Fips180.zeroBytes]
    omega
  · exact Nat.mod_lt _ (by decide)
  · exact hf

/-- A byte of the length, as the code shifts it out. -/
theorem lengthByte_eq {n k : Nat} (hn : n < 2 ^ 64) (hk : k < 64) :
    ((UInt64.ofNat n >>> UInt64.ofNat k) &&& 0xFF).toUInt8 = UInt8.ofNat (n / 2 ^ k) := by
  apply UInt8.toNat_inj.mp
  have hand : ∀ x : Nat, x &&& 255 = x % 256 := fun x => Nat.and_two_pow_sub_one_eq_mod x 8
  simp only [UInt64.toNat_toUInt8, UInt64.toNat_and, UInt64.toNat_shiftRight, UInt64.toNat_ofNat',
    UInt8.toNat_ofNat', UInt64.reduceToNat, Nat.shiftRight_eq_div_pow, hand]
  rw [Nat.mod_eq_of_lt (show n < 2 ^ 64 by omega), Nat.mod_eq_of_lt (show k < 2 ^ 64 by omega),
    Nat.mod_eq_of_lt hk, Nat.mod_mod]

/-- The code pads as the standard does. -/
theorem padded_eq {data : Buffer} (h : data.length < 2 ^ 61) :
    padded data = Fips180.padBytes data := by
  have hlt : Fips180.zeroBytes data.length < 64 := Nat.mod_lt _ (by decide)
  have hlen : (List.range 8).map (fun i =>
      ((UInt64.ofNat (data.length * 8) >>> UInt64.ofNat (56 - i * 8)) &&& 0xFF).toUInt8) =
      Fips180.bytes64 (data.length * 8) :=
    List.map_congr_left fun i _ => lengthByte_eq (by omega) (by omega)
  simp only [padded, Fips180.padBytes]
  rw [pushZeros_data data hlt, hlen, List.append_assoc, List.cons_append]

/-! ## Words -/

/-- A word of the code as a word of the standard. -/
theorem wordAt_toBitVec {m : Buffer} {i : Nat} (h : i + 4 ≤ m.length) :
    (wordAt m i).toBitVec = BitVec.ofNat 32 (Fips180.numOfBits
      (Fips180.bitsOf ((m.drop i).take 4))) := by
  have htake : (m.drop i).take 4 = [m.getD i 0, m.getD (i + 1) 0, m.getD (i + 2) 0,
      m.getD (i + 3) 0] := by
    have hget : ∀ k, k < m.length → m.drop k = m.getD k 0 :: m.drop (k + 1) := by
      intro k hk
      rw [List.drop_eq_getElem_cons hk, List.getD_eq_getElem _ _ hk]
    rw [hget i (by omega), hget (i + 1) (by omega), hget (i + 1 + 1) (by omega),
      hget (i + 1 + 1 + 1) (by omega)]
    rfl
  apply BitVec.eq_of_toNat_eq
  rw [htake, Fips180.numOfBits_four, BitVec.toNat_ofNat]
  show (be32 _ _ _ _).toNat = _
  rw [be32_toNat, Nat.mod_eq_of_lt]
  have h0 := (m.getD i 0).toNat_lt
  have h1 := (m.getD (i + 1) 0).toNat_lt
  have h2 := (m.getD (i + 2) 0).toNat_lt
  have h3 := (m.getD (i + 3) 0).toNat_lt
  omega

theorem blockWord_eq {m : Buffer} {i t : Nat} (h : 64 * i + 4 * t + 4 ≤ m.length) :
    (wordAt m (64 * i + t * 4)).toBitVec = Fips180.blockWord (Fips180.bitsOf m) i t := by
  rw [Fips180.blockWord_bitsOf, Nat.mul_comm t 4]
  exact wordAt_toBitVec h

theorem leftRotate_toBitVec (x : UInt32) {c : UInt32} {n : Nat} (hc : c = UInt32.ofNat n)
    (h0 : 0 < n) (hn : n < 32) : (leftRotate x c).toBitVec = x.toBitVec.rotateLeft n := by
  subst hc
  have hmod : n % 32 = n := Nat.mod_eq_of_lt hn
  have hl : (UInt32.ofNat n).toNat % 32 = n := by
    rw [UInt32.toNat_ofNat']
    omega
  have hr : (32 - UInt32.ofNat n).toNat % 32 = 32 - n := by
    rw [UInt32.toNat_sub, UInt32.toNat_ofNat']
    simp only [UInt32.reduceToNat]
    omega
  rw [BitVec.rotateLeft_def, hmod]
  simp only [leftRotate]
  apply BitVec.eq_of_toNat_eq
  simp only [UInt32.toBitVec_or, BitVec.toNat_or, UInt32.toNat_toBitVec, UInt32.toNat_shiftLeft,
    UInt32.toNat_shiftRight, BitVec.toNat_shiftLeft, BitVec.toNat_ushiftRight]
  rw [hl, hr]

theorem leftRotate_one (x : UInt32) : (leftRotate x 1).toBitVec = x.toBitVec.rotateLeft 1 :=
  leftRotate_toBitVec x rfl (by decide) (by decide)

theorem leftRotate_five (x : UInt32) : (leftRotate x 5).toBitVec = x.toBitVec.rotateLeft 5 :=
  leftRotate_toBitVec x rfl (by decide) (by decide)

theorem leftRotate_thirty (x : UInt32) : (leftRotate x 30).toBitVec = x.toBitVec.rotateLeft 30 :=
  leftRotate_toBitVec x rfl (by decide) (by decide)

/-- Choice: the two sides of the `or` have no bit in common. -/
theorem choose_eq (x y z : BitVec 32) : (x &&& y) ||| (~~~x &&& z) = (x &&& y) ^^^ (~~~x &&& z) := by
  ext i hi
  simp only [BitVec.getElem_or, BitVec.getElem_and, BitVec.getElem_not, BitVec.getElem_xor]
  cases x[i] <;> cases y[i] <;> cases z[i] <;> rfl

/-- Majority. -/
theorem majority_eq (x y z : BitVec 32) :
    (x &&& y) ||| (x &&& z) ||| (y &&& z) = (x &&& y) ^^^ (x &&& z) ^^^ (y &&& z) := by
  ext i hi
  simp only [BitVec.getElem_or, BitVec.getElem_and, BitVec.getElem_xor]
  cases x[i] <;> cases y[i] <;> cases z[i] <;> rfl

/-! ## The rounds -/

/-- The words of the code as a hash value of the standard. -/
def Words.toHash (v : Words) : Fips180.Hash :=
  ⟨v.a.toBitVec, v.b.toBitVec, v.c.toBitVec, v.d.toBitVec, v.e.toBitVec⟩

theorem getD_toBitVec (w : List UInt32) (j : Nat) :
    (w.getD j 0).toBitVec = (w.map UInt32.toBitVec).getD j 0 := by
  rw [List.getD_eq_getElem?_getD, List.getD_eq_getElem?_getD, List.getElem?_map]
  cases w[j]? <;> rfl

/-- The schedule of the code is that of the standard. -/
theorem extend_eq (w : List UInt32) (n : Nat) :
    (extend w n).map UInt32.toBitVec = Fips180.scheduleFrom (w.map UInt32.toBitVec) n := by
  induction n with
  | zero => rfl
  | succ n ih =>
      have hlen : (extend w n).length =
          (Fips180.scheduleFrom (w.map UInt32.toBitVec) n).length := by
        rw [← ih, List.length_map]
      simp only [extend, Fips180.scheduleFrom, List.map_append, List.map_cons, List.map_nil]
      rw [leftRotate_one, ih]
      simp only [UInt32.toBitVec_xor, getD_toBitVec]
      rw [ih, hlen]

theorem schedule_eq {m : Buffer} {i : Nat} (h : 64 * i + 64 ≤ m.length) :
    (schedule m (64 * i)).map UInt32.toBitVec = Fips180.schedule (Fips180.bitsOf m) i := by
  rw [schedule, Fips180.schedule, extend_eq, List.map_map]
  congr 1
  refine List.map_congr_left fun t ht => ?_
  have ht := List.mem_range.mp ht
  exact blockWord_eq (by omega)

/-- One round of the code is one round of the standard. -/
theorem round_eq (w : List UInt32) (v : Words) (j : Nat) :
    (round w v j).toHash = Fips180.round (w.map UInt32.toBitVec) v.toHash j := by
  simp only [round, Words.toHash, Fips180.round, UInt32.toBitVec_add, leftRotate_five,
    leftRotate_thirty, getD_toBitVec, Fips180.f, Fips180.K]
  by_cases h1 : j < 20
  · simp only [if_pos h1, UInt32.toBitVec_or, UInt32.toBitVec_and, UInt32.toBitVec_not, choose_eq]
    rfl
  by_cases h2 : j < 40
  · simp only [if_neg h1, if_pos h2, UInt32.toBitVec_xor]
    rfl
  by_cases h3 : j < 60
  · simp only [if_neg h1, if_neg h2, if_pos h3, UInt32.toBitVec_or, UInt32.toBitVec_and,
      majority_eq]
    rfl
  · simp only [if_neg h1, if_neg h2, if_neg h3, UInt32.toBitVec_xor]
    rfl

/-- Two loops over the same indices stay together. -/
theorem foldl_sim {α β ι : Type} {f : α → ι → α} {g : β → ι → β} (r : α → β)
    (l : List ι) (h : ∀ a, ∀ i ∈ l, r (f a i) = g (r a) i) (a : α) :
    r (l.foldl f a) = l.foldl g (r a) := by
  induction l generalizing a with
  | nil => rfl
  | cons i l ih =>
      rw [List.foldl_cons, List.foldl_cons, ← h a i List.mem_cons_self]
      exact ih (fun a j hj => h a j (List.mem_cons_of_mem _ hj)) (f a i)

theorem block_eq {m : Buffer} {i : Nat} (hw : Words) (h : 64 * i + 64 ≤ m.length) :
    (block m hw (64 * i)).toHash = Fips180.block (Fips180.bitsOf m) hw.toHash i := by
  have hrounds := foldl_sim Words.toHash (List.range 80)
    (fun v j _ => round_eq (schedule m (64 * i)) v j) hw
  rw [schedule_eq h] at hrounds
  simp only [block, Fips180.block]
  rw [← hrounds]
  simp only [Words.toHash, UInt32.toBitVec_add, BitVec.add_comm]

/-- The words of the code are the hash value of the standard. -/
theorem hash_eq {data : Buffer} (h : data.length < 2 ^ 61) :
    (hash data).toHash = Fips180.hash (Fips180.bitsOf data) := by
  have hmod := Fips180.padBytes_length data
  simp only [hash, Fips180.hash]
  rw [padded_eq h, Fips180.pad_bitsOf, Fips180.bitsOf_length, List.foldl_map,
    show 8 * (Fips180.padBytes data).length / 512 = ((Fips180.padBytes data).length + 63) / 64 by
      omega]
  refine foldl_sim Words.toHash _ (fun hw i hi => ?_) start
  have hi := List.mem_range.mp hi
  exact block_eq hw (by omega)

/-! ## The text -/

theorem digitChar_eq : ∀ d < 16, UInt8.ofNat (Nat.digitChar d).toNat = Fips180.hexDigit d := by
  decide

/-- Zeros in front of the digits of a number fill them up to a fixed width. -/
theorem hexDigits_eq : ∀ {k n : Nat}, n < 16 ^ (k + 1) →
    List.replicate (k + 1 - (Nat.toDigits 16 n).length) 48 ++
      (Nat.toDigits 16 n).map (fun c => UInt8.ofNat c.toNat) = Fips180.hexDigits (k + 1) n
  | 0, n, h => by
      have hn : n < 16 := by simpa using h
      rw [Nat.toDigits_of_lt_base hn]
      simp [Fips180.hexDigits, digitChar_eq n hn, Nat.mod_eq_of_lt hn]
  | k + 1, n, h => by
      have hdiv : n / 16 < 16 ^ (k + 1) := by
        rw [Nat.pow_succ] at h
        omega
      rw [Fips180.hexDigits, ← hexDigits_eq hdiv, ← digitChar_eq _ (Nat.mod_lt n (by decide))]
      rcases Nat.lt_or_ge n 16 with hn | hn
      · rw [Nat.toDigits_of_lt_base hn, Nat.div_eq_of_lt hn, Nat.toDigits_of_lt_base (by decide),
          Nat.mod_eq_of_lt hn]
        simp only [List.length_singleton, List.map_cons, List.map_nil, Nat.add_sub_cancel]
        rw [List.replicate_succ']
        rfl
      · rw [Nat.toDigits_of_base_le (by decide) hn, List.length_append, List.length_singleton,
          List.map_append, List.append_assoc, Nat.add_sub_add_right]
        rfl

theorem setw8_hexOf (x : UInt32) : setw8 (hexOf x) = Fips180.hexDigits 8 x.toBitVec.toNat := by
  have hx : x.toNat < 16 ^ (7 + 1) := by
    have := x.toNat_lt
    omega
  rw [UInt32.toNat_toBitVec, ← hexDigits_eq hx, setw8, hexOf, List.length_map]

/-- `Sha1::Calculate` is SHA-1: of every message whose length in bits is a 64-bit number it
returns the digest in hexadecimal, every byte it reads is one of the padded message, and the loop
of the padding ends after at most 63 zeros. -/
theorem calculate_eq_sha1Hex {data : Buffer} (h : data.length < 2 ^ 61) :
    calculate data = Fips180.sha1Hex data ∧
    (∀ i, i % 64 = 0 → i < (padded data).length →
      ∀ j < 16, ∀ b < 4, i + j * 4 + b < (padded data).length) ∧
    (∃ k ≤ 63, ∀ fuel, k < fuel →
      pushZeros fuel (data ++ [0x80]) = data ++ 0x80 :: List.replicate k 0) := by
  refine ⟨?_, ?_, Fips180.zeroBytes data.length, ?_, fun fuel hf => pushZeros_data data hf⟩
  · simp only [calculate, Fips180.sha1Hex, setw8_hexOf]
    rw [← hash_eq h]
    simp only [Fips180.Hash.words, Words.toHash, List.flatMap_cons, List.flatMap_nil,
      List.append_nil, List.append_assoc]
  · intro i hi hlt j hj b hb
    have hmod := Fips180.padBytes_length data
    rw [padded_eq h] at hlt ⊢
    omega
  · exact Nat.le_of_lt_succ (Nat.mod_lt _ (by decide))

/-- The message `abc`. -/
theorem calculate_eq_sha1Hex_abc : (bytes "abc").length < 2 ^ 61 ∧
    calculate (bytes "abc") = Fips180.sha1Hex (bytes "abc") :=
  ⟨by decide, (calculate_eq_sha1Hex (by decide)).1⟩

end Sha1

end NodeLink
