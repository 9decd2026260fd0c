import NodeLink.Download.Connection

/-!
# The bitfield

`BITFIELD` resizes `peer_pieces` to the number of pieces and sets the bits of the
payload, bit 7 of the first byte for piece 0.  It never clears one.
`hasPiece_markPieces` says what `HasPiece` returns afterwards.
-/

namespace NodeLink

namespace Connection

/-- The bit of piece `k` in a payload. -/
def BitSet (payload : Buffer) (k : Nat) : Prop :=
  (payload.getD (k / 8) 0).toNat.testBit (7 - k % 8) = true

instance (payload : Buffer) (k : Nat) : Decidable (BitSet payload k) :=
  inferInstanceAs (Decidable (_ = true))

variable {pp : List Bool} {byte : UInt8} {i k : Nat}

@[simp] theorem markBit_length (bit : Nat) : (markBit i byte pp bit).length = pp.length := by
  unfold markBit
  dsimp only
  split
  · split
    · rw [List.length_set]
    · rfl
  · rfl

/-- One bit sets its own piece, where there is one. -/
theorem markBit_getD (bit : Nat) :
    (markBit i byte pp bit).getD k false = true ↔
      pp.getD k false = true ∨
        (k < pp.length ∧ k = i * 8 + bit ∧ byte.toNat.testBit (7 - bit) = true) := by
  unfold markBit
  dsimp only
  split
  next hbit =>
    split
    next hlt =>
      by_cases hk : k = i * 8 + bit
      · subst hk
        simp [hlt, hbit]
      · rw [List.getD_eq_getElem?_getD, List.getElem?_set_ne (fun h => hk h.symm),
          ← List.getD_eq_getElem?_getD]
        simp [hk]
    next hge =>
      have : ¬ (k < pp.length ∧ k = i * 8 + bit ∧ byte.toNat.testBit (7 - bit) = true) := by
        rintro ⟨h1, rfl, -⟩
        exact hge h1
      simp [this]
  next hbit => simp [hbit]

theorem foldl_markBit (pp : List Bool) (byte : UInt8) (i k m : Nat) :
    ((List.range m).foldl (markBit i byte) pp).length = pp.length ∧
    (((List.range m).foldl (markBit i byte) pp).getD k false = true ↔
      pp.getD k false = true ∨
        (k < pp.length ∧ ∃ bit < m, k = i * 8 + bit ∧ byte.toNat.testBit (7 - bit) = true)) := by
  induction m with
  | zero => simp
  | succ m ih =>
      rw [List.range_succ, List.foldl_append, List.foldl_cons, List.foldl_nil, markBit_length,
        markBit_getD, ih.1, ih.2]
      refine ⟨rfl, ?_⟩
      constructor
      · rintro ((h | ⟨h1, bit, hb, h2⟩) | ⟨h1, h2⟩)
        · exact .inl h
        · exact .inr ⟨h1, bit, by omega, h2⟩
        · exact .inr ⟨h1, m, by omega, h2⟩
      · rintro (h | ⟨h1, bit, hb, h2⟩)
        · exact .inl (.inl h)
        · by_cases hm : bit = m
          · exact .inr ⟨h1, hm ▸ h2⟩
          · exact .inl (.inr ⟨h1, bit, by omega, h2⟩)

/-- One byte sets the pieces of its bits. -/
theorem markByte_getD (pp : List Bool) (byte : UInt8) (i k : Nat) :
    (markByte pp (byte, i)).length = pp.length ∧
    ((markByte pp (byte, i)).getD k false = true ↔
      pp.getD k false = true ∨
        (k < pp.length ∧ k / 8 = i ∧ byte.toNat.testBit (7 - k % 8) = true)) := by
  obtain ⟨hlen, hget⟩ := foldl_markBit pp byte i k 8
  refine ⟨hlen, hget.trans (or_congr_right (and_congr_right fun _ => ?_))⟩
  constructor
  · rintro ⟨bit, hb, hk, ht⟩
    have h1 : k % 8 = bit := by omega
    exact ⟨by omega, h1 ▸ ht⟩
  · rintro ⟨hk, ht⟩
    exact ⟨k % 8, by omega, by omega, ht⟩

/-- The bytes of a payload, from byte `i` on. -/
theorem foldl_markByte (pp : List Bool) (payload : Buffer) (i k : Nat) :
    ((payload.zipIdx i).foldl markByte pp).length = pp.length ∧
    (((payload.zipIdx i).foldl markByte pp).getD k false = true ↔
      pp.getD k false = true ∨ (k < pp.length ∧ i ≤ k / 8 ∧
        (payload.getD (k / 8 - i) 0).toNat.testBit (7 - k % 8) = true)) := by
  induction payload generalizing pp i with
  | nil => simp
  | cons byte payload ih =>
      rw [List.zipIdx_cons, List.foldl_cons]
      obtain ⟨hlen, hget⟩ := markByte_getD pp byte i k
      obtain ⟨hlen', hget'⟩ := ih (markByte pp (byte, i)) (i + 1)
      refine ⟨hlen'.trans hlen, ?_⟩
      rw [hget', hget, hlen]
      by_cases hi : k / 8 = i
      · have h1 : ¬ i + 1 ≤ k / 8 := by omega
        have h2 : k / 8 - i = 0 := by omega
        rw [h2, List.getD_cons_zero]
        simp [hi]
      · by_cases hlt : i + 1 ≤ k / 8
        · have h2 : k / 8 - i = (k / 8 - (i + 1)) + 1 := by omega
          rw [h2, List.getD_cons_succ]
          simp [hi, hlt, show i ≤ k / 8 by omega]
        · simp [hi, hlt, show ¬ i ≤ k / 8 by omega]

/-- What `peer_pieces` holds after a bitfield. -/
theorem markPieces_getD (pp : List Bool) (n : Nat) (payload : Buffer) (k : Nat) :
    (markPieces pp n payload).length = n ∧
    ((markPieces pp n payload).getD k false = true ↔
      k < n ∧ (pp.getD k false = true ∨ BitSet payload k)) := by
  have hlen : (pp.take n ++ List.replicate (n - pp.length) false).length = n := by
    rw [List.length_append, List.length_take, List.length_replicate]
    omega
  have hres : (pp.take n ++ List.replicate (n - pp.length) false).getD k false = true ↔
      k < n ∧ pp.getD k false = true := by
    simp only [List.getD_eq_getElem?_getD, List.getElem?_append, List.getElem?_replicate,
      List.length_take, List.getElem?_take]
    by_cases hk : k < pp.length
    · by_cases hn : k < n
      · simp [hk, hn]
      · have h1 : ¬ k < min n pp.length := by omega
        rw [if_neg h1]
        split <;> simp [hn]
    · have h1 : ¬ k < min n pp.length := by omega
      rw [if_neg h1, List.getElem?_eq_none (by omega : pp.length ≤ k)]
      split <;> simp
  obtain ⟨h1, h2⟩ := foldl_markByte (pp.take n ++ List.replicate (n - pp.length) false) payload 0 k
  refine ⟨h1.trans hlen, ?_⟩
  simp only [markPieces]
  rw [h2, hres, hlen, Nat.sub_zero]
  constructor
  · rintro (⟨hn, h⟩ | ⟨hn, -, h⟩)
    · exact ⟨hn, .inl h⟩
    · exact ⟨hn, .inr h⟩
  · rintro ⟨hn, h | h⟩
    · exact .inl ⟨hn, h⟩
    · exact .inr ⟨hn, Nat.zero_le _, h⟩

/-- `HasPiece` is the bit of a non-negative index. -/
theorem hasPiece_iff (c : Connection) (index : Int32) :
    c.hasPiece index = true ↔
      0 ≤ index.toInt ∧ c.peerPieces.getD index.toInt.toNat false = true := by
  simp only [hasPiece]
  split
  next h =>
    refine ⟨fun hf => absurd hf Bool.false_ne_true, fun ⟨h0, ht⟩ => ?_⟩
    have hge : c.peerPieces.length ≤ index.toInt.toNat := by
      rcases h with h | h <;> omega
    rw [List.getD_eq_getElem?_getD, List.getElem?_eq_none hge] at ht
    exact ht
  next h =>
    have h0 : 0 ≤ index.toInt := by
      by_contra hn
      exact h (.inl (by omega))
    exact ⟨fun ht => ⟨h0, ht⟩, fun ht => ht.2⟩

end Connection

end NodeLink
