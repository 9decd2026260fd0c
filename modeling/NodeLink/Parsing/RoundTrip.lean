import NodeLink.Parsing.Decoding

/-!
# Decoding what was encoded

`StandsAt data i s` says that the bytes `s` stand in a buffer at an index.  It
splits along `++` and `::`, so the decoder can be followed through an encoding
without a rearrangement of the buffer around it.

The proof is the recursion of `encode`: one lemma for each kind of node, and for
lists and maps one for the loop, with what the loop has collected so far.  A
loop over the entries of a map appends each of them, since the keys come in
increasing order (`Dict.set_of_gt`).
-/

namespace NodeLink

/-! ## Bytes at an index -/

/-- The bytes `s` stand in `data` at index `i`. -/
def StandsAt (data : Buffer) (i : Nat) (s : Buffer) : Prop := s <+: data.drop i

theorem standsAt_append_iff {data a b : Buffer} {i : Nat} :
    StandsAt data i (a ++ b) ↔ StandsAt data i a ∧ StandsAt data (i + a.length) b := by
  constructor
  · rintro ⟨q, hq⟩
    refine ⟨⟨b ++ q, by rw [← List.append_assoc]; exact hq⟩, q, ?_⟩
    rw [← List.drop_drop, ← hq, List.append_assoc, List.drop_left]
  · rintro ⟨⟨q, hq⟩, r, hr⟩
    rw [← List.drop_drop, ← hq, List.drop_left] at hr
    exact ⟨r, by rw [List.append_assoc, hr]; exact hq⟩

theorem standsAt_singleton_iff {data : Buffer} {i : Nat} {c : UInt8} :
    StandsAt data i [c] ↔ data[i]? = some c := by
  constructor
  · rintro ⟨q, hq⟩
    rw [← List.head?_drop, ← hq]
    rfl
  · intro h
    obtain ⟨hi, hget⟩ := List.getElem?_eq_some_iff.mp h
    exact ⟨data.drop (i + 1), by rw [List.drop_eq_getElem_cons hi, hget]; rfl⟩

theorem standsAt_cons_iff {data s : Buffer} {i : Nat} {c : UInt8} :
    StandsAt data i (c :: s) ↔ data[i]? = some c ∧ StandsAt data (i + 1) s := by
  rw [← standsAt_singleton_iff]
  exact standsAt_append_iff (a := [c])

theorem StandsAt.of_append (p s q : Buffer) : StandsAt (p ++ s ++ q) p.length s :=
  ⟨q, by rw [List.append_assoc, List.drop_left]⟩

/-- Bytes that stand in a buffer end inside it. -/
theorem StandsAt.le_length {data s : Buffer} {i : Nat} (h : StandsAt data i s) (hs : s ≠ []) :
    i + s.length ≤ data.length := by
  have hle := List.IsPrefix.length_le h
  rw [List.length_drop] at hle
  have := List.length_pos_iff.mpr hs
  omega

/-- Bytes that stand at a position inside a buffer end inside it, or there are none. -/
theorem StandsAt.le_of_le {data s : Buffer} {i : Nat} (h : StandsAt data i s)
    (hi : i ≤ data.length) : i + s.length ≤ data.length := by
  have hle := List.IsPrefix.length_le h
  rw [List.length_drop] at hle
  omega

theorem StandsAt.take_eq {data s : Buffer} {i : Nat} (h : StandsAt data i s) :
    (data.drop i).take s.length = s := (List.prefix_iff_eq_take.mp h).symm

namespace Bnode

/-- A scan stops at the first byte it looks for. -/
theorem scanFor_standsAt {data s : Buffer} {i : Nat} {c : UInt8}
    (h : StandsAt data i (s ++ [c])) (hc : c ∉ s) : scanFor c data i = i + s.length := by
  obtain ⟨q, hq⟩ := h
  simp only [scanFor]
  rw [← hq, List.append_assoc, List.takeWhile_append_of_pos]
  · rw [List.singleton_append, List.takeWhile_cons_of_neg (by simp), List.append_nil]
  · intro x hx
    have hne : x ≠ c := fun e => hc (e ▸ hx)
    simpa using hne

/-! ## Numbers and strings -/

theorem not_mem_toStringInt (v : Int64) : (101 : UInt8) ∉ toStringInt v := by
  simp only [toStringInt]
  have hd := not_mem_toStringNat (c := 101) rfl v.toInt.natAbs
  split
  · rw [List.mem_cons, not_or]
    exact ⟨by decide, hd⟩
  · exact hd

theorem decodeInt_standsAt {data : Buffer} {i : Nat} {v : Int64}
    (h : StandsAt data i (toStringInt v ++ [101])) :
    decodeInt data i = .ok (.int v, i + (toStringInt v).length + 1) := by
  have hscan := scanFor_standsAt h (not_mem_toStringInt v)
  have hle := h.le_length (List.append_ne_nil_of_right_ne_nil _ (List.cons_ne_nil _ _))
  rw [List.length_append, List.length_singleton] at hle
  have hnum := (standsAt_append_iff.mp h).1.take_eq
  simp only [decodeInt]
  rw [hscan, if_neg (by omega), Nat.add_sub_cancel_left, hnum, stoll_toStringInt]
  rfl

theorem encodeString_length (s : Str) :
    (encodeString s).length = (toStringNat s.length).length + 1 + s.length := by
  simp only [encodeString, List.length_append, List.length_cons]
  omega

/-- The string case reads back a byte string of any content. -/
theorem decodeString_standsAt {data : Buffer} {i : Nat} {s : Str} (hs : s.length < 2 ^ 63)
    (hi : i + (encodeString s).length < 2 ^ 64) (h : StandsAt data i (encodeString s)) :
    decodeString data i = .ok (.str s, i + (encodeString s).length) := by
  have hne : encodeString s ≠ [] :=
    List.append_ne_nil_of_right_ne_nil _ (List.cons_ne_nil _ _)
  have hle := h.le_length hne
  rw [encodeString_length] at hi hle
  have hsplit : encodeString s = toStringNat s.length ++ [58] ++ s := by simp [encodeString]
  rw [hsplit, standsAt_append_iff] at h
  obtain ⟨hlen, hval⟩ := h
  rw [List.length_append, List.length_singleton] at hval
  have hscan := scanFor_standsAt hlen (not_mem_toStringNat rfl s.length)
  have hnum := (standsAt_append_iff.mp hlen).1.take_eq
  have hsize : Cpp.toSizeT (Int64.ofInt s.length).toInt = s.length := by
    rw [Cpp.toInt_ofInt64, Cpp.toSizeT]
    omega
  have hstop : (i + (toStringNat s.length).length + 1 + s.length) % 2 ^ 64 =
      i + (toStringNat s.length).length + 1 + s.length := Nat.mod_eq_of_lt (by omega)
  simp only [decodeString]
  rw [hscan, if_neg (by omega), Nat.add_sub_cancel_left, hnum, stoll_toStringNat hs]
  simp only [lift]
  show (if (i + (toStringNat s.length).length + 1 + Cpp.toSizeT (Int64.ofInt s.length).toInt) %
    2 ^ 64 > data.length then _ else _) = _
  rw [hsize, hstop, if_neg (by omega), Nat.add_sub_cancel_left, encodeString_length]
  rw [← Nat.add_assoc] at hval
  rw [hval.take_eq, Nat.add_assoc i, Nat.add_assoc i]
  rfl

/-- A string begins with a digit. -/
theorem encodeString_head (s : Str) : ∃ c t, encodeString s = c :: t ∧ isDigit c = true := by
  cases h : toStringNat s.length with
  | nil => exact absurd h (toStringNat_ne_nil s.length)
  | cons c t =>
      refine ⟨c, t ++ 58 :: s, ?_, isDigit_toStringNat (n := s.length) (h ▸ List.mem_cons_self)⟩
      simp only [encodeString]
      rw [h]
      rfl

theorem decodeElement_encodeString {data : Buffer} {fuel i : Nat} {s : Str}
    (hs : s.length < 2 ^ 63) (hi : i + (encodeString s).length < 2 ^ 64)
    (h : StandsAt data i (encodeString s)) :
    decodeElement data (fuel + 1) i = .ok (.str s, i + (encodeString s).length) := by
  obtain ⟨c, t, he, hc⟩ := encodeString_head s
  have hget := (standsAt_cons_iff.mp (he ▸ h)).1
  obtain ⟨-, -, -, -, -, h1, h2, h3⟩ := isDigit_facts hc
  rw [decodeElement_of_getElem? hget, if_neg h1, if_neg h2, if_neg h3, if_pos hc]
  exact decodeString_standsAt hs hi h

/-- An encoding begins with a byte that ends no list. -/
theorem encode_head (v : Bnode) : ∃ c t, encode v = c :: t ∧ c ≠ 101 := by
  cases v with
  | int n => exact ⟨105, _, by rw [encode], by decide⟩
  | str s =>
      obtain ⟨c, t, he, hc⟩ := encodeString_head s
      exact ⟨c, t, by rw [encode, he], (isDigit_facts hc).2.2.2.2.1⟩
  | list vs => exact ⟨108, _, by rw [encode], by decide⟩
  | dict d => exact ⟨100, _, by rw [encode], by decide⟩

theorem encode_length_pos (v : Bnode) : 0 < (encode v).length := by
  obtain ⟨c, t, he, -⟩ := encode_head v
  rw [he]
  exact Nat.succ_pos _

/-! ## The recursion -/

mutual

/-- `DecodeElement` reads an encoded value back, wherever it stands in a buffer. -/
theorem decodeElement_encode : ∀ (v : Bnode) {data : Buffer} {fuel i : Nat}, v.WellFormed →
    (encode v).length < 2 ^ 63 → i + (encode v).length < 2 ^ 64 →
    2 * (encode v).length ≤ fuel → StandsAt data i (encode v) →
    decodeElement data fuel i = .ok (v, i + (encode v).length)
  | .int n, data, fuel, i, _, _, _, hf, h => by
      have hpos := encode_length_pos (.int n)
      obtain ⟨fuel, rfl⟩ := Nat.exists_eq_add_one_of_ne_zero (show fuel ≠ 0 by omega)
      rw [encode, standsAt_cons_iff] at h
      rw [decodeElement_of_getElem? h.1, if_pos rfl, decodeInt_standsAt h.2]
      simp only [encode, List.length_cons, List.length_append, List.length_nil]
      congr 2
      omega
  | .str s, data, fuel, i, _, hv, hi, hf, h => by
      have hpos := encode_length_pos (.str s)
      obtain ⟨fuel, rfl⟩ := Nat.exists_eq_add_one_of_ne_zero (show fuel ≠ 0 by omega)
      rw [encode] at hv hi h ⊢
      have hs : s.length < 2 ^ 63 := by
        rw [encodeString_length] at hv
        omega
      exact decodeElement_encodeString hs hi h
  | .list vs, data, fuel, i, hw, hv, hi, hf, h => by
      have hpos := encode_length_pos (.list vs)
      obtain ⟨fuel, rfl⟩ := Nat.exists_eq_add_one_of_ne_zero (show fuel ≠ 0 by omega)
      rw [encode, standsAt_cons_iff] at h
      simp only [encode, List.length_cons, List.length_append, List.length_nil] at hv hi hf ⊢
      rw [decodeElement_of_getElem? h.1, if_neg (by decide), if_pos rfl,
        decodeList_encodeList vs hw (by omega) (by omega) (by omega) h.2, List.nil_append]
      congr 2
      omega
  | .dict d, data, fuel, i, hw, hv, hi, hf, h => by
      have hpos := encode_length_pos (.dict d)
      obtain ⟨fuel, rfl⟩ := Nat.exists_eq_add_one_of_ne_zero (show fuel ≠ 0 by omega)
      rw [encode, standsAt_cons_iff] at h
      simp only [encode, List.length_cons, List.length_append, List.length_nil] at hv hi hf ⊢
      have hs : Dict.Sorted ([] ++ d) := hw.1
      rw [decodeElement_of_getElem? h.1, if_neg (by decide), if_neg (by decide), if_pos rfl,
        decodeDict_encodeDict d hs hw.2 (by omega) (by omega) (by omega) h.2, List.nil_append]
      congr 2
      omega

/-- The loop over a list appends every item and stops behind the `e`. -/
theorem decodeList_encodeList : ∀ (vs : List Bnode) {data : Buffer} {fuel i : Nat}
    {items : List Bnode}, WellFormedList vs → (encodeList vs).length < 2 ^ 63 →
    i + (encodeList vs).length < 2 ^ 64 → 2 * (encodeList vs).length + 1 ≤ fuel →
    StandsAt data i (encodeList vs ++ [101]) →
    decodeList data fuel i items = .ok (.list (items ++ vs), i + (encodeList vs).length + 1)
  | [], data, fuel, i, items, _, _, _, hf, h => by
      obtain ⟨fuel, rfl⟩ := Nat.exists_eq_add_one_of_ne_zero (show fuel ≠ 0 by omega)
      rw [encodeList, List.nil_append, standsAt_singleton_iff] at h
      rw [decodeList_end h, List.append_nil]
      rfl
  | v :: vs, data, fuel, i, items, hw, hv, hi, hf, h => by
      obtain ⟨fuel, rfl⟩ := Nat.exists_eq_add_one_of_ne_zero (show fuel ≠ 0 by omega)
      have hpos := encode_length_pos v
      obtain ⟨c, t, he, hne⟩ := encode_head v
      rw [encodeList, List.append_assoc, standsAt_append_iff] at h
      have hget := (standsAt_cons_iff.mp (he ▸ h.1)).1
      simp only [encodeList, List.length_append] at hv hi hf ⊢
      have hitem : decodeElement data fuel i = .ok (v, i + (encode v).length) :=
        decodeElement_encode v hw.1 (by omega) (by omega) (by omega) h.1
      rw [decodeList_item hget hne hitem,
        decodeList_encodeList vs hw.2 (by omega) (by omega) (by omega) h.2, List.append_assoc,
        ← Nat.add_assoc i]
      rfl

/-- The loop over a map appends every entry and stops behind the `e`. -/
theorem decodeDict_encodeDict : ∀ (d : List (Str × Bnode)) {data : Buffer} {fuel i : Nat}
    {entries : List (Str × Bnode)}, Dict.Sorted (entries ++ d) → WellFormedDict d →
    (encodeDict d).length < 2 ^ 63 → i + (encodeDict d).length < 2 ^ 64 →
    2 * (encodeDict d).length + 1 ≤ fuel → StandsAt data i (encodeDict d ++ [101]) →
    decodeDict data fuel i entries = .ok (.dict (entries ++ d), i + (encodeDict d).length + 1)
  | [], data, fuel, i, entries, _, _, _, _, hf, h => by
      obtain ⟨fuel, rfl⟩ := Nat.exists_eq_add_one_of_ne_zero (show fuel ≠ 0 by omega)
      rw [encodeDict, List.nil_append, standsAt_singleton_iff] at h
      rw [decodeDict_end h, List.append_nil]
      rfl
  | (k, v) :: d, data, fuel, i, entries, hs, hw, hv, hi, hf, h => by
      obtain ⟨fuel, rfl⟩ := Nat.exists_eq_add_one_of_ne_zero (show fuel ≠ 0 by omega)
      have hpos := encode_length_pos v
      obtain ⟨c, t, he, hc⟩ := encodeString_head k
      rw [encodeDict, List.append_assoc, List.append_assoc, standsAt_append_iff,
        standsAt_append_iff] at h
      obtain ⟨hk, hval, hrest⟩ := h
      have hget := (standsAt_cons_iff.mp (he ▸ hk)).1
      simp only [encodeDict, List.length_append] at hv hi hf ⊢
      have hklen := encodeString_length k
      obtain ⟨fuel, rfl⟩ := Nat.exists_eq_add_one_of_ne_zero (show fuel ≠ 0 by omega)
      have hkey : decodeElement data (fuel + 1) i = .ok (.str k, i + (encodeString k).length) :=
        decodeElement_encodeString (by omega) (by omega) hk
      have hitem : decodeElement data (fuel + 1) (i + (encodeString k).length) =
          .ok (v, i + (encodeString k).length + (encode v).length) :=
        decodeElement_encode v hw.1 (by omega) (by omega) (by omega) hval
      have hgt : ∀ e ∈ entries, e.1 < k := fun e he =>
        (List.pairwise_append.mp hs).2.2 e he (k, v) List.mem_cons_self
      rw [List.append_cons] at hs
      rw [decodeDict_entry hget (isDigit_facts hc).2.2.2.2.1 hkey hitem, Dict.set_of_gt hgt,
        decodeDict_encodeDict d hs hw.2 (by omega) (by omega) (by omega) hrest,
        ← List.append_cons, ← Nat.add_assoc i, ← Nat.add_assoc (i + _)]

end

/-! ## In any context -/

/-- `Decode` undoes `Encode`. -/
theorem decode_of_encode {v : Bnode} (hw : v.WellFormed) (hv : (encode v).length < 2 ^ 63) :
    decode (encode v) = .ok v := by
  have hat : StandsAt (encode v) 0 (encode v) := ⟨[], by rw [List.append_nil, List.drop_zero]⟩
  have h : decodeElement (encode v) (fuelFor (encode v)) 0 = .ok (v, 0 + (encode v).length) :=
    decodeElement_encode v hw hv (by omega) (by simp only [fuelFor]; omega) hat
  simp only [decode]
  rw [h]
  rfl

/-- Between any bytes, an encoded value is read back and the cursor stops right behind
it.  The end of the value has to be a `size_t`, as every position in a buffer is. -/
theorem decodeElement_in_context {v : Bnode} (hw : v.WellFormed)
    (hv : (encode v).length < 2 ^ 63) :
    (∀ p q : Buffer, (p ++ encode v).length < 2 ^ 64 →
      ∀ fuel, fuelFor (p ++ encode v ++ q) ≤ fuel →
        decodeElement (p ++ encode v ++ q) fuel p.length =
          .ok (v, p.length + (encode v).length)) ∧
    decode (encode v) = .ok v ∧
    (∀ w : Bnode, w.WellFormed → encode w = encode v → w = v) := by
  refine ⟨?_, decode_of_encode hw hv, ?_⟩
  · intro p q hp fuel hf
    rw [List.length_append] at hp
    simp only [fuelFor, List.length_append] at hf
    exact decodeElement_encode v hw hv hp (by omega) (.of_append p (encode v) q)
  · intro w hww heq
    have h := decode_of_encode hww (heq ▸ hv)
    rw [heq, decode_of_encode hw hv] at h
    injection h with h
    exact h.symm

/-- A map with a number, and a list with a string of bytes that end and open values. -/
def nested : Bnode :=
  .dict [(bytes "e", .int (-7)), (bytes "ee", .list [.str (bytes "1:e"), .int 0])]

/-- The nested value between two bytes that could open and close a list. -/
theorem decodeElement_in_context_nested :
    ((bytes "l" ++ encode nested).length < 2 ^ 64 ∧
      decodeElement (bytes "l" ++ encode nested ++ bytes "e") 100 1 = .ok (nested, 24)) ∧
    decode (encode nested) = .ok nested := by
  have h := decodeElement_in_context (v := nested)
    ⟨List.pairwise_pair.mpr (by decide), trivial, ⟨trivial, trivial, trivial⟩, trivial⟩ (by decide)
  exact ⟨⟨by decide, h.1 (bytes "l") (bytes "e") (by decide) 100 (by decide)⟩, h.2.1⟩

end Bnode

end NodeLink
