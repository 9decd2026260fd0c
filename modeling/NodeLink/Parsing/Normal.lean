import NodeLink.Parsing.Strict

/-!
# Normal forms

What `Encode` makes of a decoded value is a normal form of the text that was
decoded: a strict text of the same value, and never longer than the text
(`encode_of_decode`).  The numbers lose what `std::stoll` skips, the dictionaries
lose the entries that were overwritten, and nothing else is lost.
-/

namespace NodeLink

/-! ## Numbers -/

/-- A number has no more digits than any digits that spell it. -/
theorem toStringNat_length_le {ds : Str} (hne : ds ≠ []) (hd : ∀ c ∈ ds, isDigit c = true) :
    (toStringNat (digitsValue ds)).length ≤ ds.length := by
  induction ds using List.reverseRecOn with
  | nil => exact absurd rfl hne
  | append_singleton ds c ih =>
      have hc := isDigit_iff.mp (hd c (List.mem_append_right _ (List.mem_singleton_self c)))
      rw [digitsValue_concat, List.length_append, List.length_singleton]
      rcases Nat.lt_or_ge (10 * digitsValue ds + (c.toNat - 48)) 10 with hlt | hge
      · rw [toStringNat_of_lt hlt, List.length_singleton]
        omega
      · have hds : ds ≠ [] := by
          rintro rfl
          rw [digitsValue_nil] at hge
          omega
        have hle := ih hds fun b hb => hd b (List.mem_append_left _ hb)
        rw [toStringNat_of_ge hge, List.length_append, List.length_singleton,
          show (10 * digitsValue ds + (c.toNat - 48)) / 10 = digitsValue ds by omega]
        omega

theorem takeSign_length {s rest : Str} {neg : Bool} (h : takeSign s = (neg, rest)) :
    rest.length + (if neg then 1 else 0) ≤ s.length := by
  simp only [takeSign] at h
  split at h <;> cases h <;> simp

/-- What `std::stoll` reads has no shorter spelling in the text than the number printed. -/
theorem stoll_length {s : Str} {n : Int64} (h : stoll s = .ok n) :
    (toStringInt n).length ≤ s.length := by
  simp only [stoll] at h
  rcases hsign : takeSign (s.dropWhile isSpace) with ⟨neg, rest⟩
  rw [hsign] at h
  dsimp only at h
  split at h
  · cases h
  next hne =>
    have hspace := List.length_dropWhile_le isSpace s
    have htake := takeSign_length hsign
    have hdigits := (List.takeWhile_prefix (p := isDigit) (l := rest)).length_le
    have hnum := toStringNat_length_le hne fun c hc => List.mem_takeWhile_imp hc
    cases neg with
    | false =>
        simp only [Bool.false_eq_true, if_false] at h htake
        split at h
        · cases h
        · cases h
          have hval : (Int64.ofInt (digitsValue (rest.takeWhile isDigit))).toInt =
              digitsValue (rest.takeWhile isDigit) := by
            rw [Cpp.toInt_ofInt64]
            omega
          rw [toStringInt, hval, if_neg (by omega), Int.natAbs_natCast]
          omega
    | true =>
        simp only [if_true] at h htake
        split at h
        · cases h
        · cases h
          have hval : (Int64.ofInt (-(digitsValue (rest.takeWhile isDigit)))).toInt =
              -(digitsValue (rest.takeWhile isDigit) : Int) := by
            rw [Cpp.toInt_ofInt64]
            omega
          rw [toStringInt, hval, Int.natAbs_neg, Int.natAbs_natCast]
          split
          · rw [List.length_cons]
            omega
          · omega

namespace Bnode

variable {data : Buffer} {i j : Nat} {v : Bnode}

/-! ## Values -/

theorem encode_int_length_le (h : decodeInt data (i + 1) = .ok (v, j)) :
    i + (encode v).length ≤ j := by
  obtain ⟨n, rfl, rfl, hlt, hn⟩ := decodeInt_cases h
  have hle := stoll_length hn
  have hscan := le_scanFor 101 data (i + 1)
  rw [List.length_take, List.length_drop] at hle
  rw [encode, List.length_cons, List.length_append, List.length_singleton]
  omega

theorem encode_str_length_le (hdata : data.length < 2 ^ 63)
    (hc : ∃ c, data[i]? = some c ∧ isDigit c = true) (h : decodeString data i = .ok (v, j)) :
    i + (encode v).length ≤ j := by
  obtain ⟨len, hnn, hlen, hstop⟩ := decodeString_stop hdata hc h
  obtain ⟨-, -, hcolon, -, hle, rfl⟩ := decodeString_cases h
  have hscan := le_scanFor 58 data i
  have hnum := stoll_length hlen
  rw [toStringInt, if_neg (by omega), List.length_take, List.length_drop] at hnum
  have hslice : ((data.drop (scanFor 58 data i + 1)).take (j - (scanFor 58 data i + 1))).length =
      len.toInt.natAbs := by
    rw [List.length_take, List.length_drop]
    omega
  rw [encode, encodeString, List.length_append, List.length_cons, hslice]
  omega

theorem encodeList_append (vs ws : List Bnode) :
    encodeList (vs ++ ws) = encodeList vs ++ encodeList ws := by
  induction vs with
  | nil => rw [encodeList, List.nil_append, List.nil_append]
  | cons v vs ih => rw [List.cons_append, encodeList, encodeList, ih, List.append_assoc]

/-- An entry that is set takes the place of at most one other. -/
theorem encodeDict_set_length_le (key : Str) (w : Bnode) (d : List (Str × Bnode)) :
    (encodeDict (Dict.set key w d)).length ≤
      (encodeDict d).length + (encodeString key).length + (encode w).length := by
  induction d with
  | nil =>
      simp only [Dict.set, encodeDict, List.length_append, List.length_nil]
      omega
  | cons e d ih =>
      obtain ⟨k, v⟩ := e
      simp only [Dict.set]
      split
      · simp only [encodeDict, List.length_append]
        omega
      split
      · simp only [encodeDict, List.length_append]
        omega
      · simp only [encodeDict, List.length_append]
        omega

/-- The encoding of a value is no longer than what the decoder has read. -/
theorem encode_length_le (hdata : data.length < 2 ^ 63) {fuel : Nat}
    (h : decodeElement data fuel i = .ok (v, j)) : i + (encode v).length ≤ j := by
  refine (decode_induction (P := fun i v j => i + (encode v).length ≤ j)
    (L := fun i items v j => ∃ vs, v = .list vs ∧
      i + (encodeList vs).length + 1 ≤ j + (encodeList items).length)
    (D := fun i entries v j => ∃ d, v = .dict d ∧
      i + (encodeDict d).length + 1 ≤ j + (encodeDict entries).length)
    ?int ?str ?list ?dict ?listEnd ?listItem ?dictEnd ?dictEntry fuel).1 i v j h
  case int => exact fun i v j _ h => encode_int_length_le h
  case str => exact fun i v j hc h => encode_str_length_le hdata hc h
  case list =>
    rintro i v j - ⟨vs, rfl, hle⟩
    rw [encode, List.length_cons, List.length_append, List.length_singleton]
    simp only [encodeList, List.length_nil] at hle
    omega
  case dict =>
    rintro i v j - ⟨d, rfl, hle⟩
    rw [encode, List.length_cons, List.length_append, List.length_singleton]
    simp only [encodeDict, List.length_nil] at hle
    omega
  case listEnd =>
    intro i items _
    exact ⟨items, rfl, by omega⟩
  case listItem =>
    rintro i items w k v j - hw ⟨vs, rfl, hle⟩
    rw [encodeList_append, List.length_append] at hle
    simp only [encodeList, List.append_nil] at hle
    exact ⟨vs, rfl, by omega⟩
  case dictEnd =>
    intro i entries _
    exact ⟨entries, rfl, by omega⟩
  case dictEntry =>
    rintro i entries key k w l v j - hkey hw ⟨d, rfl, hle⟩
    have hset := encodeDict_set_length_le key w entries
    rw [encode] at hkey
    exact ⟨d, rfl, by omega⟩

/-- What is decoded is encoded as a strict text of the same value, and no longer than the text it was
decoded from. -/
theorem encode_of_decode (hdata : data.length < 2 ^ 63) (h : decode data = .ok v) :
    Strict (encode v) ∧ decode (encode v) = .ok v ∧ (encode v).length ≤ data.length := by
  have hw := decode_wellFormed h
  have hle : (encode v).length ≤ data.length := by
    simp only [decode] at h
    obtain ⟨⟨w, j⟩, hdec, h⟩ := bind_eq_ok h
    obtain rfl : w = v := Except.ok.inj h
    have hread := encode_length_le hdata hdec
    have hj := (decodeElement_bounds hdata hdec).2
    omega
  exact ⟨strict_encode hw, decode_of_encode hw (by omega), hle⟩

/-- A list with blanks, a plus sign and leading zeros, and bytes behind it. -/
theorem encode_of_decode_blanks :
    decode (bytes "li  +007e02:abed") = .ok (.list [.int 7, .str (bytes "ab")]) ∧
      decode (encode (.list [.int 7, .str (bytes "ab")])) =
        .ok (.list [.int 7, .str (bytes "ab")]) := by
  have h : decode (bytes "li  +007e02:abed") = .ok (.list [.int 7, .str (bytes "ab")]) := rfl
  exact ⟨h, (encode_of_decode (by decide) h).2.1⟩

end Bnode

end NodeLink
