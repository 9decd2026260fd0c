import NodeLink.Parsing.RoundTrip

/-!
# Strict bencode

`Strict` is the strict grammar, on the bytes alone: numbers as `StrictInt`,
strings behind a length without leading zeros, lists, and dictionaries whose
keys increase strictly.

The strict texts are the encodings of the values the decoder can build
(`strict_encode` and `Strict.exists_encode`).  With the round trip, they are the
texts that decoding and encoding leave as they are.
-/

namespace NodeLink

/-- `s` is the byte string `t` behind its length. -/
def Spells (s : Buffer) (t : Str) : Prop :=
  ∃ ds, Numeral ds ∧ digitsValue ds = t.length ∧ s = ds ++ 58 :: t

mutual

/-- One value of the strict grammar. -/
inductive Strict : Buffer → Prop
  | int {s : Str} : StrictInt s → Strict (105 :: (s ++ [101]))
  | str {s : Buffer} {t : Str} : Spells s t → Strict s
  | list {s : Buffer} : StrictItems s → Strict (108 :: (s ++ [101]))
  | dict {s : Buffer} : StrictEntries none s → Strict (100 :: (s ++ [101]))

/-- Values one after another. -/
inductive StrictItems : Buffer → Prop
  | nil : StrictItems []
  | cons {s rest : Buffer} : Strict s → StrictItems rest → StrictItems (s ++ rest)

/-- Keys and values one after another, every key above the one before it. -/
inductive StrictEntries : Option Str → Buffer → Prop
  | nil {above : Option Str} : StrictEntries above []
  | cons {above : Option Str} {key : Str} {k s rest : Buffer} : (∀ a ∈ above, a < key) →
      Spells k key → Strict s → StrictEntries (some key) rest →
      StrictEntries above (k ++ (s ++ rest))

end

namespace Bnode

/-- A length without leading zeros is the one `Encode` prints. -/
theorem spells_iff {s : Buffer} {t : Str} : Spells s t ↔ s = encodeString t := by
  constructor
  · rintro ⟨ds, hn, hlen, rfl⟩
    rw [encodeString, ← hlen, ← hn.eq_toStringNat]
  · rintro rfl
    obtain ⟨hn, hval⟩ := numeral_toStringNat t.length
    exact ⟨_, hn, hval, rfl⟩

mutual

/-- The encoding of a value is strict. -/
theorem strict_encode : ∀ {v : Bnode}, v.WellFormed → Strict (encode v)
  | .int n, _ => by
      rw [encode]
      exact .int (strictInt_toStringInt n)
  | .str s, _ => by
      rw [encode]
      exact .str (spells_iff.mpr rfl)
  | .list vs, h => by
      rw [encode]
      exact .list (strictItems_encodeList h)
  | .dict d, h => by
      rw [encode]
      exact .dict (strictEntries_encodeDict h.1 h.2 nofun)

theorem strictItems_encodeList : ∀ {vs : List Bnode}, WellFormedList vs →
    StrictItems (encodeList vs)
  | [], _ => .nil
  | _ :: _, h => .cons (strict_encode h.1) (strictItems_encodeList h.2)

theorem strictEntries_encodeDict : ∀ {d : List (Str × Bnode)} {above : Option Str},
    Dict.Sorted d → WellFormedDict d → (∀ a ∈ above, ∀ e ∈ d, a < e.1) →
    StrictEntries above (encodeDict d)
  | [], _, _, _, _ => .nil
  | (k, v) :: d, above, hs, hw, ha => by
      obtain ⟨hk, hd⟩ := List.pairwise_cons.mp hs
      refine .cons ?_ (spells_iff.mpr rfl) (strict_encode hw.1) ?_
      · intro a hmem
        exact ha a hmem (k, v) List.mem_cons_self
      · refine strictEntries_encodeDict hd hw.2 ?_
        intro a hmem e he
        cases hmem
        exact hk e he

end

mutual

/-- A strict text is the encoding of a value. -/
theorem exists_encode_of_strict : ∀ {s : Buffer}, Strict s →
    ∃ v : Bnode, v.WellFormed ∧ encode v = s
  | _, .int h => by
      obtain ⟨n, rfl⟩ := h.exists_eq
      exact ⟨.int n, trivial, by rw [encode]⟩
  | _, .str h => by
      rw [spells_iff] at h
      exact ⟨.str _, trivial, by rw [encode, h]⟩
  | _, .list h => by
      obtain ⟨vs, hw, rfl⟩ := exists_encodeList_of_strictItems h
      exact ⟨.list vs, hw, by rw [encode]⟩
  | _, .dict h => by
      obtain ⟨d, hs, hw, -, rfl⟩ := exists_encodeDict_of_strictEntries h
      exact ⟨.dict d, ⟨hs, hw⟩, by rw [encode]⟩

theorem exists_encodeList_of_strictItems : ∀ {s : Buffer}, StrictItems s →
    ∃ vs : List Bnode, WellFormedList vs ∧ encodeList vs = s
  | _, .nil => ⟨[], trivial, rfl⟩
  | _, .cons h hrest => by
      obtain ⟨v, hv, rfl⟩ := exists_encode_of_strict h
      obtain ⟨vs, hvs, rfl⟩ := exists_encodeList_of_strictItems hrest
      exact ⟨v :: vs, ⟨hv, hvs⟩, rfl⟩

theorem exists_encodeDict_of_strictEntries : ∀ {above : Option Str} {s : Buffer},
    StrictEntries above s → ∃ d : List (Str × Bnode), Dict.Sorted d ∧ WellFormedDict d ∧
      (∀ a ∈ above, ∀ e ∈ d, a < e.1) ∧ encodeDict d = s
  | _, _, .nil => ⟨[], List.Pairwise.nil, trivial, nofun, rfl⟩
  | above, _, @StrictEntries.cons _ key _ _ _ ha hk h hrest => by
      rw [spells_iff] at hk
      subst hk
      obtain ⟨v, hv, rfl⟩ := exists_encode_of_strict h
      obtain ⟨d, hs, hw, hkey, rfl⟩ := exists_encodeDict_of_strictEntries hrest
      have hgt : ∀ e ∈ d, key < e.1 := hkey key rfl
      refine ⟨(key, v) :: d, List.pairwise_cons.mpr ⟨hgt, hs⟩, ⟨hv, hw⟩, ?_, rfl⟩
      intro a hmem e he
      rcases List.mem_cons.mp he with rfl | he
      · exact ha a hmem
      · exact List.lt_trans (ha a hmem) (hgt e he)

end

/-- Decoding and encoding leave exactly the strict texts as they are. -/
theorem encode_decode_eq_iff_strict {b : Buffer} (hb : b.length ≤ Cpp.maxSize) :
    (∃ v, decode b = .ok v ∧ encode v = b) ↔ Strict b := by
  constructor
  · rintro ⟨v, hv, rfl⟩
    exact strict_encode (decode_wellFormed hv)
  · intro h
    obtain ⟨v, hw, rfl⟩ := exists_encode_of_strict h
    simp only [Cpp.maxSize] at hb
    exact ⟨v, decode_of_encode hw (by omega), rfl⟩

/-- A list of a negative number. -/
theorem encode_decode_eq_iff_strict_list :
    (bytes "li-3ee").length ≤ Cpp.maxSize ∧
    ((∃ v, decode (bytes "li-3ee") = .ok v ∧ encode v = bytes "li-3ee") ↔
      Strict (bytes "li-3ee")) :=
  ⟨by decide, encode_decode_eq_iff_strict (by decide)⟩

end Bnode

end NodeLink
