import NodeLink.Parsing.RoundTrip

/-!
# An element ends where it says

What `DecodeElement` returns depends on the bytes it consumes and on nothing
behind them: on every buffer that agrees with the first up to the cursor, it
returns the same (`SelfDelimiting.agree`).  A buffer that ends before the cursor
makes it throw (`SelfDelimiting.cut`).  So a response or a file that was cut off
is never taken for another value.

Both are proved together, one lemma for each kind of node and for each turn of
the two loops, with the same fuel for both buffers.
-/

namespace NodeLink

variable {data data' : Buffer} {i j k m : Nat}

/-- The buffers agree on the first `j` bytes. -/
def Agree (j : Nat) (data data' : Buffer) : Prop := data'.take j = data.take j

namespace Agree

theorem mono (h : Agree j data data') (hk : k ≤ j) : Agree k data data' := by
  have hcut := congrArg (List.take k) h
  rwa [List.take_take, List.take_take, Nat.min_eq_left hk] at hcut

theorem take (h : k ≤ m) (data : Buffer) : Agree k data (data.take m) := by
  rw [Agree, List.take_take, Nat.min_eq_left h]

theorem getElem?_eq (h : Agree j data data') (hi : i < j) : data'[i]? = data[i]? := by
  rw [← List.getElem?_take_of_lt hi, h, List.getElem?_take_of_lt hi]

/-- The bytes between two positions. -/
theorem slice_eq (h : Agree j data data') (hk : k ≤ j) (i : Nat) :
    (data'.drop i).take (k - i) = (data.drop i).take (k - i) := by
  rw [← List.drop_take, ← List.drop_take, h.mono hk]

theorem standsAt {s : Buffer} (h : Agree j data data') (hi : i + s.length ≤ j)
    (hs : StandsAt data i s) : StandsAt data' i s := by
  have hslice := h.slice_eq hi i
  rw [Nat.add_sub_cancel_left, hs.take_eq] at hslice
  exact List.prefix_iff_eq_take.mpr hslice.symm

theorem le_length (h : Agree j data data') (hj : j ≤ data.length) : j ≤ data'.length := by
  have hlen := congrArg List.length h
  rw [List.length_take, List.length_take] at hlen
  omega

end Agree

namespace Bnode

variable {c : UInt8} {v : Bnode} {fuel : Nat}

/-! ## Scans -/

/-- What a scan that stops inside the buffer has passed. -/
theorem exists_scan (h : scanFor c data i < data.length) :
    ∃ w, c ∉ w ∧ scanFor c data i = i + w.length ∧ StandsAt data i (w ++ [c]) := by
  refine ⟨(data.drop i).takeWhile (· ≠ c), ?_, rfl, ?_⟩
  · intro hmem
    simpa using List.mem_takeWhile_imp hmem
  have hsplit := List.takeWhile_append_dropWhile (p := (· ≠ c)) (l := data.drop i)
  cases hd : (data.drop i).dropWhile (· ≠ c) with
  | nil =>
      rw [hd, List.append_nil] at hsplit
      simp only [scanFor] at h
      rw [hsplit, List.length_drop] at h
      omega
  | cons b rest =>
      have hb := List.head?_dropWhile_not (· ≠ c) (data.drop i)
      rw [hd] at hb hsplit
      have hbc : b = c := by simpa using hb
      subst hbc
      exact ⟨rest, by rw [List.append_assoc]; exact hsplit⟩

/-- A scan does not see what stands behind the byte it stops at. -/
theorem scanFor_agree (h : Agree j data data') (hj : scanFor c data i < j)
    (hlen : scanFor c data i < data.length) : scanFor c data' i = scanFor c data i := by
  obtain ⟨w, hw, hscan, hs⟩ := exists_scan hlen
  rw [hscan]
  refine scanFor_standsAt (h.standsAt ?_ hs) hw
  rw [List.length_append, List.length_singleton]
  omega

/-- A scan over a buffer cut before the byte it looks for reaches the end. -/
theorem scanFor_take (h : m ≤ scanFor c data i) :
    (data.take m).length ≤ scanFor c (data.take m) i := by
  have hall : ∀ b ∈ (data.take m).drop i, decide (b ≠ c) = true := by
    intro b hb
    rw [List.drop_take, ← List.takeWhile_append_dropWhile (p := (· ≠ c)) (l := data.drop i),
      List.take_append_of_le_length (by simp only [scanFor] at h; omega)] at hb
    exact List.mem_takeWhile_imp (p := fun b => decide (b ≠ c)) (List.mem_of_mem_take hb)
  simp only [scanFor]
  rw [List.takeWhile_eq_self_iff.mpr hall, List.length_drop]
  omega

/-! ## Numbers and strings -/

/-- A decoding call that returned `v` and the cursor `j` depends on the bytes before
`j` only, and throws where one of them is missing. -/
structure SelfDelimiting (run : Buffer → Except Halt (Bnode × Nat)) (data : Buffer) (i j : Nat)
    (v : Bnode) : Prop where
  lt : i < j
  agree : ∀ data', Agree j data data' → run data' = .ok (v, j)
  cut : ∀ m, i ≤ m → m < j → ∃ e, run (data.take m) = raise e

theorem selfDelimiting_int (h : decodeInt data i = .ok (v, j)) :
    SelfDelimiting (decodeInt · i) data i j v := by
  obtain ⟨n, rfl, rfl, hlt, hn⟩ := decodeInt_cases h
  have hle := le_scanFor 101 data i
  refine ⟨by omega, ?_, ?_⟩
  · intro data' hag
    have hlen := hag.le_length (by omega)
    have hslice := (hag.mono (Nat.le_succ _)).slice_eq (Nat.le_refl _) i
    simp only [decodeInt]
    rw [scanFor_agree hag (Nat.lt_succ_self _) hlt, if_neg (by omega), hslice, hn]
    rfl
  · intro m him hm
    have hend : (data.take m).length ≤ scanFor 101 (data.take m) i := scanFor_take (by omega)
    refine ⟨.runtimeError "Invalid Integer", ?_⟩
    simp only [decodeInt]
    rw [if_pos hend]

theorem selfDelimiting_str (hdata : data.length < 2 ^ 63)
    (hc : ∃ c, data[i]? = some c ∧ isDigit c = true) (h : decodeString data i = .ok (v, j)) :
    SelfDelimiting (decodeString · i) data i j v := by
  obtain ⟨len, hlen, hcolon, hj, hle, hv⟩ := decodeString_cases h
  obtain ⟨n, -, -, hstop⟩ := decodeString_stop hdata hc h
  have hscan := le_scanFor 58 data i
  have hbehind : scanFor 58 data i < j := by omega
  refine ⟨by omega, ?_, ?_⟩
  · intro data' hag
    have hlen' := hag.le_length hle
    have hnum := (hag.mono (Nat.le_of_lt hbehind)).slice_eq (Nat.le_refl _) i
    have hval := hag.slice_eq (Nat.le_refl j) (scanFor 58 data i + 1)
    simp only [decodeString]
    rw [scanFor_agree hag hbehind hcolon, if_neg (by omega), hnum, hlen]
    show (if (scanFor 58 data i + 1 + Cpp.toSizeT len.toInt) % 2 ^ 64 > data'.length then _
      else _) = _
    rw [← hj, if_neg (by omega), hval, hv]
    rfl
  · intro m him hm
    have hm' : (data.take m).length = m := List.length_take_of_le (by omega)
    rcases Nat.lt_or_ge (scanFor 58 data i) m with hlt | hge
    · -- The length is still there: the bytes behind the colon are too few.
      have hag : Agree m data (data.take m) := .take (Nat.le_refl m) data
      have hnum := (hag.mono (Nat.le_of_lt hlt)).slice_eq (Nat.le_refl _) i
      refine ⟨.runtimeError "String length out of bounds", ?_⟩
      simp only [decodeString]
      rw [scanFor_agree hag hlt hcolon, if_neg (by omega), hnum, hlen]
      show (if (scanFor 58 data i + 1 + Cpp.toSizeT len.toInt) % 2 ^ 64 > (data.take m).length
        then _ else _) = _
      rw [← hj, if_pos (by omega)]
    · have hend : (data.take m).length ≤ scanFor 58 (data.take m) i := scanFor_take hge
      refine ⟨.runtimeError "Invalid String length", ?_⟩
      simp only [decodeString]
      rw [if_pos hend]

/-! ## Lists, dictionaries and elements -/

theorem decodeElement_end {data : Buffer} (fuel : Nat) (h : data[i]? = none) :
    decodeElement data (fuel + 1) i = raise (.runtimeError "Unexpected end of buffer") := by
  simp only [decodeElement]
  rw [h]

/-- A call inside another one that throws. -/
theorem bind_raise {α β : Type} {x : Except Halt α} {e : Exn} (h : x = raise e)
    (f : α → Except Halt β) : (x >>= f) = raise e := by
  rw [h]
  rfl

theorem getElem?_take_self (data : Buffer) (m : Nat) : (data.take m)[m]? = none :=
  List.getElem?_eq_none (List.length_take_le m data)

theorem decodeList_of_getElem? {items : List Bnode} (hc : data[i]? = some c) (hne : c ≠ 101) :
    decodeList data (fuel + 1) i items = (do
      let (w, k) ← decodeElement data fuel i
      decodeList data fuel k (items ++ [w])) := by
  simp only [decodeList]
  rw [hc]
  exact if_neg hne

theorem decodeDict_of_getElem? {entries : List (Str × Bnode)} (hc : data[i]? = some c)
    (hne : c ≠ 101) : decodeDict data (fuel + 1) i entries = (do
      let (keyNode, k) ← decodeElement data fuel i
      if !keyNode.isString then raise (.runtimeError "Dict key must be string")
      else
        let key ← lift keyNode.toStr
        let (val, l) ← decodeElement data fuel k
        decodeDict data fuel l (Dict.set key val entries)) := by
  simp only [decodeDict]
  rw [hc]
  exact if_neg hne

/-- Once its key is read, an entry is its value and what follows. -/
theorem decodeDict_of_key {entries : List (Str × Bnode)} {key : Str} (hc : data[i]? = some c)
    (hne : c ≠ 101) (hkey : decodeElement data fuel i = .ok (.str key, k)) :
    decodeDict data (fuel + 1) i entries = (do
      let (val, l) ← decodeElement data fuel k
      decodeDict data fuel l (Dict.set key val entries)) := by
  rw [decodeDict_of_getElem? hc hne, hkey]
  rfl

/-- A loop ends at its `e`. -/
theorem SelfDelimiting.of_end {run : Buffer → Except Halt (Bnode × Nat)} {e : Exn}
    (h0 : data[i]? = some 101) (hrun : ∀ data', data'[i]? = some 101 → run data' = .ok (v, i + 1))
    (hcut : ∀ data', data'[i]? = none → run data' = raise e) :
    SelfDelimiting run data i (i + 1) v where
  lt := Nat.lt_succ_self i
  agree data' hag := hrun data' ((hag.getElem?_eq (Nat.lt_succ_self i)).trans h0)
  cut m him hm := by
    obtain rfl : m = i := by omega
    exact ⟨e, hcut _ (getElem?_take_self data m)⟩

theorem selfDelimiting_listEnd {items : List Bnode} (h0 : data[i]? = some 101) :
    SelfDelimiting (decodeList · (fuel + 1) i items) data i (i + 1) (.list items) := by
  refine .of_end (e := .runtimeError "Unclosed List") h0 ?_ ?_
  · intro data' h
    exact decodeList_end h
  · intro data' h
    simp only [decodeList]
    rw [h]

theorem selfDelimiting_listItem {items : List Bnode} {w : Bnode}
    (hb : ∃ b, data[i]? = some b ∧ b ≠ 101)
    (hw : SelfDelimiting (decodeElement · fuel i) data i k w)
    (hrest : SelfDelimiting (decodeList · fuel k (items ++ [w])) data k j v) :
    SelfDelimiting (decodeList · (fuel + 1) i items) data i j v := by
  obtain ⟨b, hb, hne⟩ := hb
  have hik := hw.lt
  have hkj := hrest.lt
  refine ⟨by omega, ?_, ?_⟩
  · intro data' hag
    have hb' : data'[i]? = some b := (hag.getElem?_eq (by omega)).trans hb
    show decodeList data' (fuel + 1) i items = _
    rw [decodeList_item hb' hne (hw.agree data' (hag.mono (by omega)))]
    exact hrest.agree data' hag
  · intro m him hm
    show ∃ e, decodeList (data.take m) (fuel + 1) i items = raise e
    rcases Nat.eq_or_lt_of_le him with rfl | hlt
    · refine ⟨.runtimeError "Unclosed List", ?_⟩
      simp only [decodeList]
      rw [getElem?_take_self]
    have hb' : (data.take m)[i]? = some b := (List.getElem?_take_of_lt hlt).trans hb
    rw [decodeList_of_getElem? hb' hne]
    rcases Nat.lt_or_ge m k with hmk | hkm
    · obtain ⟨e, he⟩ := hw.cut m him hmk
      exact ⟨e, bind_raise he _⟩
    · rw [show decodeElement (data.take m) fuel i = _ from hw.agree _ (.take hkm data)]
      exact hrest.cut m hkm hm

theorem selfDelimiting_dictEnd {entries : List (Str × Bnode)} (h0 : data[i]? = some 101) :
    SelfDelimiting (decodeDict · (fuel + 1) i entries) data i (i + 1) (.dict entries) := by
  refine .of_end (e := .runtimeError "Unclosed Dictionary") h0 ?_ ?_
  · intro data' h
    exact decodeDict_end h
  · intro data' h
    simp only [decodeDict]
    rw [h]

theorem selfDelimiting_dictEntry {entries : List (Str × Bnode)} {key : Str} {w : Bnode} {l : Nat}
    (hb : ∃ b, data[i]? = some b ∧ b ≠ 101)
    (hkey : SelfDelimiting (decodeElement · fuel i) data i k (.str key))
    (hw : SelfDelimiting (decodeElement · fuel k) data k l w)
    (hrest : SelfDelimiting (decodeDict · fuel l (Dict.set key w entries)) data l j v) :
    SelfDelimiting (decodeDict · (fuel + 1) i entries) data i j v := by
  obtain ⟨b, hb, hne⟩ := hb
  have hik := hkey.lt
  have hkl := hw.lt
  have hlj := hrest.lt
  refine ⟨by omega, ?_, ?_⟩
  · intro data' hag
    have hb' : data'[i]? = some b := (hag.getElem?_eq (by omega)).trans hb
    show decodeDict data' (fuel + 1) i entries = _
    rw [decodeDict_entry hb' hne (hkey.agree data' (hag.mono (by omega)))
      (hw.agree data' (hag.mono (by omega)))]
    exact hrest.agree data' hag
  · intro m him hm
    show ∃ e, decodeDict (data.take m) (fuel + 1) i entries = raise e
    rcases Nat.eq_or_lt_of_le him with rfl | hlt
    · refine ⟨.runtimeError "Unclosed Dictionary", ?_⟩
      simp only [decodeDict]
      rw [getElem?_take_self]
    have hb' : (data.take m)[i]? = some b := (List.getElem?_take_of_lt hlt).trans hb
    rcases Nat.lt_or_ge m k with hmk | hkm
    · obtain ⟨e, he⟩ := hkey.cut m him hmk
      rw [decodeDict_of_getElem? hb' hne]
      exact ⟨e, bind_raise he _⟩
    rw [decodeDict_of_key hb' hne (hkey.agree _ (.take hkm data))]
    rcases Nat.lt_or_ge m l with hml | hlm
    · obtain ⟨e, he⟩ := hw.cut m hkm hml
      exact ⟨e, bind_raise he _⟩
    · rw [show decodeElement (data.take m) fuel k = _ from hw.agree _ (.take hlm data)]
      exact hrest.cut m hlm hm

/-- An element is its first byte and what is read behind it. -/
theorem SelfDelimiting.of_step {run : Buffer → Except Halt (Bnode × Nat)}
    (hc : data[i]? = some c) (h : SelfDelimiting run data k j v) (hik : i ≤ k)
    (hki : k ≤ i + 1)
    (hrun : ∀ data', data'[i]? = some c → decodeElement data' (fuel + 1) i = run data') :
    SelfDelimiting (decodeElement · (fuel + 1) i) data i j v where
  lt := Nat.lt_of_le_of_lt hik h.lt
  agree data' hag := by
    have hi : i < j := Nat.lt_of_le_of_lt hik h.lt
    exact (hrun data' ((hag.getElem?_eq hi).trans hc)).trans (h.agree data' hag)
  cut m him hm := by
    show ∃ e, decodeElement (data.take m) (fuel + 1) i = raise e
    rcases Nat.eq_or_lt_of_le him with rfl | hlt
    · exact ⟨_, decodeElement_end fuel (getElem?_take_self data i)⟩
    · rw [hrun _ ((List.getElem?_take_of_lt hlt).trans hc)]
      exact h.cut m (by omega) hm

/-- Every element, list and dictionary the decoder reads is self-delimiting. -/
theorem selfDelimiting (hdata : data.length < 2 ^ 63) : ∀ fuel,
    (∀ i v j, decodeElement data fuel i = .ok (v, j) →
      SelfDelimiting (decodeElement · fuel i) data i j v) ∧
    (∀ i items v j, decodeList data fuel i items = .ok (v, j) →
      SelfDelimiting (decodeList · fuel i items) data i j v) ∧
    (∀ i entries v j, decodeDict data fuel i entries = .ok (v, j) →
      SelfDelimiting (decodeDict · fuel i entries) data i j v) := by
  intro fuel
  induction fuel with
  | zero =>
      refine ⟨?_, ?_, ?_⟩
      · intro i v j h
        cases h
      · intro i items v j h
        cases h
      · intro i entries v j h
        cases h
  | succ fuel ih =>
      obtain ⟨hP, hL, hD⟩ := ih
      refine ⟨?_, ?_, ?_⟩
      · intro i v j h
        rcases decodeElement_cases h with ⟨h0, h⟩ | ⟨h0, h⟩ | ⟨h0, h⟩ | ⟨⟨c, h0, hd⟩, h⟩
        · refine .of_step h0 (selfDelimiting_int h) (Nat.le_succ i) (Nat.le_refl _) ?_
          intro data' h'
          rw [decodeElement_of_getElem? h', if_pos rfl]
        · refine .of_step h0 (hL _ _ _ _ h) (Nat.le_succ i) (Nat.le_refl _) ?_
          intro data' h'
          rw [decodeElement_of_getElem? h', if_neg (by decide), if_pos rfl]
        · refine .of_step h0 (hD _ _ _ _ h) (Nat.le_succ i) (Nat.le_refl _) ?_
          intro data' h'
          rw [decodeElement_of_getElem? h', if_neg (by decide), if_neg (by decide), if_pos rfl]
        · obtain ⟨-, -, -, -, -, h1, h2, h3⟩ := isDigit_facts hd
          refine .of_step h0 (selfDelimiting_str hdata ⟨c, h0, hd⟩ h) (Nat.le_refl i)
            (Nat.le_succ i) ?_
          intro data' h'
          rw [decodeElement_of_getElem? h', if_neg h1, if_neg h2, if_neg h3, if_pos hd]
      · intro i items v j h
        rcases decodeList_cases h with ⟨h0, rfl, rfl⟩ | ⟨c, w, k, hc, hne, hw, h⟩
        · exact selfDelimiting_listEnd h0
        · exact selfDelimiting_listItem ⟨c, hc, hne⟩ (hP _ _ _ hw) (hL _ _ _ _ h)
      · intro i entries v j h
        rcases decodeDict_cases h with ⟨h0, rfl, rfl⟩ | ⟨c, key, k, w, l, hc, hne, hk, hw, h⟩
        · exact selfDelimiting_dictEnd h0
        · exact selfDelimiting_dictEntry ⟨c, hc, hne⟩ (hP _ _ _ hk) (hP _ _ _ hw)
            (hD _ _ _ _ h)

/-- `DecodeElement` sees only what it consumes: on every buffer that agrees up to the
final cursor it returns the same, and on every buffer cut before the cursor it throws. -/
theorem decodeElement_selfDelimiting (hdata : data.length ≤ Cpp.maxSize)
    (h : decodeElement data fuel i = .ok (v, j)) :
    (∀ data', data'.take j = data.take j → decodeElement data' fuel i = .ok (v, j)) ∧
    ∀ m, i ≤ m → m < j → ∃ e, decodeElement (data.take m) fuel i = raise e := by
  simp only [Cpp.maxSize] at hdata
  have hself := (selfDelimiting (by omega) fuel).1 i v j h
  exact ⟨hself.agree, hself.cut⟩

theorem nested_wellFormed : nested.WellFormed :=
  ⟨List.pairwise_pair.mpr (by decide), trivial, ⟨trivial, trivial, trivial⟩, trivial⟩

/-- The nested value is read back between two bytes that could open and close a list. -/
theorem decodeElement_nested :
    decodeElement (bytes "l" ++ encode nested ++ bytes "e") 100 1 = .ok (nested, 24) :=
  decodeElement_encode nested nested_wellFormed (by decide) (by decide) (by decide)
    (.of_append (bytes "l") (encode nested) (bytes "e"))

/-- The law for the nested value there. -/
theorem decodeElement_selfDelimiting_nested :
    (bytes "l" ++ encode nested ++ bytes "e").length ≤ Cpp.maxSize ∧
    decodeElement (bytes "l" ++ encode nested ++ bytes "e") 100 1 = .ok (nested, 24) ∧
    (∀ data', data'.take 24 = (bytes "l" ++ encode nested ++ bytes "e").take 24 →
      decodeElement data' 100 1 = .ok (nested, 24)) ∧
    ∀ m, 1 ≤ m → m < 24 →
      ∃ e, decodeElement ((bytes "l" ++ encode nested ++ bytes "e").take m) 100 1 = raise e := by
  exact ⟨by decide, decodeElement_nested, decodeElement_selfDelimiting (by decide) decodeElement_nested⟩

/-- `Decode` throws on every buffer cut before the final cursor. -/
theorem decode_take (hdata : data.length < 2 ^ 63) (h : decodeElement data fuel 0 = .ok (v, j))
    (hm : m < j) : ∃ e, decode (data.take m) = raise e := by
  cases hdec : decodeElement (data.take m) (fuelFor (data.take m)) 0 with
  | ok r =>
      -- A result and an exception would both be there with fuel enough for either.
      have hr := decodeElement_le_of_ok hdec (Nat.le_max_left _ fuel)
      have ho := decodeElement_le_of_ok h (Nat.le_max_right (fuelFor (data.take m)) fuel)
      obtain ⟨e, he⟩ := ((selfDelimiting hdata _).1 0 v j ho).cut m (Nat.zero_le m) hm
      cases hr.symm.trans he
  | error e =>
      cases e with
      | exn e => exact ⟨e, bind_raise hdec _⟩
      | fuel =>
          have hlen := List.length_take_le' m data
          refine absurd hdec ((enough_fuel (by omega) _).1 0 ?_)
          simp only [fuelFor]
          omega

end Bnode

end NodeLink
