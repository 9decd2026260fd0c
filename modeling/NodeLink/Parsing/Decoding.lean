import NodeLink.Parsing.Numbers

/-!
# What a decoding does

One inversion lemma for each of the three functions of the decoder, and from
them `decode_induction`: a property of every element, list and dictionary the
decoder reads follows from its cases.

Two consequences are used everywhere.  The maps in a decoded value are in key
order, as a `std::map` is (`decodeElement_wellFormed`).  In a buffer that fits
in memory the cursor moves forward and stays inside (`decodeElement_bounds`), so
the fuel of `decode` never runs out (`decode_ne_fuel`).
-/

namespace NodeLink

/-! ## Maps in key order -/

namespace Dict

variable {α : Type}

/-- The keys increase strictly. -/
def Sorted (d : List (Str × α)) : Prop := d.Pairwise fun e f => e.1 < f.1

/-- Keys that are neither equal nor in order are in the other order. -/
theorem gt_of_ne_of_not_lt {a b : Str} (hne : a ≠ b) (h : ¬a < b) : b < a := by
  rcases List.le_iff_lt_or_eq.mp (List.not_lt.mp h) with hlt | heq
  · exact hlt
  · exact absurd heq.symm hne

/-- A key above all others comes last. -/
theorem set_of_gt {key : Str} {val : α} : ∀ {d : List (Str × α)}, (∀ e ∈ d, e.1 < key) →
    set key val d = d ++ [(key, val)]
  | [], _ => rfl
  | (k, v) :: d, h => by
      have hk : k < key := h (k, v) List.mem_cons_self
      have hne : key ≠ k := fun e => List.lt_irrefl k (e ▸ hk)
      have hnlt : ¬key < k := fun e => List.lt_irrefl k (List.lt_trans hk e)
      have ih : set key val d = d ++ [(key, val)] :=
        set_of_gt fun e he => h e (List.mem_cons_of_mem _ he)
      simp only [set]
      rw [if_neg hne, if_neg hnlt, ih]
      rfl

theorem mem_set {key : Str} {val : α} {e : Str × α} : ∀ {d : List (Str × α)},
    e ∈ set key val d → e = (key, val) ∨ e ∈ d
  | [], h => .inl (List.mem_singleton.mp h)
  | (k, v) :: d, h => by
      simp only [set] at h
      split at h
      · rcases List.mem_cons.mp h with h | h
        · exact .inl h
        · exact .inr (List.mem_cons_of_mem _ h)
      split at h
      · exact List.mem_cons.mp h
      · rcases List.mem_cons.mp h with h | h
        · exact .inr (h ▸ List.mem_cons_self)
        · rcases mem_set h with h | h
          · exact .inl h
          · exact .inr (List.mem_cons_of_mem _ h)

/-- Setting a key keeps the keys in order. -/
theorem Sorted.set {key : Str} {val : α} : ∀ {d : List (Str × α)}, Sorted d →
    Sorted (Dict.set key val d)
  | [], _ => List.pairwise_singleton _ _
  | (k, v) :: d, h => by
      obtain ⟨hk, hd⟩ := List.pairwise_cons.mp h
      simp only [Dict.set]
      split
      · rename_i heq
        subst heq
        exact List.pairwise_cons.mpr ⟨hk, hd⟩
      rename_i hne
      split
      · rename_i hlt
        refine List.pairwise_cons.mpr ⟨?_, h⟩
        intro e he
        rcases List.mem_cons.mp he with rfl | he
        · exact hlt
        · exact List.lt_trans hlt (hk e he)
      · rename_i hnlt
        refine List.pairwise_cons.mpr ⟨?_, Sorted.set hd⟩
        intro e he
        rcases mem_set he with rfl | he
        · exact gt_of_ne_of_not_lt hne hnlt
        · exact hk e he

end Dict

namespace Bnode

/-! ## Inversion -/

theorem getElem?_lt {data : Buffer} {i : Nat} {c : UInt8} (h : data[i]? = some c) :
    i < data.length := (List.getElem?_eq_some_iff.mp h).1

/-- What an element of a buffer can be. -/
theorem decodeElement_cases {data : Buffer} {fuel i j : Nat} {v : Bnode}
    (h : decodeElement data (fuel + 1) i = .ok (v, j)) :
    (data[i]? = some 105 ∧ decodeInt data (i + 1) = .ok (v, j)) ∨
    (data[i]? = some 108 ∧ decodeList data fuel (i + 1) [] = .ok (v, j)) ∨
    (data[i]? = some 100 ∧ decodeDict data fuel (i + 1) [] = .ok (v, j)) ∨
    ((∃ c, data[i]? = some c ∧ isDigit c = true) ∧ decodeString data i = .ok (v, j)) := by
  simp only [decodeElement] at h
  split at h
  · cases h
  rename_i c hc
  split at h
  · rename_i h0
    exact .inl ⟨h0 ▸ hc, h⟩
  split at h
  · rename_i h0
    exact .inr (.inl ⟨h0 ▸ hc, h⟩)
  split at h
  · rename_i h0
    exact .inr (.inr (.inl ⟨h0 ▸ hc, h⟩))
  split at h
  · rename_i h0
    exact .inr (.inr (.inr ⟨⟨c, hc, h0⟩, h⟩))
  · cases h

/-- A list ends at an `e` or goes on with an item. -/
theorem decodeList_cases {data : Buffer} {fuel i j : Nat} {items : List Bnode} {v : Bnode}
    (h : decodeList data (fuel + 1) i items = .ok (v, j)) :
    (data[i]? = some 101 ∧ v = .list items ∧ j = i + 1) ∨
    ∃ c w k, data[i]? = some c ∧ c ≠ 101 ∧ decodeElement data fuel i = .ok (w, k) ∧
      decodeList data fuel k (items ++ [w]) = .ok (v, j) := by
  simp only [decodeList] at h
  split at h
  · cases h
  rename_i c hc
  split at h
  · rename_i h0
    cases h
    exact .inl ⟨h0 ▸ hc, rfl, rfl⟩
  · rename_i h0
    obtain ⟨⟨w, k⟩, hw, h⟩ := bind_eq_ok h
    exact .inr ⟨c, w, k, hc, h0, hw, h⟩

/-- A dictionary ends at an `e` or goes on with a key and a value. -/
theorem decodeDict_cases {data : Buffer} {fuel i j : Nat} {entries : List (Str × Bnode)}
    {v : Bnode} (h : decodeDict data (fuel + 1) i entries = .ok (v, j)) :
    (data[i]? = some 101 ∧ v = .dict entries ∧ j = i + 1) ∨
    ∃ c key k w l, data[i]? = some c ∧ c ≠ 101 ∧ decodeElement data fuel i = .ok (.str key, k) ∧
      decodeElement data fuel k = .ok (w, l) ∧
      decodeDict data fuel l (Dict.set key w entries) = .ok (v, j) := by
  simp only [decodeDict] at h
  split at h
  · cases h
  rename_i c hc
  split at h
  · rename_i h0
    cases h
    exact .inl ⟨h0 ▸ hc, rfl, rfl⟩
  · rename_i h0
    obtain ⟨⟨keyNode, k⟩, hkey, hrest⟩ := bind_eq_ok h
    split at hrest
    · cases hrest
    obtain ⟨key, hstr, hval⟩ := bind_eq_ok hrest
    obtain ⟨⟨w, l⟩, hw, hloop⟩ := bind_eq_ok hval
    have hnode : keyNode = .str key := getString_eq_ok (lift_eq_ok hstr)
    exact .inr ⟨c, key, k, w, l, hc, h0, hnode ▸ hkey, hw, hloop⟩

/-- The integer case returns a number and the position behind the next `e`. -/
theorem decodeInt_cases {data : Buffer} {i j : Nat} {v : Bnode}
    (h : decodeInt data i = .ok (v, j)) :
    ∃ n, v = .int n ∧ j = scanFor 101 data i + 1 ∧ scanFor 101 data i < data.length ∧
      stoll ((data.drop i).take (scanFor 101 data i - i)) = .ok n := by
  simp only [decodeInt] at h
  split at h
  · cases h
  obtain ⟨n, hn, h⟩ := bind_eq_ok h
  cases h
  exact ⟨n, rfl, rfl, by omega, lift_eq_ok hn⟩

/-- The string case returns the bytes behind the next colon. -/
theorem decodeString_cases {data : Buffer} {i j : Nat} {v : Bnode}
    (h : decodeString data i = .ok (v, j)) :
    ∃ len, stoll ((data.drop i).take (scanFor 58 data i - i)) = .ok len ∧
      scanFor 58 data i < data.length ∧
      j = (scanFor 58 data i + 1 + Cpp.toSizeT len.toInt) % 2 ^ 64 ∧ j ≤ data.length ∧
      v = .str ((data.drop (scanFor 58 data i + 1)).take (j - (scanFor 58 data i + 1))) := by
  simp only [decodeString] at h
  split at h
  · cases h
  obtain ⟨len, hlen, h⟩ := bind_eq_ok h
  split at h
  · cases h
  cases h
  exact ⟨len, lift_eq_ok hlen, by omega, rfl, by omega, rfl⟩

/-- Induction over what the decoder reads: `P` is about elements, `L` about the
rest of a list behind the items read, `D` about the rest of a dictionary. -/
theorem decode_induction {data : Buffer} {P : Nat → Bnode → Nat → Prop}
    {L : Nat → List Bnode → Bnode → Nat → Prop}
    {D : Nat → List (Str × Bnode) → Bnode → Nat → Prop}
    (int : ∀ i v j, data[i]? = some 105 → decodeInt data (i + 1) = .ok (v, j) → P i v j)
    (str : ∀ i v j, (∃ c, data[i]? = some c ∧ isDigit c = true) →
      decodeString data i = .ok (v, j) → P i v j)
    (list : ∀ i v j, data[i]? = some 108 → L (i + 1) [] v j → P i v j)
    (dict : ∀ i v j, data[i]? = some 100 → D (i + 1) [] v j → P i v j)
    (listEnd : ∀ i items, data[i]? = some 101 → L i items (.list items) (i + 1))
    (listItem : ∀ i items w k v j, (∃ c, data[i]? = some c ∧ c ≠ 101) → P i w k →
      L k (items ++ [w]) v j → L i items v j)
    (dictEnd : ∀ i entries, data[i]? = some 101 → D i entries (.dict entries) (i + 1))
    (dictEntry : ∀ i entries key k w l v j, (∃ c, data[i]? = some c ∧ c ≠ 101) →
      P i (.str key) k → P k w l → D l (Dict.set key w entries) v j → D i entries v j) :
    ∀ fuel, (∀ i v j, decodeElement data fuel i = .ok (v, j) → P i v j) ∧
      (∀ i items v j, decodeList data fuel i items = .ok (v, j) → L i items v j) ∧
      (∀ i entries v j, decodeDict data fuel i entries = .ok (v, j) → D i entries v j) := by
  intro fuel
  induction fuel with
  | zero =>
      refine ⟨?_, ?_, ?_⟩
      · intro i v j h
        cases h
      · intro i items v j h
        cases h
      · intro i entries v j h
        cases h
  | succ fuel ih =>
      obtain ⟨hP, hL, hD⟩ := ih
      refine ⟨?_, ?_, ?_⟩
      · intro i v j h
        rcases decodeElement_cases h with ⟨h0, h⟩ | ⟨h0, h⟩ | ⟨h0, h⟩ | ⟨h0, h⟩
        · exact int i v j h0 h
        · exact list i v j h0 (hL _ _ _ _ h)
        · exact dict i v j h0 (hD _ _ _ _ h)
        · exact str i v j h0 h
      · intro i items v j h
        rcases decodeList_cases h with ⟨h0, rfl, rfl⟩ | ⟨c, w, k, hc, hne, hw, h⟩
        · exact listEnd i items h0
        · exact listItem i items w k v j ⟨c, hc, hne⟩ (hP _ _ _ hw) (hL _ _ _ _ h)
      · intro i entries v j h
        rcases decodeDict_cases h with ⟨h0, rfl, rfl⟩ | ⟨c, key, k, w, l, hc, hne, hk, hw, h⟩
        · exact dictEnd i entries h0
        · exact dictEntry i entries key k w l v j ⟨c, hc, hne⟩ (hP _ _ _ hk) (hP _ _ _ hw)
            (hD _ _ _ _ h)

/-! ## One step -/

/-- The first byte of an element decides how `DecodeElement` goes on. -/
theorem decodeElement_of_getElem? {data : Buffer} {fuel i : Nat} {c : UInt8}
    (h : data[i]? = some c) : decodeElement data (fuel + 1) i =
      if c = 105 then decodeInt data (i + 1)
      else if c = 108 then decodeList data fuel (i + 1) []
      else if c = 100 then decodeDict data fuel (i + 1) []
      else if isDigit c then decodeString data i
      else raise (.runtimeError "Unknown Bencode type") := by
  simp only [decodeElement]
  rw [h]

theorem decodeList_end {data : Buffer} {fuel i : Nat} {items : List Bnode}
    (h : data[i]? = some 101) :
    decodeList data (fuel + 1) i items = .ok (.list items, i + 1) := by
  simp only [decodeList]
  rw [h]
  rfl

theorem decodeList_item {data : Buffer} {fuel i j : Nat} {items : List Bnode} {v : Bnode}
    {c : UInt8} (hc : data[i]? = some c) (hne : c ≠ 101)
    (h : decodeElement data fuel i = .ok (v, j)) :
    decodeList data (fuel + 1) i items = decodeList data fuel j (items ++ [v]) := by
  simp only [decodeList]
  rw [hc]
  show (if c = 101 then _ else _) = _
  rw [if_neg hne, h]
  rfl

theorem decodeDict_end {data : Buffer} {fuel i : Nat} {entries : List (Str × Bnode)}
    (h : data[i]? = some 101) :
    decodeDict data (fuel + 1) i entries = .ok (.dict entries, i + 1) := by
  simp only [decodeDict]
  rw [h]
  rfl

theorem decodeDict_entry {data : Buffer} {fuel i j k : Nat} {entries : List (Str × Bnode)}
    {key : Str} {v : Bnode} {c : UInt8} (hc : data[i]? = some c) (hne : c ≠ 101)
    (hkey : decodeElement data fuel i = .ok (.str key, j))
    (hval : decodeElement data fuel j = .ok (v, k)) :
    decodeDict data (fuel + 1) i entries =
      decodeDict data fuel k (Dict.set key v entries) := by
  simp only [decodeDict]
  rw [hc]
  show (if c = 101 then _ else _) = _
  rw [if_neg hne, hkey]
  show (decodeElement data fuel j >>= _) = _
  rw [hval]
  rfl

/-! ## Decoded maps are in key order -/

mutual

/-- Every map inside has its keys in strictly increasing order, as a `std::map` has. -/
def WellFormed : Bnode → Prop
  | .int _ => True
  | .str _ => True
  | .list vs => WellFormedList vs
  | .dict d => Dict.Sorted d ∧ WellFormedDict d

/-- `WellFormed` for the items of a list. -/
def WellFormedList : List Bnode → Prop
  | [] => True
  | v :: vs => v.WellFormed ∧ WellFormedList vs

/-- `WellFormed` for the values of a map. -/
def WellFormedDict : List (Str × Bnode) → Prop
  | [] => True
  | (_, v) :: d => v.WellFormed ∧ WellFormedDict d

end

theorem wellFormedList_iff : ∀ {vs : List Bnode},
    WellFormedList vs ↔ ∀ v ∈ vs, v.WellFormed
  | [] => by simp [WellFormedList]
  | v :: vs => by
      simp only [WellFormedList, List.forall_mem_cons]
      rw [wellFormedList_iff]

theorem wellFormedDict_iff : ∀ {d : List (Str × Bnode)},
    WellFormedDict d ↔ ∀ e ∈ d, e.2.WellFormed
  | [] => by simp [WellFormedDict]
  | (k, v) :: d => by
      simp only [WellFormedDict, List.forall_mem_cons]
      rw [wellFormedDict_iff]

theorem WellFormedDict.set {key : Str} {w : Bnode} {d : List (Str × Bnode)}
    (hd : WellFormedDict d) (hw : w.WellFormed) : WellFormedDict (Dict.set key w d) := by
  rw [wellFormedDict_iff] at hd ⊢
  intro e he
  rcases Dict.mem_set he with rfl | he
  · exact hw
  · exact hd e he

/-- A decoded value has its maps in key order. -/
theorem decodeElement_wellFormed {data : Buffer} {fuel i j : Nat} {v : Bnode}
    (h : decodeElement data fuel i = .ok (v, j)) : v.WellFormed := by
  refine (decode_induction (P := fun _ v _ => v.WellFormed)
    (L := fun _ items v _ => WellFormedList items → v.WellFormed)
    (D := fun _ entries v _ => Dict.Sorted entries → WellFormedDict entries → v.WellFormed)
    ?_ ?_ ?_ ?_ ?_ ?_ ?_ ?_ fuel).1 i v j h
  · intro i v j _ h
    obtain ⟨n, rfl, -⟩ := decodeInt_cases h
    trivial
  · intro i v j _ h
    obtain ⟨len, -, -, -, -, rfl⟩ := decodeString_cases h
    trivial
  · intro i v j _ h
    exact h trivial
  · intro i v j _ h
    exact h List.Pairwise.nil trivial
  · intro i items _ h
    exact h
  · intro i items w k v j _ hw h hi
    refine h ?_
    rw [wellFormedList_iff] at hi ⊢
    intro x hx
    rcases List.mem_append.mp hx with hx | hx
    · exact hi x hx
    · rw [List.mem_singleton.mp hx]
      exact hw
  · intro i entries _ hs hd
    exact ⟨hs, hd⟩
  · intro i entries key k w l v j _ _ hw h hs hd
    exact h hs.set (hd.set hw)

theorem decode_wellFormed {data : Buffer} {v : Bnode} (h : decode data = .ok v) :
    v.WellFormed := by
  simp only [decode] at h
  obtain ⟨⟨w, j⟩, hw, h⟩ := bind_eq_ok h
  cases h
  exact decodeElement_wellFormed hw

/-! ## The cursor -/

theorem le_scanFor (c : UInt8) (data : Buffer) (i : Nat) : i ≤ scanFor c data i :=
  Nat.le_add_right i _

/-- A scan that starts at another byte moves. -/
theorem lt_scanFor {c b : UInt8} {data : Buffer} {i : Nat} (h : data[i]? = some b) (hb : b ≠ c) :
    i < scanFor c data i := by
  obtain ⟨hi, hget⟩ := List.getElem?_eq_some_iff.mp h
  simp only [scanFor]
  rw [List.drop_eq_getElem_cons hi, hget, List.takeWhile_cons_of_pos (by simpa using hb)]
  simp

/-- What `std::stoll` reads from a digit on is not negative. -/
theorem stoll_nonneg {c : UInt8} {s : Str} {n : Int64} (hc : isDigit c = true)
    (h : stoll (c :: s) = .ok n) : 0 ≤ n.toInt := by
  simp only [stoll] at h
  rw [List.dropWhile_cons_of_neg (by simp [(isDigit_facts hc).1]), takeSign_digit hc] at h
  simp only [Bool.false_eq_true, if_false] at h
  split at h
  · cases h
  split at h
  · cases h
  · cases h
    rw [Cpp.toInt_ofInt64]
    omega

/-- The integer case moves the cursor forward, inside the buffer. -/
theorem decodeInt_bounds {data : Buffer} {i j : Nat} {v : Bnode}
    (h : decodeInt data i = .ok (v, j)) : i < j ∧ j ≤ data.length := by
  obtain ⟨n, -, rfl, hlt, -⟩ := decodeInt_cases h
  have := le_scanFor 101 data i
  omega

/-- The length before a string is not negative. -/
theorem stringLength_nonneg {data : Buffer} {i : Nat} {c : UInt8} {len : Int64}
    (hc : data[i]? = some c) (hd : isDigit c = true)
    (h : stoll ((data.drop i).take (scanFor 58 data i - i)) = .ok len) : 0 ≤ len.toInt := by
  have hscan := lt_scanFor hc (isDigit_facts hd).2.2.2.1
  have hhead : (data.drop i).take (scanFor 58 data i - i) =
      c :: (data.drop (i + 1)).take (scanFor 58 data i - i - 1) := by
    rw [List.drop_eq_getElem_cons (getElem?_lt hc), (List.getElem?_eq_some_iff.mp hc).2,
      show scanFor 58 data i - i = scanFor 58 data i - i - 1 + 1 by omega]
    rfl
  exact stoll_nonneg hd (hhead ▸ h)

/-- So in a buffer that fits in memory the sum of the source does not wrap. -/
theorem decodeString_stop {data : Buffer} {i j : Nat} {v : Bnode} (hdata : data.length < 2 ^ 63)
    (hc : ∃ c, data[i]? = some c ∧ isDigit c = true) (h : decodeString data i = .ok (v, j)) :
    ∃ len : Int64, 0 ≤ len.toInt ∧
      stoll ((data.drop i).take (scanFor 58 data i - i)) = .ok len ∧
      j = scanFor 58 data i + 1 + len.toInt.toNat := by
  obtain ⟨c, hc, hdig⟩ := hc
  obtain ⟨len, hlen, hcolon, hj, hle, -⟩ := decodeString_cases h
  have hnn := stringLength_nonneg hc hdig hlen
  have hhi := len.toInt_lt
  refine ⟨len, hnn, hlen, ?_⟩
  rw [hj, Cpp.toSizeT, Int.emod_eq_of_lt hnn (by omega), Nat.mod_eq_of_lt (by omega)]

/-- The string case moves the cursor forward, inside the buffer. -/
theorem decodeString_bounds {data : Buffer} {i j : Nat} {v : Bnode}
    (hdata : data.length < 2 ^ 63) (hc : ∃ c, data[i]? = some c ∧ isDigit c = true)
    (h : decodeString data i = .ok (v, j)) : i < j ∧ j ≤ data.length := by
  obtain ⟨len, -, -, hj⟩ := decodeString_stop hdata hc h
  obtain ⟨-, -, -, -, hle, -⟩ := decodeString_cases h
  have := le_scanFor 58 data i
  omega

/-- An element moves the cursor forward, inside the buffer. -/
theorem decodeElement_bounds {data : Buffer} {fuel i j : Nat} {v : Bnode}
    (hdata : data.length < 2 ^ 63) (h : decodeElement data fuel i = .ok (v, j)) :
    i < j ∧ j ≤ data.length := by
  refine (decode_induction (P := fun i _ j => i < j ∧ j ≤ data.length)
    (L := fun i _ _ j => i < j ∧ j ≤ data.length)
    (D := fun i _ _ j => i < j ∧ j ≤ data.length) ?_ ?_ ?_ ?_ ?_ ?_ ?_ ?_ fuel).1 i v j h
  · intro i v j _ h
    have := decodeInt_bounds h
    omega
  · intro i v j hc h
    exact decodeString_bounds hdata hc h
  · intro i v j _ h
    omega
  · intro i v j _ h
    omega
  · intro i items h0
    have := getElem?_lt h0
    omega
  · intro i items w k v j _ hw h
    omega
  · intro i entries h0
    have := getElem?_lt h0
    omega
  · intro i entries key k w l v j _ hk hw h
    omega

/-! ## The fuel of `decode` -/

/-- Two steps run out of fuel in the first or in the second. -/
theorem bind_eq_fuel {α β : Type} {x : Except Halt α} {f : α → Except Halt β}
    (h : (x >>= f) = .error .fuel) : x = .error .fuel ∨ ∃ a, x = .ok a ∧ f a = .error .fuel := by
  cases x with
  | ok a => exact .inr ⟨a, rfl, h⟩
  | error e =>
      cases h
      exact .inl rfl

theorem lift_ne_fuel {α : Type} (x : Except Exn α) : lift x ≠ .error .fuel := by
  cases x <;> nofun

theorem decodeInt_ne_fuel (data : Buffer) (i : Nat) : decodeInt data i ≠ .error .fuel := by
  intro h
  simp only [decodeInt] at h
  split at h
  · cases h
  rcases bind_eq_fuel h with h | ⟨n, -, h⟩
  · exact lift_ne_fuel _ h
  · cases h

theorem decodeString_ne_fuel (data : Buffer) (i : Nat) : decodeString data i ≠ .error .fuel := by
  intro h
  simp only [decodeString] at h
  split at h
  · cases h
  rcases bind_eq_fuel h with h | ⟨n, -, h⟩
  · exact lift_ne_fuel _ h
  split at h <;> cases h

/-- Out of fuel in an element is out of fuel in its list or its dictionary. -/
theorem decodeElement_fuel {data : Buffer} {fuel i : Nat}
    (h : decodeElement data (fuel + 1) i = .error .fuel) :
    i < data.length ∧ (decodeList data fuel (i + 1) [] = .error .fuel ∨
      decodeDict data fuel (i + 1) [] = .error .fuel) := by
  simp only [decodeElement] at h
  split at h
  · cases h
  rename_i c hc
  refine ⟨getElem?_lt hc, ?_⟩
  split at h
  · exact absurd h (decodeInt_ne_fuel _ _)
  split at h
  · exact .inl h
  split at h
  · exact .inr h
  split at h
  · exact absurd h (decodeString_ne_fuel _ _)
  · cases h

/-- Out of fuel in a list is out of fuel in its next item or after it. -/
theorem decodeList_fuel {data : Buffer} {fuel i : Nat} {items : List Bnode}
    (h : decodeList data (fuel + 1) i items = .error .fuel) :
    i < data.length ∧ (decodeElement data fuel i = .error .fuel ∨
      ∃ v k, decodeElement data fuel i = .ok (v, k) ∧
        decodeList data fuel k (items ++ [v]) = .error .fuel) := by
  simp only [decodeList] at h
  split at h
  · cases h
  rename_i c hc
  refine ⟨getElem?_lt hc, ?_⟩
  split at h
  · cases h
  rcases bind_eq_fuel h with h | ⟨⟨v, k⟩, hv, h⟩
  · exact .inl h
  · exact .inr ⟨v, k, hv, h⟩

/-- Out of fuel in a dictionary is out of fuel in its next key, the value of the key, or after it. -/
theorem decodeDict_fuel {data : Buffer} {fuel i : Nat} {entries : List (Str × Bnode)}
    (h : decodeDict data (fuel + 1) i entries = .error .fuel) :
    i < data.length ∧ (decodeElement data fuel i = .error .fuel ∨
      ∃ keyNode k, decodeElement data fuel i = .ok (keyNode, k) ∧
        (decodeElement data fuel k = .error .fuel ∨
          ∃ v l key, decodeElement data fuel k = .ok (v, l) ∧
            decodeDict data fuel l (Dict.set key v entries) = .error .fuel)) := by
  simp only [decodeDict] at h
  split at h
  · cases h
  rename_i c hc
  refine ⟨getElem?_lt hc, ?_⟩
  split at h
  · cases h
  rcases bind_eq_fuel h with h | ⟨⟨keyNode, k⟩, hkey, h⟩
  · exact .inl h
  refine .inr ⟨keyNode, k, hkey, ?_⟩
  split at h
  · cases h
  rcases bind_eq_fuel h with h | ⟨key, -, h⟩
  · exact absurd h (lift_ne_fuel _)
  rcases bind_eq_fuel h with h | ⟨⟨v, l⟩, hv, h⟩
  · exact .inl h
  · exact .inr ⟨v, l, key, hv, h⟩

/-- Two calls for each byte that is left are enough: each element read moves the cursor. -/
theorem enough_fuel {data : Buffer} (hdata : data.length < 2 ^ 63) : ∀ fuel,
    (∀ i, 2 * (data.length - i) + 1 ≤ fuel → decodeElement data fuel i ≠ .error .fuel) ∧
    (∀ i items, 2 * (data.length - i) + 2 ≤ fuel →
      decodeList data fuel i items ≠ .error .fuel) ∧
    (∀ i entries, 2 * (data.length - i) + 2 ≤ fuel →
      decodeDict data fuel i entries ≠ .error .fuel) := by
  intro fuel
  induction fuel with
  | zero =>
      refine ⟨?_, ?_, ?_⟩
      · intro i hf
        omega
      · intro i items hf
        omega
      · intro i entries hf
        omega
  | succ fuel ih =>
      obtain ⟨hP, hL, hD⟩ := ih
      refine ⟨?_, ?_, ?_⟩
      · intro i hf h
        obtain ⟨hi, h | h⟩ := decodeElement_fuel h
        · exact hL (i + 1) [] (by omega) h
        · exact hD (i + 1) [] (by omega) h
      · intro i items hf h
        obtain ⟨hi, h | ⟨v, k, hv, h⟩⟩ := decodeList_fuel h
        · exact hP i (by omega) h
        · have hk := decodeElement_bounds hdata hv
          exact hL k _ (by omega) h
      · intro i entries hf h
        obtain ⟨hi, h | ⟨keyNode, k, hkey, h⟩⟩ := decodeDict_fuel h
        · exact hP i (by omega) h
        · have hk := decodeElement_bounds hdata hkey
          obtain h | ⟨v, l, key, hv, h⟩ := h
          · exact hP k (by omega) h
          · have hl := decodeElement_bounds hdata hv
            exact hD l _ (by omega) h

/-- `decode` has fuel enough for every buffer that fits in memory. -/
theorem decode_ne_fuel {data : Buffer} (hdata : data.length < 2 ^ 63) :
    decode data ≠ .error .fuel := by
  intro h
  simp only [decode] at h
  rcases bind_eq_fuel h with h | ⟨⟨v, j⟩, -, h⟩
  · exact (enough_fuel hdata (fuelFor data)).1 0 (by simp only [fuelFor]; omega) h
  · cases h

/-! ## Results do not depend on the fuel -/

/-- A sequence has the same result when its steps have. -/
theorem bind_of_ne_fuel {α β : Type} {x x' : Except Halt α} {f f' : α → Except Halt β}
    (hx : x ≠ .error .fuel → x' = x) (hf : ∀ a, f a ≠ .error .fuel → f' a = f a)
    (h : (x >>= f) ≠ .error .fuel) : (x' >>= f') = (x >>= f) := by
  cases x with
  | ok a =>
      rw [hx (by simp)]
      exact hf a h
  | error e =>
      have he : (.error e : Except Halt α) ≠ .error .fuel := by
        rintro ⟨⟩
        exact h rfl
      rw [hx he]
      rfl

/-- One more step of fuel changes nothing but `Halt.fuel`. -/
theorem decode_succ {data : Buffer} : ∀ fuel,
    (∀ i, decodeElement data fuel i ≠ .error .fuel →
      decodeElement data (fuel + 1) i = decodeElement data fuel i) ∧
    (∀ i items, decodeList data fuel i items ≠ .error .fuel →
      decodeList data (fuel + 1) i items = decodeList data fuel i items) ∧
    (∀ i entries, decodeDict data fuel i entries ≠ .error .fuel →
      decodeDict data (fuel + 1) i entries = decodeDict data fuel i entries) := by
  intro fuel
  induction fuel with
  | zero =>
      refine ⟨?_, ?_, ?_⟩
      · intro i h
        exact absurd rfl h
      · intro i items h
        exact absurd rfl h
      · intro i entries h
        exact absurd rfl h
  | succ fuel ih =>
      obtain ⟨hP, hL, hD⟩ := ih
      refine ⟨?_, ?_, ?_⟩
      · intro i h
        simp only [decodeElement] at h ⊢
        cases hc : data[i]? with
        | none => rfl
        | some c =>
            rw [hc] at h
            dsimp only at h ⊢
            split_ifs with h1 h2 h3
            · rfl
            · rw [if_neg h1, if_pos h2] at h
              exact hL _ _ h
            · rw [if_neg h1, if_neg h2, if_pos h3] at h
              exact hD _ _ h
            · rfl
            · rfl
      · intro i items h
        simp only [decodeList] at h ⊢
        cases hc : data[i]? with
        | none => rfl
        | some c =>
            rw [hc] at h
            dsimp only at h ⊢
            split_ifs with h1
            · rfl
            · rw [if_neg h1] at h
              exact bind_of_ne_fuel (hP i) (fun a => hL a.2 _) h
      · intro i entries h
        simp only [decodeDict] at h ⊢
        cases hc : data[i]? with
        | none => rfl
        | some c =>
            rw [hc] at h
            dsimp only at h ⊢
            split_ifs with h1
            · rfl
            · rw [if_neg h1] at h
              refine bind_of_ne_fuel (hP i) (fun a ha => ?_) h
              split_ifs with h2
              · rfl
              · rw [if_neg h2] at ha
                refine bind_of_ne_fuel (fun _ => rfl) (fun key hkey => ?_) ha
                exact bind_of_ne_fuel (hP a.2) (fun b => hD b.2 _) hkey

/-- How a call ends is how it ends with more fuel. -/
theorem decodeElement_le {data : Buffer} {fuel fuel' i : Nat}
    (h : decodeElement data fuel i ≠ .error .fuel) (hle : fuel ≤ fuel') :
    decodeElement data fuel' i = decodeElement data fuel i := by
  induction hle with
  | refl => rfl
  | step _ ih =>
      rw [← ih] at h
      exact ((decode_succ _).1 i h).trans ih

theorem decodeElement_le_of_ok {data : Buffer} {fuel fuel' i : Nat} {r : Bnode × Nat}
    (h : decodeElement data fuel i = .ok r) (hle : fuel ≤ fuel') :
    decodeElement data fuel' i = .ok r := by
  rw [decodeElement_le (fun hfuel => by rw [h] at hfuel; cases hfuel) hle, h]

/-- Two runs that return, return the same. -/
theorem decodeElement_unique {data : Buffer} {f g i j k : Nat} {v w : Bnode}
    (hv : decodeElement data f i = .ok (v, j)) (hw : decodeElement data g i = .ok (w, k)) :
    v = w ∧ j = k := by
  have h := decodeElement_le_of_ok hv (Nat.le_max_left f g)
  rw [decodeElement_le_of_ok hw (Nat.le_max_right f g)] at h
  cases h
  exact ⟨rfl, rfl⟩

end Bnode

end NodeLink
