import NodeLink.Parsing.SelfDelimiting
import NodeLink.Parsing.Strict

/-!
# The grammar with values

`Bencoded v s` says that the text `s` is a value of the bencoding grammar and
that `v` is the value it stands for.  The keys of a dictionary may come in any
order, and where a key is repeated the last entry counts.

The decoder takes more than that: `std::stoll` skips blanks, takes a plus sign
and leading zeros, and ignores what follows the digits.  `numberTexts` walks over
a value from left to right and collects the text of every integer and of every
length, without a look at what the decoder makes of them.  What the decoder
returns is the value of the bytes it consumed exactly when all of these texts
are canonical (`decodeElement_bencoded_iff`).
-/

namespace NodeLink

/-- The number a canonical text stands for. -/
inductive SpellsInt : Str → Int → Prop
  | nonneg {ds : Str} : Numeral ds → SpellsInt ds (digitsValue ds)
  | neg {ds : Str} : Numeral ds → ds ≠ [48] → SpellsInt (45 :: ds) (-(digitsValue ds : Int))

/-! ## What `std::stoll` makes of a canonical number -/

theorem Numeral.takeWhile_eq {ds : Str} (h : Numeral ds) : ds.takeWhile isDigit = ds :=
  List.takeWhile_eq_self_iff.mpr h.digits

/-- The sign and the digits of a canonical number. -/
theorem SpellsInt.exists_sign {s : Str} {n : Int} (h : SpellsInt s n) :
    ∃ neg ds, takeSign (s.dropWhile isSpace) = (neg, ds) ∧ Numeral ds ∧ signedValue neg ds = n := by
  cases h with
  | nonneg hn =>
      refine ⟨false, s, ?_, hn, rfl⟩
      cases s with
      | nil => exact absurd rfl hn.ne_nil
      | cons c s =>
          have hc := hn.digits c List.mem_cons_self
          rw [List.dropWhile_cons_of_neg (by simp [(isDigit_facts hc).1]), takeSign_digit hc]
  | neg hn h0 => exact ⟨true, _, rfl, hn, rfl⟩

/-- Of a canonical number `std::stoll` returns the value. -/
theorem SpellsInt.eq_of_stoll {s : Str} {n : Int} {m : Int64} (h : SpellsInt s n)
    (hm : stoll s = .ok m) : m.toInt = n := by
  obtain ⟨neg, ds, hsign, hnum, rfl⟩ := h.exists_sign
  simp only [stoll] at hm
  rw [hsign] at hm
  simp only [hnum.takeWhile_eq] at hm
  rw [if_neg hnum.ne_nil] at hm
  change (if signedValue neg ds < -2 ^ 63 ∨ 2 ^ 63 ≤ signedValue neg ds then .error _
    else .ok (Int64.ofInt (signedValue neg ds))) = Except.ok m at hm
  split at hm
  · cases hm
  · cases hm
    rw [Cpp.toInt_ofInt64]
    omega

/-- The byte behind a number does not occur in it. -/
theorem SpellsInt.not_mem {s : Str} {n : Int} (h : SpellsInt s n) : (101 : UInt8) ∉ s := by
  have hdigits : ∀ {ds : Str}, Numeral ds → (101 : UInt8) ∉ ds := by
    intro ds hds hmem
    exact absurd (hds.digits _ hmem) (by decide)
  cases h with
  | nonneg hn => exact hdigits hn
  | neg hn _ =>
      rw [List.mem_cons, not_or]
      exact ⟨by decide, hdigits hn⟩

/-! ## Values -/

namespace Dict

/-- The map a sequence of entries builds: of two entries with one key the later one counts. -/
def ofEntries {α : Type} (es : List (Str × α)) : List (Str × α) :=
  es.foldl (fun d e => set e.1 e.2 d) []

end Dict

mutual

/-- The text `s` stands for the value `v`. -/
inductive Bencoded : Bnode → Buffer → Prop
  | int {n : Int64} {s : Str} : SpellsInt s n.toInt → Bencoded (.int n) (105 :: (s ++ [101]))
  | str {t : Str} {s : Buffer} : Spells s t → Bencoded (.str t) s
  | list {vs : List Bnode} {s : Buffer} : BencodedItems vs s →
      Bencoded (.list vs) (108 :: (s ++ [101]))
  | dict {es : List (Str × Bnode)} {s : Buffer} : BencodedEntries es s →
      Bencoded (.dict (Dict.ofEntries es)) (100 :: (s ++ [101]))

/-- Values one after another. -/
inductive BencodedItems : List Bnode → Buffer → Prop
  | nil : BencodedItems [] []
  | cons {v : Bnode} {vs : List Bnode} {s rest : Buffer} : Bencoded v s →
      BencodedItems vs rest → BencodedItems (v :: vs) (s ++ rest)

/-- Keys and values one after another. -/
inductive BencodedEntries : List (Str × Bnode) → Buffer → Prop
  | nil : BencodedEntries [] []
  | cons {key : Str} {v : Bnode} {es : List (Str × Bnode)} {k s rest : Buffer} :
      Spells k key → Bencoded v s → BencodedEntries es rest →
      BencodedEntries ((key, v) :: es) (k ++ (s ++ rest))

end

namespace Bnode

variable {data : Buffer} {i j k fuel : Nat} {c : UInt8} {v : Bnode}

/-! ## The numbers of a text -/

/-- A number a text has in it. -/
inductive NumberText where
  /-- What stands between `i` and `e`. -/
  | int (s : Str)
  /-- What stands before the colon of a string. -/
  | length (s : Str)

/-- The number is spelled as the grammar wants it. -/
def NumberText.Canonical : NumberText → Prop
  | .int s => ∃ n, SpellsInt s n
  | .length s => Numeral s

/-- The bytes from `i` on before the next `c`. -/
def textTo (c : UInt8) (data : Buffer) (i : Nat) : Str := (data.drop i).takeWhile (· ≠ c)

/-- What is left to walk over behind a value: nothing outside all brackets. -/
def behind (depth : Nat) (rest : List NumberText) : List NumberText :=
  if depth = 0 then [] else rest

/-- The numbers of the value at `i`, inside `depth` open brackets. -/
def numberTexts (data : Buffer) : Nat → Nat → Nat → List NumberText
  | 0, _, _ => []
  | fuel + 1, depth, i =>
      match data[i]? with
      | none => []
      | some c =>
          if c = 105 then
            .int (textTo 101 data (i + 1)) ::
              behind depth (numberTexts data fuel depth (scanFor 101 data (i + 1) + 1))
          else if c = 108 ∨ c = 100 then numberTexts data fuel (depth + 1) (i + 1)
          else if c = 101 then behind (depth - 1) (numberTexts data fuel (depth - 1) (i + 1))
          else
            .length (textTo 58 data i) :: behind depth (numberTexts data fuel depth
              (scanFor 58 data i + 1 + digitsValue (textTo 58 data i)))

@[simp] theorem behind_zero (rest : List NumberText) : behind 0 rest = [] := rfl

@[simp] theorem behind_succ (depth : Nat) (rest : List NumberText) :
    behind (depth + 1) rest = rest := rfl

theorem numberTexts_of_getElem? (h : data[i]? = some c) (depth : Nat) :
    numberTexts data (fuel + 1) depth i =
      if c = 105 then
        .int (textTo 101 data (i + 1)) ::
          behind depth (numberTexts data fuel depth (scanFor 101 data (i + 1) + 1))
      else if c = 108 ∨ c = 100 then numberTexts data fuel (depth + 1) (i + 1)
      else if c = 101 then behind (depth - 1) (numberTexts data fuel (depth - 1) (i + 1))
      else
        .length (textTo 58 data i) :: behind depth (numberTexts data fuel depth
          (scanFor 58 data i + 1 + digitsValue (textTo 58 data i))) := by
  simp only [numberTexts]
  rw [h]

theorem scanFor_eq (c : UInt8) (data : Buffer) (i : Nat) :
    scanFor c data i = i + (textTo c data i).length := rfl

/-- The bytes the decoder hands to `std::stoll`. -/
theorem take_scanFor (c : UInt8) (data : Buffer) (i : Nat) :
    (data.drop i).take (scanFor c data i - i) = textTo c data i := by
  rw [scanFor_eq, Nat.add_sub_cancel_left]
  exact (List.prefix_iff_eq_take.mp (List.takeWhile_prefix _)).symm

theorem textTo_standsAt {s : Str} (h : StandsAt data i (s ++ [c])) (hc : c ∉ s) :
    textTo c data i = s := by
  rw [← take_scanFor, scanFor_standsAt h hc, Nat.add_sub_cancel_left]
  exact (standsAt_append_iff.mp h).1.take_eq

/-! ## The walk over a text of the grammar -/

/-- The walk over the bytes from `i` to `k`: it meets canonical numbers only and goes on at `k`. -/
def WalksTo (data : Buffer) (i k : Nat) : Prop :=
  ∃ ts : List NumberText, (∀ t ∈ ts, t.Canonical) ∧ ∃ n, n ≤ k - i ∧ ∀ fuel depth,
    numberTexts data (fuel + n) (depth + 1) i = ts ++ numberTexts data fuel (depth + 1) k

/-- The walk over the value from `i` to `k`: outside all brackets it ends at `k`. -/
def WalksOver (data : Buffer) (i k : Nat) : Prop :=
  ∃ ts : List NumberText, (∀ t ∈ ts, t.Canonical) ∧ ∃ n, n ≤ k - i ∧ ∀ fuel depth,
    numberTexts data (fuel + n) depth i = ts ++ behind depth (numberTexts data fuel depth k)

theorem WalksOver.walksTo (h : WalksOver data i k) : WalksTo data i k := by
  obtain ⟨ts, hts, n, hn, hwalk⟩ := h
  exact ⟨ts, hts, n, hn, fun fuel depth => hwalk fuel (depth + 1)⟩

theorem WalksTo.refl (data : Buffer) (i : Nat) : WalksTo data i i :=
  ⟨[], fun _ h => absurd h List.not_mem_nil, 0, Nat.zero_le _, fun _ _ => rfl⟩

theorem WalksTo.trans (h : WalksTo data i j) (h' : WalksTo data j k) (hij : i ≤ j) (hjk : j ≤ k) :
    WalksTo data i k := by
  obtain ⟨ts, hts, n, hn, hwalk⟩ := h
  obtain ⟨us, hus, m, hm, hwalk'⟩ := h'
  refine ⟨ts ++ us, ?_, m + n, by omega, ?_⟩
  · intro t ht
    rcases List.mem_append.mp ht with ht | ht
    · exact hts t ht
    · exact hus t ht
  · intro fuel depth
    rw [← Nat.add_assoc, hwalk, hwalk', List.append_assoc]

/-- The walk over an integer. -/
theorem walksOver_int {s : Str} {n : Int} (hs : SpellsInt s n)
    (h : StandsAt data i (105 :: (s ++ [101]))) : WalksOver data i (i + (s.length + 2)) := by
  obtain ⟨h0, hat⟩ := standsAt_cons_iff.mp h
  refine ⟨[.int s], ?_, 1, by omega, ?_⟩
  · intro t ht
    rw [List.mem_singleton.mp ht]
    exact ⟨n, hs⟩
  · intro fuel depth
    rw [numberTexts_of_getElem? h0, if_pos rfl, textTo_standsAt hat hs.not_mem,
      scanFor_standsAt hat hs.not_mem, show i + 1 + s.length + 1 = i + (s.length + 2) by omega]
    rfl

/-- The walk over a string. -/
theorem walksOver_str {s : Buffer} {t : Str} (hs : Spells s t) (h : StandsAt data i s) :
    WalksOver data i (i + s.length) := by
  obtain ⟨ds, hnum, hval, rfl⟩ := hs
  have hcolon : (58 : UInt8) ∉ ds := fun hmem => absurd (hnum.digits _ hmem) (by decide)
  rw [List.append_cons, standsAt_append_iff] at h
  obtain ⟨c, rest, hds⟩ := List.exists_cons_of_ne_nil hnum.ne_nil
  have h0 : data[i]? = some c := by
    have hhead := h.1
    rw [hds] at hhead
    exact (standsAt_cons_iff.mp hhead).1
  obtain ⟨-, -, -, -, h1, h2, h3, h4⟩ := isDigit_facts (hnum.digits c (hds ▸ List.mem_cons_self))
  refine ⟨[.length ds], ?_, 1, ?_, ?_⟩
  · intro t ht
    rw [List.mem_singleton.mp ht]
    exact hnum
  · rw [List.length_append, List.length_cons]
    omega
  · intro fuel depth
    rw [numberTexts_of_getElem? h0, if_neg h2, if_neg (not_or.mpr ⟨h3, h4⟩), if_neg h1,
      textTo_standsAt h.1 hcolon, scanFor_standsAt h.1 hcolon, hval, List.length_append,
      List.length_cons, show i + ds.length + 1 + t.length = i + (ds.length + (t.length + 1)) by
        omega]
    rfl

/-- The walk over what stands in brackets. -/
theorem walksOver_brackets {s : Buffer} (hc : c = 108 ∨ c = 100)
    (h : StandsAt data i (c :: (s ++ [101])))
    (hs : StandsAt data (i + 1) s → WalksTo data (i + 1) (i + 1 + s.length)) :
    WalksOver data i (i + (s.length + 2)) := by
  obtain ⟨h0, hat⟩ := standsAt_cons_iff.mp h
  obtain ⟨hat, hend⟩ := standsAt_append_iff.mp hat
  rw [standsAt_singleton_iff] at hend
  obtain ⟨ts, hts, n, hn, hwalk⟩ := hs hat
  have hne : c ≠ 105 := by
    rcases hc with rfl | rfl <;> decide
  refine ⟨ts, hts, n + 2, by omega, ?_⟩
  intro fuel depth
  rw [show fuel + (n + 2) = fuel + 1 + n + 1 by omega, numberTexts_of_getElem? h0, if_neg hne,
    if_pos hc, hwalk, numberTexts_of_getElem? hend, if_neg (by decide), if_neg (by decide),
    if_pos rfl, Nat.add_sub_cancel, show i + 1 + s.length + 1 = i + (s.length + 2) by omega]

mutual

/-- Over a text of the grammar the walk meets canonical numbers only. -/
theorem walksOver_of_bencoded : ∀ {v : Bnode} {s : Buffer} {i : Nat}, Bencoded v s →
    StandsAt data i s → WalksOver data i (i + s.length)
  | _, _, i, .int (s := s) hs, h => by
      have hwalk := walksOver_int hs h
      rwa [show (105 :: (s ++ [101]) : Buffer).length = s.length + 2 by simp]
  | _, _, i, .str hs, h => walksOver_str hs h
  | _, _, i, .list (s := s) hs, h => by
      have hwalk := walksOver_brackets (.inl rfl) h (walksTo_of_items hs)
      rwa [show (108 :: (s ++ [101]) : Buffer).length = s.length + 2 by simp]
  | _, _, i, .dict (s := s) hs, h => by
      have hwalk := walksOver_brackets (.inr rfl) h (walksTo_of_entries hs)
      rwa [show (100 :: (s ++ [101]) : Buffer).length = s.length + 2 by simp]

theorem walksTo_of_items : ∀ {vs : List Bnode} {s : Buffer} {i : Nat}, BencodedItems vs s →
    StandsAt data i s → WalksTo data i (i + s.length)
  | _, _, i, .nil, _ => .refl data i
  | _, _, i, @BencodedItems.cons _ _ s rest hv hvs, h => by
      obtain ⟨hs, hrest⟩ := standsAt_append_iff.mp h
      have hwalk := (walksOver_of_bencoded hv hs).walksTo.trans (walksTo_of_items hvs hrest)
        (by omega) (by omega)
      rwa [List.length_append, ← Nat.add_assoc]

theorem walksTo_of_entries : ∀ {es : List (Str × Bnode)} {s : Buffer} {i : Nat},
    BencodedEntries es s → StandsAt data i s → WalksTo data i (i + s.length)
  | _, _, i, .nil, _ => .refl data i
  | _, _, i, @BencodedEntries.cons _ _ _ k s rest hk hv hes, h => by
      obtain ⟨hkey, h⟩ := standsAt_append_iff.mp h
      obtain ⟨hs, hrest⟩ := standsAt_append_iff.mp h
      have hentry := (walksOver_str hk hkey).walksTo.trans (walksOver_of_bencoded hv hs).walksTo
        (by omega) (by omega)
      have hwalk := hentry.trans (walksTo_of_entries hes hrest) (by omega) (by omega)
      rwa [List.length_append, List.length_append, ← Nat.add_assoc, ← Nat.add_assoc]

end

/-! ## Decoding behind canonical numbers -/

/-- The numbers the walk over the bytes from `i` on meets are canonical. -/
def CanonicalFrom (data : Buffer) (depth i : Nat) : Prop :=
  ∃ fuel, data.length - i < fuel ∧ ∀ t ∈ numberTexts data fuel depth i, t.Canonical

/-- The first step of the walk, with the fuel that is left behind it. -/
theorem CanonicalFrom.step {depth : Nat} (h : CanonicalFrom data depth i) (hi : i < data.length) :
    ∃ fuel, data.length - (i + 1) < fuel ∧
      ∀ t ∈ numberTexts data (fuel + 1) depth i, t.Canonical := by
  obtain ⟨fuel, hfuel, h⟩ := h
  obtain ⟨fuel, rfl⟩ := Nat.exists_eq_add_one_of_ne_zero (show fuel ≠ 0 by omega)
  exact ⟨fuel, by omega, h⟩

/-- Behind a part that was walked over the numbers are canonical as well. -/
theorem CanonicalFrom.of_walksTo {depth : Nat} (h : CanonicalFrom data (depth + 1) i)
    (hwalk : WalksTo data i k) (hik : i ≤ k) (hk : k ≤ data.length) :
    CanonicalFrom data (depth + 1) k := by
  obtain ⟨fuel, hfuel, h⟩ := h
  obtain ⟨ts, -, n, hn, hwalk⟩ := hwalk
  obtain ⟨f, rfl⟩ := Nat.exists_eq_add_of_le' (show n ≤ fuel by omega)
  refine ⟨f, by omega, ?_⟩
  intro t ht
  exact h t (by rw [hwalk]; exact List.mem_append_right ts ht)

theorem bencoded_of_int (h0 : data[i]? = some 105) (h : decodeInt data (i + 1) = .ok (v, j))
    {depth : Nat} (hcan : CanonicalFrom data depth i) :
    ∃ s, StandsAt data i s ∧ j = i + s.length ∧ Bencoded v s := by
  obtain ⟨fuel, -, hcan⟩ := hcan.step (getElem?_lt h0)
  obtain ⟨n, rfl, rfl, hlt, hn⟩ := decodeInt_cases h
  rw [numberTexts_of_getElem? h0, if_pos rfl] at hcan
  obtain ⟨m, hm⟩ := hcan _ List.mem_cons_self
  rw [take_scanFor] at hn
  have hval := hm.eq_of_stoll hn
  obtain ⟨w, hw, hscan, hat⟩ := exists_scan hlt
  rw [textTo_standsAt hat hw] at hm
  refine ⟨105 :: (w ++ [101]), standsAt_cons_iff.mpr ⟨h0, hat⟩, ?_, .int (hval ▸ hm)⟩
  rw [List.length_cons, List.length_append, List.length_singleton]
  omega

theorem bencoded_of_str (hdata : data.length < 2 ^ 63)
    (hc : ∃ c, data[i]? = some c ∧ isDigit c = true) (h : decodeString data i = .ok (v, j))
    {depth : Nat} (hcan : CanonicalFrom data depth i) :
    ∃ s, StandsAt data i s ∧ j = i + s.length ∧ Bencoded v s := by
  obtain ⟨len, -, hlen, hstop⟩ := decodeString_stop hdata hc h
  obtain ⟨-, -, hcolon, -, hle, rfl⟩ := decodeString_cases h
  obtain ⟨c, hc, hd⟩ := hc
  obtain ⟨-, -, -, -, h1, h2, h3, h4⟩ := isDigit_facts hd
  obtain ⟨fuel, -, hcan⟩ := hcan.step (getElem?_lt hc)
  rw [numberTexts_of_getElem? hc, if_neg h2, if_neg (not_or.mpr ⟨h3, h4⟩), if_neg h1] at hcan
  have hnum : Numeral (textTo 58 data i) := hcan _ List.mem_cons_self
  rw [take_scanFor] at hlen
  have hval := (SpellsInt.nonneg hnum).eq_of_stoll hlen
  obtain ⟨w, hw, hscan, hat⟩ := exists_scan hcolon
  rw [textTo_standsAt hat hw] at hnum hval
  have hslice : ((data.drop (scanFor 58 data i + 1)).take (j - (scanFor 58 data i + 1))).length =
      digitsValue w := by
    rw [List.length_take, List.length_drop]
    omega
  refine ⟨w ++ 58 :: (data.drop (scanFor 58 data i + 1)).take (j - (scanFor 58 data i + 1)), ?_,
    ?_, .str ⟨w, hnum, hslice.symm, rfl⟩⟩
  · rw [List.append_cons, standsAt_append_iff]
    refine ⟨hat, ?_⟩
    rw [List.length_append, List.length_singleton, ← Nat.add_assoc, ← hscan]
    exact List.take_prefix _ _
  · rw [List.length_append, List.length_cons, hslice]
    omega

/-- Where the numbers are canonical, a decoded value is the value of the bytes consumed. -/
theorem bencoded_of_decodeElement (hdata : data.length < 2 ^ 63)
    (h : decodeElement data fuel i = .ok (v, j)) : ∀ depth, CanonicalFrom data depth i →
    ∃ s, StandsAt data i s ∧ j = i + s.length ∧ Bencoded v s := by
  refine (decode_induction
    (P := fun i v j => ∀ depth, CanonicalFrom data depth i →
      ∃ s, StandsAt data i s ∧ j = i + s.length ∧ Bencoded v s)
    (L := fun i items v j => ∀ depth, CanonicalFrom data (depth + 1) i →
      ∃ vs s, StandsAt data i (s ++ [101]) ∧ j = i + (s.length + 1) ∧ BencodedItems vs s ∧
        v = .list (items ++ vs))
    (D := fun i entries v j => ∀ depth, CanonicalFrom data (depth + 1) i →
      ∃ es s, StandsAt data i (s ++ [101]) ∧ j = i + (s.length + 1) ∧ BencodedEntries es s ∧
        v = .dict (es.foldl (fun d e => Dict.set e.1 e.2 d) entries))
    ?_ ?_ ?_ ?_ ?_ ?_ ?_ ?_ fuel).1 i v j h
  · intro i v j h0 h depth hcan
    exact bencoded_of_int h0 h hcan
  · intro i v j hc h depth hcan
    exact bencoded_of_str hdata hc h hcan
  · intro i v j h0 hitems depth hcan
    obtain ⟨fuel, hfuel, hcan⟩ := hcan.step (getElem?_lt h0)
    rw [numberTexts_of_getElem? h0, if_neg (by decide), if_pos (.inl rfl)] at hcan
    obtain ⟨vs, s, hat, rfl, hvs, rfl⟩ := hitems depth ⟨fuel, hfuel, hcan⟩
    refine ⟨108 :: (s ++ [101]), standsAt_cons_iff.mpr ⟨h0, hat⟩, ?_, .list hvs⟩
    rw [List.length_cons, List.length_append, List.length_singleton]
    omega
  · intro i v j h0 hentries depth hcan
    obtain ⟨fuel, hfuel, hcan⟩ := hcan.step (getElem?_lt h0)
    rw [numberTexts_of_getElem? h0, if_neg (by decide), if_pos (.inr rfl)] at hcan
    obtain ⟨es, s, hat, rfl, hes, rfl⟩ := hentries depth ⟨fuel, hfuel, hcan⟩
    refine ⟨100 :: (s ++ [101]), standsAt_cons_iff.mpr ⟨h0, hat⟩, ?_, .dict hes⟩
    rw [List.length_cons, List.length_append, List.length_singleton]
    omega
  · intro i items h0 depth hcan
    exact ⟨[], [], standsAt_singleton_iff.mpr h0, rfl, .nil, by rw [List.append_nil]⟩
  · intro i items w k v j hb hitem hrest depth hcan
    obtain ⟨s, hs, rfl, hw⟩ := hitem (depth + 1) hcan
    obtain ⟨c, hc, -⟩ := hb
    have hle := hs.le_of_le (Nat.le_of_lt (getElem?_lt hc))
    have hwalk := (walksOver_of_bencoded hw hs).walksTo
    obtain ⟨vs, s', hs', rfl, hvs, rfl⟩ :=
      hrest depth (hcan.of_walksTo hwalk (Nat.le_add_right _ _) hle)
    refine ⟨w :: vs, s ++ s', ?_, ?_, .cons hw hvs, by rw [List.append_assoc]; rfl⟩
    · rw [List.append_assoc, standsAt_append_iff]
      exact ⟨hs, hs'⟩
    · rw [List.length_append]
      omega
  · intro i entries h0 depth hcan
    exact ⟨[], [], standsAt_singleton_iff.mpr h0, rfl, .nil, rfl⟩
  · intro i entries key k w l v j hb hkey hval hrest depth hcan
    obtain ⟨c, hc, -⟩ := hb
    obtain ⟨ks, hks, rfl, hkb⟩ := hkey (depth + 1) hcan
    have hle := hks.le_of_le (Nat.le_of_lt (getElem?_lt hc))
    have hcan := hcan.of_walksTo (walksOver_of_bencoded hkb hks).walksTo (Nat.le_add_right _ _) hle
    cases hkb with
    | str hspells =>
        obtain ⟨s, hs, rfl, hw⟩ := hval (depth + 1) hcan
        have hle' := hs.le_of_le hle
        have hwalk := (walksOver_of_bencoded hw hs).walksTo
        obtain ⟨es, s', hs', rfl, hes, rfl⟩ :=
          hrest depth (hcan.of_walksTo hwalk (Nat.le_add_right _ _) hle')
        refine ⟨(key, w) :: es, ks ++ (s ++ s'), ?_, ?_, .cons hspells hw hes, rfl⟩
        · rw [List.append_assoc, List.append_assoc, standsAt_append_iff, standsAt_append_iff]
          exact ⟨hks, hs, hs'⟩
        · rw [List.length_append, List.length_append]
          omega

/-- The consumed bytes are a text of the grammar and the node is their value exactly when
every integer between `i` and `e` and every length before a colon is spelled canonically. -/
theorem decodeElement_bencoded_iff (hdata : data.length ≤ Cpp.maxSize)
    (h : decodeElement data fuel i = .ok (v, j)) :
    Bencoded v ((data.drop i).take (j - i)) ↔
      ∀ t ∈ numberTexts data (data.length + 1) 0 i, t.Canonical := by
  simp only [Cpp.maxSize] at hdata
  obtain ⟨hij, hj⟩ := decodeElement_bounds (by omega) h
  constructor
  · intro hv
    have hlen : ((data.drop i).take (j - i)).length = j - i := by
      rw [List.length_take, List.length_drop]
      omega
    obtain ⟨ts, hts, n, hn, hwalk⟩ := walksOver_of_bencoded hv (List.take_prefix _ _)
    obtain ⟨f, hf⟩ := Nat.exists_eq_add_of_le' (show n ≤ data.length + 1 by omega)
    rw [hf, hwalk, behind_zero, List.append_nil]
    exact hts
  · intro hcan
    obtain ⟨s, hs, rfl, hv⟩ := bencoded_of_decodeElement (by omega) h 0 ⟨_, by omega, hcan⟩
    rwa [Nat.add_sub_cancel_left, hs.take_eq]

/-- The nested value between two bytes that could open and close a list. -/
theorem decodeElement_bencoded_iff_nested :
    (bytes "l" ++ encode nested ++ bytes "e").length ≤ Cpp.maxSize ∧
    decodeElement (bytes "l" ++ encode nested ++ bytes "e") 100 1 = .ok (nested, 24) ∧
    (Bencoded nested (((bytes "l" ++ encode nested ++ bytes "e").drop 1).take (24 - 1)) ↔
      ∀ t ∈ numberTexts (bytes "l" ++ encode nested ++ bytes "e")
        ((bytes "l" ++ encode nested ++ bytes "e").length + 1) 0 1, t.Canonical) := by
  exact ⟨by decide, decodeElement_nested, decodeElement_bencoded_iff (by decide) decodeElement_nested⟩

/-- A number with a plus sign is accepted, and it is no text of the grammar. -/
theorem decodeElement_not_bencoded :
    decodeElement (bytes "i+5e") 1 0 = .ok (.int 5, 4) ∧
    ¬∃ w, Bencoded w (((bytes "i+5e").drop 0).take (4 - 0)) := by
  constructor
  · have hsign : takeSign ([43, 53].dropWhile isSpace) = (false, [53]) := rfl
    have hplus : stoll [43, 53] = .ok 5 :=
      stoll_eq hsign rfl (List.cons_ne_nil _ _) (by decide) (by decide)
    have hscan : scanFor 101 (bytes "i+5e") (0 + 1) = 3 := by decide
    have htext : ((bytes "i+5e").drop (0 + 1)).take (3 - (0 + 1)) = [43, 53] := by decide
    rw [decodeElement_of_getElem? (c := 105) rfl, if_pos rfl]
    simp only [decodeInt]
    rw [hscan, if_neg (by decide), htext, hplus]
    rfl
  rintro ⟨w, hw⟩
  generalize hb : ((bytes "i+5e").drop 0).take (4 - 0) = b at hw
  cases hw with
  | @int n s hs =>
      have hs' : [43, 53] ++ [101] = s ++ [101] := (List.cons.inj hb).2
      obtain rfl : [43, 53] = s := List.append_cancel_right hs'
      generalize n.toInt = m at hs
      cases hs with
      | nonneg hn => exact absurd (hn.digits 43 List.mem_cons_self) (by decide)
  | str hs =>
      obtain ⟨ds, hnum, -, rfl⟩ := hs
      obtain ⟨c, rest, rfl⟩ := List.exists_cons_of_ne_nil hnum.ne_nil
      obtain rfl : 105 = c := (List.cons.inj hb).1
      exact absurd (hnum.digits 105 List.mem_cons_self) (by decide)
  | list hs => cases hb
  | dict hs => cases hb

end Bnode

end NodeLink
