import NodeLink.Parsing.Decoding

/-!
# The reads of the decoder

`decodeElement` cuts its buffer with `take` and `drop`, which are total.
`Checked.decodeElement` makes each access of the source one by one: an element
that is read, a range of iterators that is copied, and the sum `start + len`.
An access outside of the buffer or a sum that wraps around is a `Trap`.

The two agree in every buffer that fits in memory (`Checked.decode_eq`), so there
is no such access.
-/

namespace NodeLink

namespace Bnode

/-- How a decoding call with checked accesses ends when it returns nothing. -/
inductive Trap where
  /-- As without the checks. -/
  | halt (h : Halt)
  /-- An element or a range that is not inside the buffer. -/
  | outside
  /-- A sum of `size_t` that wraps around. -/
  | wrapped
deriving DecidableEq, Repr

namespace Checked

/-! ## Accesses -/

/-- A call without accesses. -/
def halting {α : Type} : Except Halt α → Except Trap α
  | .ok a => .ok a
  | .error h => .error (.halt h)

/-- `data[i]`. -/
def read (data : Buffer) (i : Nat) : Except Trap UInt8 :=
  match data[i]? with
  | some b => .ok b
  | none => .error .outside

/-- The copy of the range from `data.begin() + first` to `data.begin() + last`. -/
def copy (data : Buffer) (first last : Int) : Except Trap Buffer :=
  if 0 ≤ first ∧ first ≤ last ∧ last ≤ data.length then
    .ok ((data.drop first.toNat).take (last.toNat - first.toNat))
  else .error .outside

/-- `start + len`, a sum of `size_t`. -/
def sum (start : Nat) (len : Int64) : Except Trap Nat :=
  if start + Cpp.toSizeT len.toInt < 2 ^ 64 then .ok (start + Cpp.toSizeT len.toInt)
  else .error .wrapped

/-- `while (i < data.size() && data[i] != c) i++`. -/
def scan (c : UInt8) (data : Buffer) (i : Nat) : Except Trap Nat :=
  if i < data.length then do
    let b ← read data i
    if b ≠ c then scan c data (i + 1) else return i
  else return i
termination_by data.length - i

/-! ## The decoder -/

/-- The integer case of `DecodeElement`, entered with `index` behind the `i`. -/
def decodeInt (data : Buffer) (index : Nat) : Except Trap (Bnode × Nat) := do
  let e ← scan 101 data index
  if e ≥ data.length then halting (raise (.runtimeError "Invalid Integer"))
  else
    let numStr ← copy data index e
    let v ← halting (lift (stoll numStr))
    return (.int v, e + 1)

/-- The string case of `DecodeElement`. -/
def decodeString (data : Buffer) (index : Nat) : Except Trap (Bnode × Nat) := do
  let colon ← scan 58 data index
  if colon ≥ data.length then halting (raise (.runtimeError "Invalid String length"))
  else
    let lenStr ← copy data index colon
    let len ← halting (lift (stoll lenStr))
    let start := colon + 1
    let stop ← sum start len
    if stop > data.length then halting (raise (.runtimeError "String length out of bounds"))
    else
      let val ← copy data start (start + len.toInt)
      return (.str val, stop)

mutual

/-- `DecodeElement`. -/
def decodeElement (data : Buffer) : Nat → Nat → Except Trap (Bnode × Nat)
  | 0, _ => .error (.halt .fuel)
  | fuel + 1, index =>
      if index ≥ data.length then halting (raise (.runtimeError "Unexpected end of buffer"))
      else do
        let c ← read data index
        if c = 105 then decodeInt data (index + 1)
        else if c = 108 then decodeList data fuel (index + 1) []
        else if c = 100 then decodeDict data fuel (index + 1) []
        else if isDigit c then decodeString data index
        else halting (raise (.runtimeError "Unknown Bencode type"))

/-- The loop of the list case, with the items decoded so far. -/
def decodeList (data : Buffer) : Nat → Nat → List Bnode → Except Trap (Bnode × Nat)
  | 0, _, _ => .error (.halt .fuel)
  | fuel + 1, index, items =>
      if index < data.length then do
        let c ← read data index
        if c = 101 then return (.list items, index + 1)
        else
          let (v, index') ← decodeElement data fuel index
          decodeList data fuel index' (items ++ [v])
      else halting (raise (.runtimeError "Unclosed List"))

/-- The loop of the dictionary case, with the map built so far. -/
def decodeDict (data : Buffer) : Nat → Nat → List (Str × Bnode) → Except Trap (Bnode × Nat)
  | 0, _, _ => .error (.halt .fuel)
  | fuel + 1, index, entries =>
      if index < data.length then do
        let c ← read data index
        if c = 101 then return (.dict entries, index + 1)
        else
          let (keyNode, index') ← decodeElement data fuel index
          if !keyNode.isString then halting (raise (.runtimeError "Dict key must be string"))
          else
            let key ← halting (lift keyNode.toStr)
            let (val, index'') ← decodeElement data fuel index'
            decodeDict data fuel index'' (Dict.set key val entries)
      else halting (raise (.runtimeError "Unclosed Dictionary"))

end

variable {data : Buffer} {i : Nat} {b c : UInt8}

/-! ## Every access is inside -/

theorem halting_bind {α β : Type} (x : Except Halt α) (f : α → Except Halt β) :
    halting (x >>= f) = halting x >>= fun a => halting (f a) := by
  cases x <;> rfl

theorem read_eq (h : data[i]? = some b) : read data i = .ok b := by
  rw [read, h]

theorem copy_eq {first last : Nat} (h : first ≤ last) (hlast : last ≤ data.length) :
    copy data first last = .ok ((data.drop first).take (last - first)) := by
  rw [copy, if_pos ⟨by omega, by omega, by omega⟩]
  rfl

theorem sum_eq {start : Nat} {len : Int64} (hstart : start < 2 ^ 63) (hlen : 0 ≤ len.toInt) :
    sum start len = .ok (start + len.toInt.toNat) ∧
      (start + Cpp.toSizeT len.toInt) % 2 ^ 64 = start + len.toInt.toNat := by
  have hhi := len.toInt_lt
  rw [sum, Cpp.toSizeT, Int.emod_eq_of_lt hlen (by omega)]
  have hsum : start + len.toInt.toNat < 2 ^ 64 := by omega
  exact ⟨if_pos hsum, Nat.mod_eq_of_lt hsum⟩

@[simp] theorem ok_bind {α β : Type} (a : α) (f : α → Except Trap β) : (.ok a >>= f) = f a := rfl

/-- The loop finds what `takeWhile` finds, and reads no more than the buffer has. -/
theorem scan_eq (c : UInt8) (data : Buffer) (i : Nat) : scan c data i = .ok (scanFor c data i) := by
  fun_induction scan c data i with
  | case1 i hlt ih =>
      rw [read_eq (List.getElem?_eq_getElem hlt), ok_bind, scanFor, List.drop_eq_getElem_cons hlt]
      by_cases hb : data[i] = c
      · rw [if_neg (not_not_intro hb), List.takeWhile_cons_of_neg (by simpa using hb)]
        rfl
      · rw [if_pos hb, ih, scanFor, List.takeWhile_cons_of_pos (by simpa using hb),
          List.length_cons, Nat.add_assoc, Nat.add_comm 1]
  | case2 i hge =>
      rw [scanFor, List.drop_eq_nil_of_le (Nat.not_lt.mp hge)]
      rfl

theorem decodeInt_eq (data : Buffer) (i : Nat) :
    decodeInt data i = halting (Bnode.decodeInt data i) := by
  rw [decodeInt, Bnode.decodeInt, scan_eq, ok_bind]
  split_ifs with hend
  · rfl
  · rw [copy_eq (le_scanFor 101 data i) (Nat.le_of_not_ge hend), ok_bind, halting_bind]
    rfl

theorem decodeString_eq (hdata : data.length < 2 ^ 63) (hc : data[i]? = some c)
    (hd : isDigit c = true) : decodeString data i = halting (Bnode.decodeString data i) := by
  rw [decodeString, Bnode.decodeString, scan_eq, ok_bind]
  split_ifs with hcolon
  · rfl
  · rw [copy_eq (le_scanFor 58 data i) (Nat.le_of_not_ge hcolon), ok_bind]
    cases hlen : stoll ((data.drop i).take (scanFor 58 data i - i)) with
    | error e => rfl
    | ok len =>
        have hnn := stringLength_nonneg hc hd hlen
        have hstart : scanFor 58 data i + 1 < 2 ^ 63 := by omega
        obtain ⟨hsum, hmod⟩ := sum_eq hstart hnn
        have hlast : ((scanFor 58 data i + 1 : Nat) : Int) + len.toInt =
            ((scanFor 58 data i + 1 + len.toInt.toNat : Nat) : Int) := by omega
        simp only [lift, halting, ok_bind, hsum]
        change _ = halting (if _ then _ else _)
        rw [hmod]
        split_ifs with hstop
        · rfl
        · rw [hlast, copy_eq (Nat.le_add_right _ _) (Nat.le_of_not_gt hstop)]
          rfl

/-- The checks never fail: in a buffer that fits in memory each call ends as it does without them. -/
theorem decode_eq (hdata : data.length < 2 ^ 63) : ∀ fuel,
    (∀ i, decodeElement data fuel i = halting (Bnode.decodeElement data fuel i)) ∧
    (∀ i items, decodeList data fuel i items = halting (Bnode.decodeList data fuel i items)) ∧
    (∀ i entries,
      decodeDict data fuel i entries = halting (Bnode.decodeDict data fuel i entries)) := by
  intro fuel
  induction fuel with
  | zero => exact ⟨fun _ => rfl, fun _ _ => rfl, fun _ _ => rfl⟩
  | succ fuel ih =>
      obtain ⟨hP, hL, hD⟩ := ih
      refine ⟨?_, ?_, ?_⟩
      · intro i
        rw [decodeElement]
        split_ifs with hi
        · rw [Bnode.decodeElement, List.getElem?_eq_none hi]
        · have hc := List.getElem?_eq_getElem (Nat.lt_of_not_ge hi)
          rw [read_eq hc, ok_bind, decodeElement_of_getElem? hc]
          split_ifs with h1 h2 h3 h4
          · exact decodeInt_eq data (i + 1)
          · exact hL (i + 1) []
          · exact hD (i + 1) []
          · exact decodeString_eq hdata hc h4
          · rfl
      · intro i items
        rw [decodeList, Bnode.decodeList]
        split_ifs with hi
        · rw [List.getElem?_eq_getElem hi, read_eq (List.getElem?_eq_getElem hi), ok_bind]
          dsimp only
          split_ifs with h1
          · rfl
          · rw [hP, halting_bind]
            exact congrArg _ (funext fun a => hL a.2 _)
        · rw [List.getElem?_eq_none (Nat.le_of_not_lt hi)]
      · intro i entries
        rw [decodeDict, Bnode.decodeDict]
        split_ifs with hi
        · rw [List.getElem?_eq_getElem hi, read_eq (List.getElem?_eq_getElem hi), ok_bind]
          dsimp only
          split_ifs with h1
          · rfl
          · rw [hP, halting_bind]
            refine congrArg _ (funext fun a => ?_)
            split_ifs with h2
            · rfl
            · rw [halting_bind]
              refine congrArg _ (funext fun key => ?_)
              rw [hP, halting_bind]
              exact congrArg _ (funext fun b => hD b.2 _)
        · rw [List.getElem?_eq_none (Nat.le_of_not_lt hi)]

/-- `DecodeElement` ends for every buffer that fits in memory and from every position, after no more
than `fuelFor` nested calls: with an exception, or with the cursor moved forward inside the buffer.
Every access is inside the buffer, and no sum wraps around. -/
theorem decodeElement_ends (hdata : data.length < 2 ^ 63) (index : Nat) :
    (∃ e, ∀ fuel, fuelFor data ≤ fuel →
      decodeElement data fuel index = .error (.halt (.exn e))) ∨
    ∃ v index', index < index' ∧ index' ≤ data.length ∧ ∀ fuel, fuelFor data ≤ fuel →
      decodeElement data fuel index = .ok (v, index') := by
  have hne : Bnode.decodeElement data (fuelFor data) index ≠ .error .fuel :=
    (enough_fuel hdata _).1 index (by simp only [fuelFor]; omega)
  have hends : ∀ fuel, fuelFor data ≤ fuel → decodeElement data fuel index =
      halting (Bnode.decodeElement data (fuelFor data) index) := fun fuel hle => by
    rw [(decode_eq hdata fuel).1 index, decodeElement_le hne hle]
  cases h : Bnode.decodeElement data (fuelFor data) index with
  | error halt =>
      cases halt with
      | exn e =>
          rw [h] at hends
          exact .inl ⟨e, hends⟩
      | fuel => exact absurd h hne
  | ok r =>
      obtain ⟨v, index'⟩ := r
      obtain ⟨hlt, hle⟩ := decodeElement_bounds hdata h
      rw [h] at hends
      exact .inr ⟨v, index', hlt, hle, hends⟩

/-- `decodeElement_ends`, for a list that is not closed. -/
theorem decodeElement_ends_unclosed :
    (∃ e, ∀ fuel, fuelFor (bytes "l1:a") ≤ fuel →
      decodeElement (bytes "l1:a") fuel 0 = .error (.halt (.exn e))) ∨
    ∃ v index', 0 < index' ∧ index' ≤ (bytes "l1:a").length ∧
      ∀ fuel, fuelFor (bytes "l1:a") ≤ fuel →
        decodeElement (bytes "l1:a") fuel 0 = .ok (v, index') :=
  decodeElement_ends (by decide) 0

end Checked

end Bnode

end NodeLink
