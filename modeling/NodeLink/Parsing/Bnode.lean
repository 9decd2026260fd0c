import NodeLink.Cpp.Int
import NodeLink.Parsing.Buffer

/-!
# Bencode

`Bnode` is the variant of the source: an `int64_t`, a byte string, a list or a
`std::map` from strings.  A map is kept as the list of its entries in increasing
order of the keys, which is the order an iteration over it visits.

`decodeElement` is `Bnode::DecodeElement` with the cursor `index` passed in and
returned.  The source recurses on a cursor that only the callee moves, so the
definition takes fuel.  `Halt.fuel` is the one outcome the source does not have.
-/

namespace NodeLink

/-- A decoded value. -/
inductive Bnode where
  | int (v : Int64)
  | str (v : Buffer)
  | list (v : List Bnode)
  | dict (v : List (Str × Bnode))

/-- How a decoding call ends when it returns nothing. -/
inductive Halt where
  /-- An exception of the source. -/
  | exn (e : Exn)
  /-- The fuel of the definition ran out. -/
  | fuel
deriving DecidableEq, Repr

/-! ## Numbers -/

/-- `isspace` in the C locale. -/
def isSpace (c : UInt8) : Bool := c == 32 || (9 ≤ c && c ≤ 13)

/-- `isdigit`. -/
def isDigit (c : UInt8) : Bool := 48 ≤ c && c ≤ 57

/-- The number a string of decimal digits spells. -/
def digitsValue (s : Str) : Nat := s.foldl (fun n c => 10 * n + (c.toNat - 48)) 0

/-- The sign `strtoll` takes off the front of a string: negative or not, and what follows. -/
def takeSign : Str → Bool × Str
  | 45 :: s => (true, s)
  | 43 :: s => (false, s)
  | s => (false, s)

/-- `std::stoll` in base ten: blanks, a sign, digits, and anything after them. -/
def stoll (s : Str) : Except Exn Int64 :=
  let (neg, rest) := takeSign (s.dropWhile isSpace)
  let ds := rest.takeWhile isDigit
  if ds = [] then .error (.invalidArgument "stoll")
  else
    let v : Int := if neg then -(digitsValue ds) else digitsValue ds
    if v < -2 ^ 63 ∨ 2 ^ 63 ≤ v then .error (.outOfRange "stoll") else .ok (Int64.ofInt v)

/-- `std::to_string` of an unsigned number. -/
def toStringNat (n : Nat) : Str := (Nat.toDigits 10 n).map fun c => UInt8.ofNat c.toNat

/-- `std::to_string` of an `int64_t`. -/
def toStringInt (v : Int64) : Str :=
  if v.toInt < 0 then 45 :: toStringNat v.toInt.natAbs else toStringNat v.toInt.natAbs

/-! ## Maps -/

namespace Dict

variable {α : Type}

/-- `dict[key] = val`. -/
def set (key : Str) (val : α) : List (Str × α) → List (Str × α)
  | [] => [(key, val)]
  | (k, v) :: d =>
      if key = k then (key, val) :: d
      else if key < k then (key, val) :: (k, v) :: d
      else (k, v) :: set key val d

/-- The entry of a key, if there is one. -/
def find? (d : List (Str × α)) (key : Str) : Option α := (d.find? fun e => e.1 == key).map Prod.snd

/-- `dict.count(key)`. -/
def count (d : List (Str × α)) (key : Str) : Nat := if (find? d key).isSome then 1 else 0

/-- `dict.at(key)`. -/
def at_ (d : List (Str × α)) (key : Str) : Except Exn α :=
  match find? d key with
  | some v => .ok v
  | none => .error (.outOfRange "map::at")

theorem at_eq_ok {d : List (Str × α)} {key : Str} {v : α} (h : at_ d key = .ok v) :
    find? d key = some v := by
  simp only [at_] at h
  cases hf : find? d key with
  | none => rw [hf] at h; cases h
  | some w => rw [hf] at h; cases h; rfl

end Dict

namespace Bnode

/-! ## The getters -/

/-- `IsString`. -/
def isString : Bnode → Bool
  | .str _ => true
  | _ => false

/-- `GetInt`. -/
def getInt : Bnode → Except Exn Int64
  | .int v => .ok v
  | _ => .error (.runtimeError "Type mismatch: Expected Int")

/-- `GetString`. -/
def getString : Bnode → Except Exn Buffer
  | .str v => .ok v
  | _ => .error (.runtimeError "Type mismatch: Expected String")

/-- `ToString`. -/
def toStr (n : Bnode) : Except Exn Str := n.getString

/-- `GetDict`. -/
def getDict : Bnode → Except Exn (List (Str × Bnode))
  | .dict v => .ok v
  | _ => .error (.runtimeError "Type mismatch: Expected Dict")

theorem getInt_eq_ok {n : Bnode} {v : Int64} (h : n.getInt = .ok v) : n = .int v := by
  cases n <;> cases h
  rfl

theorem getString_eq_ok {n : Bnode} {v : Buffer} (h : n.getString = .ok v) : n = .str v := by
  cases n <;> cases h
  rfl

theorem getDict_eq_ok {n : Bnode} {v : List (Str × Bnode)} (h : n.getDict = .ok v) :
    n = .dict v := by
  cases n <;> cases h
  rfl

/-! ## Decoding -/

/-- The first position from `i` on that holds `c`, or the end of the buffer. -/
def scanFor (c : UInt8) (data : Buffer) (i : Nat) : Nat :=
  i + ((data.drop i).takeWhile (· ≠ c)).length

/-- An exception of the source as a result of a decoding call. -/
def raise {α : Type} (e : Exn) : Except Halt α := .error (.exn e)

/-- A call of the source that may throw, inside a decoding call. -/
def lift {α : Type} : Except Exn α → Except Halt α
  | .ok a => .ok a
  | .error e => raise e

theorem lift_eq_ok {α : Type} {x : Except Exn α} {a : α} (h : lift x = .ok a) : x = .ok a := by
  cases x with
  | ok b => cases h; rfl
  | error e => cases h

/-- A sequence of two steps returns only through its first step. -/
theorem bind_eq_ok {α β : Type} {x : Except Halt α} {f : α → Except Halt β} {b : β}
    (h : (x >>= f) = .ok b) : ∃ a, x = .ok a ∧ f a = .ok b := by
  cases x with
  | ok a => exact ⟨a, rfl, h⟩
  | error e => cases h

/-- The integer case of `DecodeElement`, entered with `index` behind the `i`. -/
def decodeInt (data : Buffer) (index : Nat) : Except Halt (Bnode × Nat) := do
  let e := scanFor 101 data index
  if e ≥ data.length then raise (.runtimeError "Invalid Integer")
  else
    let v ← lift (stoll ((data.drop index).take (e - index)))
    return (.int v, e + 1)

/-- The string case of `DecodeElement`.  `start + len` is a sum of `size_t`. -/
def decodeString (data : Buffer) (index : Nat) : Except Halt (Bnode × Nat) := do
  let colon := scanFor 58 data index
  if colon ≥ data.length then raise (.runtimeError "Invalid String length")
  else
    let len ← lift (stoll ((data.drop index).take (colon - index)))
    let start := colon + 1
    let stop := (start + Cpp.toSizeT len.toInt) % 2 ^ 64
    if stop > data.length then raise (.runtimeError "String length out of bounds")
    else return (.str ((data.drop start).take (stop - start)), stop)

mutual

/-- `DecodeElement`. -/
def decodeElement (data : Buffer) : Nat → Nat → Except Halt (Bnode × Nat)
  | 0, _ => .error .fuel
  | fuel + 1, index =>
      match data[index]? with
      | none => raise (.runtimeError "Unexpected end of buffer")
      | some c =>
          if c = 105 then decodeInt data (index + 1)
          else if c = 108 then decodeList data fuel (index + 1) []
          else if c = 100 then decodeDict data fuel (index + 1) []
          else if isDigit c then decodeString data index
          else raise (.runtimeError "Unknown Bencode type")

/-- The loop of the list case, with the items decoded so far. -/
def decodeList (data : Buffer) : Nat → Nat → List Bnode → Except Halt (Bnode × Nat)
  | 0, _, _ => .error .fuel
  | fuel + 1, index, items =>
      match data[index]? with
      | none => raise (.runtimeError "Unclosed List")
      | some c =>
          if c = 101 then .ok (.list items, index + 1)
          else do
            let (v, index') ← decodeElement data fuel index
            decodeList data fuel index' (items ++ [v])

/-- The loop of the dictionary case, with the map built so far. -/
def decodeDict (data : Buffer) : Nat → Nat → List (Str × Bnode) → Except Halt (Bnode × Nat)
  | 0, _, _ => .error .fuel
  | fuel + 1, index, entries =>
      match data[index]? with
      | none => raise (.runtimeError "Unclosed Dictionary")
      | some c =>
          if c = 101 then .ok (.dict entries, index + 1)
          else do
            let (keyNode, index') ← decodeElement data fuel index
            if !keyNode.isString then raise (.runtimeError "Dict key must be string")
            else
              let key ← lift keyNode.toStr
              let (val, index'') ← decodeElement data fuel index'
              decodeDict data fuel index'' (Dict.set key val entries)

end

/-- Fuel for a buffer: two calls for each byte, one to enter an element and one to pass it. -/
def fuelFor (data : Buffer) : Nat := 2 * data.length + 2

/-- `Decode`. -/
def decode (data : Buffer) : Except Halt Bnode := do
  let (v, _) ← decodeElement data (fuelFor data) 0
  return v

/-! ## Encoding -/

/-- A byte string with its decimal length before it. -/
def encodeString (s : Str) : Buffer := toStringNat s.length ++ 58 :: s

mutual

/-- `Encode`. -/
def encode : Bnode → Buffer
  | .int v => 105 :: (toStringInt v ++ [101])
  | .str v => encodeString v
  | .list v => 108 :: (encodeList v ++ [101])
  | .dict v => 100 :: (encodeDict v ++ [101])

/-- The encodings of the items of a list, one after another. -/
def encodeList : List Bnode → Buffer
  | [] => []
  | v :: vs => encode v ++ encodeList vs

/-- The encodings of the entries of a map, in key order. -/
def encodeDict : List (Str × Bnode) → Buffer
  | [] => []
  | (k, v) :: d => encodeString k ++ (encode v ++ encodeDict d)

end

end Bnode

end NodeLink
