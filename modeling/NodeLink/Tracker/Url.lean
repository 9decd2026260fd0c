import NodeLink.Parsing.Bnode

/-!
# URLs and queries

`Url` is what `Url::Parse` returns.  `urlEncode` writes bytes for a query.  It
does so through a `std::ostringstream`, which keeps its fill character and its
base, and forgets the width with every value.
-/

namespace NodeLink

/-- `Url`. -/
structure Url where
  protocol : Str
  host : Str
  port : Int32
  path : Str
deriving DecidableEq, Repr

/-- The text of a `std::string`, for the message of an exception. -/
def text (s : Str) : String := String.ofList (s.map fun c => Char.ofNat c.toNat)

/-! ## String streams -/

/-- A `std::ostringstream`. -/
structure OStringStream where
  str : Str := []
  fill : UInt8 := 32
  hex : Bool := false
  width : Nat := 0
deriving DecidableEq, Repr

namespace OStringStream

/-- `std::to_string`, in base sixteen. -/
def hexString (n : Nat) : Str := (Nat.toDigits 16 n).map fun c => UInt8.ofNat c.toNat

/-- Writes what a value is formatted as: padded on the left, and without a width afterwards. -/
def put (o : OStringStream) (s : Str) : OStringStream :=
  { o with str := o.str ++ List.replicate (o.width - s.length) o.fill ++ s, width := 0 }

/-- `<< c`, for a character. -/
def putChar (o : OStringStream) (c : UInt8) : OStringStream := o.put [c]

/-- `<< n`, for an `int` that is not negative. -/
def putNat (o : OStringStream) (n : Nat) : OStringStream :=
  o.put (if o.hex then hexString n else toStringNat n)

/-- `<< std::setw(n)`. -/
def setw (o : OStringStream) (n : Nat) : OStringStream := { o with width := n }

end OStringStream

namespace Tracker

/-- `isalnum` in the C locale. -/
def isAlnum (c : UInt8) : Bool := isDigit c || (65 ≤ c && c ≤ 90) || (97 ≤ c && c ≤ 122)

/-- The characters `UrlEncode` keeps: letters, digits, and `-`, `_`, `.`, `~`. -/
def isKept (c : UInt8) : Bool := isAlnum c || c == 45 || c == 95 || c == 46 || c == 126

/-- One round of the loop of `UrlEncode`. -/
def encodeByte (escaped : OStringStream) (c : UInt8) : OStringStream :=
  if isKept c then escaped.putChar c else ((escaped.putChar 37).setw 2).putNat c.toNat

/-- `UrlEncode`. -/
def urlEncode (buffer : Buffer) : Str :=
  (buffer.foldl encodeByte { fill := 48, hex := true }).str

end Tracker

end NodeLink
