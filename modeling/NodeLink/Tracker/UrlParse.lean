import NodeLink.Cpp.Find
import NodeLink.Parsing.Numbers
import NodeLink.Tracker.Url

/-!
# Parsing a URL

`parse` cuts a string three times: at the first `://`, at the first `/` of what
follows, and at the first `:` of what stands before that.  `parse_append` says
what it makes of a string that was put together from such parts.

The port is what `std::stoi` finds at the front of its text.  `stoi_eq_ok_iff`
says what that is.
-/

namespace NodeLink

/-- `std::stoi` in base ten. -/
def stoi (s : Str) : Except Exn Int32 :=
  let (neg, rest) := takeSign (s.dropWhile isSpace)
  let ds := rest.takeWhile isDigit
  if ds = [] then .error (.invalidArgument "stoi")
  else
    let v : Int := if neg then -(digitsValue ds) else digitsValue ds
    if v < -2 ^ 31 ∨ 2 ^ 31 ≤ v then .error (.outOfRange "stoi") else .ok (Int32.ofInt v)

/-! ## What `std::stoi` reads -/

/-- What may stand in front of the digits of a number, and whether that makes it negative. -/
inductive SignText : Bool → Str → Prop where
  | none : SignText false []
  | plus : SignText false [43]
  | minus : SignText true [45]

/-- `s` begins with the number `v`: blanks, a sign, digits, and anything after them. -/
def BeginsWith (s : Str) (v : Int) : Prop :=
  ∃ blanks neg sign ds rest, s = blanks ++ (sign ++ (ds ++ rest)) ∧
    (∀ c ∈ blanks, isSpace c = true) ∧ SignText neg sign ∧ ds ≠ [] ∧
    (∀ c ∈ ds, isDigit c = true) ∧ (∀ c ∈ rest.head?, isDigit c = false) ∧ v = signedValue neg ds

variable {s ds rest sign : Str} {neg : Bool} {n : Int32}

theorem takeSign_signText (hs : takeSign s = (neg, rest)) :
    ∃ sign, SignText neg sign ∧ s = sign ++ rest := by
  rw [takeSign.eq_def] at hs
  split at hs
  next =>
    cases hs
    exact ⟨[45], .minus, rfl⟩
  next =>
    cases hs
    exact ⟨[43], .plus, rfl⟩
  next =>
    cases hs
    exact ⟨[], .none, rfl⟩

theorem takeSign_append {d : UInt8} (hs : SignText neg sign) (hd : isDigit d = true) :
    takeSign (sign ++ d :: rest) = (neg, d :: rest) := by
  cases hs with
  | none => exact takeSign_digit hd
  | plus => rfl
  | minus => rfl

/-- Neither a sign nor a digit is a blank. -/
theorem dropWhile_signText {d : UInt8} (hs : SignText neg sign) (hd : isDigit d = true) :
    (sign ++ d :: rest).dropWhile isSpace = sign ++ d :: rest := by
  cases hs with
  | none => exact List.dropWhile_cons_of_neg (by simp [(isDigit_facts hd).1])
  | plus => rfl
  | minus => rfl

theorem takeWhile_digits (hds : ∀ c ∈ ds, isDigit c = true)
    (hrest : ∀ c ∈ rest.head?, isDigit c = false) : (ds ++ rest).takeWhile isDigit = ds := by
  rw [List.takeWhile_append_of_pos hds]
  cases rest with
  | nil => exact List.append_nil ds
  | cons c rest =>
      rw [List.takeWhile_cons_of_neg (by simp [hrest c rfl]), List.append_nil]

theorem stoi_of_sign (hs : takeSign (s.dropWhile isSpace) = (neg, rest)) :
    stoi s =
      if rest.takeWhile isDigit = [] then .error (.invalidArgument "stoi")
      else if signedValue neg (rest.takeWhile isDigit) < -2 ^ 31 ∨
          2 ^ 31 ≤ signedValue neg (rest.takeWhile isDigit) then .error (.outOfRange "stoi")
      else .ok (Int32.ofInt (signedValue neg (rest.takeWhile isDigit))) := by
  rw [stoi, hs]
  rfl

/-- `std::stoi` returns the number its argument begins with, if that is an `int`. -/
theorem stoi_eq_ok_iff : stoi s = .ok n ↔ BeginsWith s n.toInt := by
  constructor
  · intro h
    cases hs : takeSign (s.dropWhile isSpace) with
    | mk neg rest =>
        obtain ⟨sign, hsign, hrest⟩ := takeSign_signText hs
        rw [stoi_of_sign hs] at h
        split at h
        next => cases h
        next hne =>
          split at h
          next => cases h
          next hrange =>
            have hv : n.toInt = signedValue neg (rest.takeWhile isDigit) := by
              cases h
              rw [Cpp.toInt_ofInt32]
              omega
            refine ⟨s.takeWhile isSpace, neg, sign, rest.takeWhile isDigit, rest.dropWhile isDigit,
              ?_, fun c hc => List.mem_takeWhile_imp hc, hsign, hne,
              fun c hc => List.mem_takeWhile_imp hc, fun c hc => ?_, hv⟩
            · rw [List.takeWhile_append_dropWhile, ← hrest, List.takeWhile_append_dropWhile]
            · have hhead := List.head?_dropWhile_not isDigit rest
              rw [Option.mem_def.mp hc] at hhead
              exact hhead
  · rintro ⟨blanks, neg, sign, ds, rest, rfl, hblanks, hsign, hne, hds, hrest, hv⟩
    obtain ⟨d, ds', rfl⟩ := List.exists_cons_of_ne_nil hne
    have hd := hds d List.mem_cons_self
    have hs : takeSign ((blanks ++ (sign ++ (d :: ds' ++ rest))).dropWhile isSpace) =
        (neg, d :: ds' ++ rest) := by
      rw [List.dropWhile_append_of_pos hblanks, List.cons_append, dropWhile_signText hsign hd,
        takeSign_append hsign hd]
    have hlo : -2 ^ 31 ≤ n.toInt := n.minValue_le_toInt
    have hhi := n.toInt_lt
    rw [stoi_of_sign hs, takeWhile_digits hds hrest, if_neg hne, ← hv, if_neg (by omega),
      Int32.ofInt_toInt]

/-- A string of digits begins with its value. -/
theorem beginsWith_digits (hne : ds ≠ []) (hds : ∀ c ∈ ds, isDigit c = true) :
    BeginsWith ds (digitsValue ds) :=
  ⟨[], false, [], ds, [], (List.append_nil ds).symm, fun _ hc => absurd hc List.not_mem_nil, .none,
    hne, hds, fun _ hc => absurd hc (Option.not_mem_none _), rfl⟩

namespace Url

/-- The path, and what stands before it. -/
def cutPath (s : Str) : Str × Str :=
  match Cpp.find (bytes "/") s with
  | some pos => (s.drop pos, s.take pos)
  | none => (bytes "/", s)

/-- The port of a protocol. -/
def defaultPort (protocol : Str) : Int32 :=
  if protocol = bytes "http" then 80
  else if protocol = bytes "udp" then 80
  else 6969

/-- `Url::Parse`. -/
def parse (urlStr : Str) : Except Exn Url :=
  match Cpp.find (bytes "://") urlStr with
  | none => .error (.runtimeError "Invalid URL: No protocol")
  | some pos =>
      let protocol := urlStr.take pos
      let (path, s) := cutPath (urlStr.drop (pos + (bytes "://").length))
      match Cpp.find (bytes ":") s with
      | some pos => do
          let port ← stoi (s.drop (pos + 1))
          return ⟨protocol, s.take pos, port, path⟩
      | none => .ok ⟨protocol, s, defaultPort protocol, path⟩

/-! ## What it makes of its parts -/

/-- The path of a URL without one is `/`. -/
def orSlash (path : Str) : Str := if path = [] then bytes "/" else path

/-- A path is empty, or begins with `/`. -/
def IsPath (path : Str) : Prop := path = [] ∨ ∃ rest, path = 47 :: rest

variable {urlStr protocol host portText path authority : Str} {port : Int32}

theorem cutPath_append (ha : 47 ∉ authority) (hp : IsPath path) :
    cutPath (authority ++ path) = (orSlash path, authority) := by
  have hslash : bytes "/" = [47] := rfl
  obtain rfl | ⟨rest, rfl⟩ := hp
  · rw [cutPath, hslash, List.append_nil, Cpp.find_of_not_mem ha]
    rfl
  · have hfind : Cpp.find [47] (authority ++ 47 :: rest) = some authority.length :=
      Cpp.find_append ha (List.prefix_append [47] rest)
    rw [cutPath, hslash, hfind]
    simp only
    rw [List.drop_left, List.take_left, orSlash, if_neg (List.cons_ne_nil 47 rest)]

/-- The string is a protocol, a part without `/`, and a path. -/
structure Cuts (urlStr protocol authority path : Str) : Prop where
  eq : urlStr = protocol ++ (bytes "://" ++ (authority ++ path))
  first : ∀ j < protocol.length, ¬ bytes "://" <+: urlStr.drop j
  authority : 47 ∉ authority
  path : IsPath path

/-- What `Parse` does with the part between the protocol and the path. -/
theorem Cuts.parse_eq (h : Cuts urlStr protocol authority path) :
    parse urlStr =
      match Cpp.find (bytes ":") authority with
      | some pos => do
          let port ← stoi (authority.drop (pos + 1))
          return ⟨protocol, authority.take pos, port, orSlash path⟩
      | none => .ok ⟨protocol, authority, defaultPort protocol, orSlash path⟩ := by
  have hfind : Cpp.find (bytes "://") urlStr = some protocol.length := by
    refine Cpp.find_eq_some_iff.mpr ⟨?_, ?_, h.first⟩
    · rw [h.eq, List.length_append]
      exact Nat.le_add_right _ _
    · rw [h.eq, List.drop_left]
      exact List.prefix_append _ _
  have hdrop : urlStr.drop (protocol.length + (bytes "://").length) = authority ++ path := by
    rw [h.eq, ← List.drop_drop, List.drop_left, List.drop_left]
  have htake : urlStr.take protocol.length = protocol := by rw [h.eq, List.take_left]
  rw [parse, hfind]
  simp only
  rw [hdrop, htake, cutPath_append h.authority h.path]

theorem Cuts.parse_port (h : Cuts urlStr protocol (host ++ 58 :: portText) path) (hc : 58 ∉ host) :
    parse urlStr = do
      let port ← stoi portText
      return ⟨protocol, host, port, orSlash path⟩ := by
  have hcolon : bytes ":" = [58] := rfl
  have hfind : Cpp.find [58] (host ++ 58 :: portText) = some host.length :=
    Cpp.find_append hc (List.prefix_append [58] portText)
  rw [h.parse_eq, hcolon, hfind]
  simp only
  rw [List.take_left, ← List.drop_drop, List.drop_left, List.drop_one, List.tail_cons]

theorem Cuts.parse_default (h : Cuts urlStr protocol host path) (hc : 58 ∉ host) :
    parse urlStr = .ok ⟨protocol, host, defaultPort protocol, orSlash path⟩ := by
  have hcolon : bytes ":" = [58] := rfl
  rw [h.parse_eq, hcolon, Cpp.find_of_not_mem hc]

/-- A protocol without `:` ends where the first `://` is. -/
theorem cuts_of_not_mem (hp : 58 ∉ protocol) (ha : 47 ∉ authority) (hpath : IsPath path) :
    Cuts (protocol ++ (bytes "://" ++ (authority ++ path))) protocol authority path where
  eq := rfl
  first := (Cpp.find_eq_some_iff.mp
    (Cpp.find_append hp (List.prefix_append (bytes "://") (authority ++ path)))).2.2
  authority := ha
  path := hpath

theorem stoi_toStringNat {n : Nat} (h : n < 2 ^ 31) :
    ∃ port : Int32, port.toInt = n ∧ stoi (toStringNat n) = .ok port := by
  have hv : (Int32.ofInt n).toInt = n := by
    rw [Cpp.toInt_ofInt32]
    omega
  have hb := beginsWith_digits (toStringNat_ne_nil n) fun c hc => isDigit_toStringNat hc
  rw [digitsValue_toStringNat, ← hv] at hb
  exact ⟨Int32.ofInt n, hv, stoi_eq_ok_iff.mpr hb⟩

/-- A URL that was put together from its parts is parsed into them, with a port or without. -/
theorem parse_append (protocol host path : Str) (n : Nat) (hprotocol : 58 ∉ protocol)
    (hslash : 47 ∉ host) (hcolon : 58 ∉ host) (hn : n < 2 ^ 31) (hpath : IsPath path) :
    (∃ port : Int32, port.toInt = n ∧
      parse (protocol ++ (bytes "://" ++ (host ++ (bytes ":" ++ toStringNat n) ++ path))) =
        .ok ⟨protocol, host, port, orSlash path⟩) ∧
      parse (protocol ++ (bytes "://" ++ (host ++ path))) =
        .ok ⟨protocol, host, defaultPort protocol, orSlash path⟩ := by
  have hdigit : isDigit 47 = false := rfl
  have hauthority : 47 ∉ host ++ (bytes ":" ++ toStringNat n) := by
    intro h
    obtain h | h := List.mem_append.mp h
    · exact hslash h
    obtain h | h := List.mem_append.mp h
    · exact absurd h (by decide)
    · exact not_mem_toStringNat hdigit n h
  obtain ⟨port, hport, hstoi⟩ := stoi_toStringNat hn
  refine ⟨⟨port, hport, ?_⟩, (cuts_of_not_mem hprotocol hslash hpath).parse_default hcolon⟩
  have hcuts : Cuts (protocol ++ (bytes "://" ++ (host ++ (bytes ":" ++ toStringNat n) ++ path)))
      protocol (host ++ 58 :: toStringNat n) path := cuts_of_not_mem hprotocol hauthority hpath
  rw [hcuts.parse_port hcolon, hstoi]
  rfl

/-- `parse_append`, for a path that looks like a URL. -/
theorem parse_append_udp :
    (∃ port : Int32, port.toInt = (6969 : Nat) ∧
      parse (bytes "udp" ++ (bytes "://" ++ (bytes "tracker" ++ (bytes ":" ++ toStringNat 6969) ++
        bytes "/a?b=c://d:1/"))) =
        .ok ⟨bytes "udp", bytes "tracker", port, orSlash (bytes "/a?b=c://d:1/")⟩) ∧
      parse (bytes "udp" ++ (bytes "://" ++ (bytes "tracker" ++ bytes "/a?b=c://d:1/"))) =
        .ok ⟨bytes "udp", bytes "tracker", defaultPort (bytes "udp"),
          orSlash (bytes "/a?b=c://d:1/")⟩ :=
  parse_append (bytes "udp") (bytes "tracker") (bytes "/a?b=c://d:1/") 6969 (by decide) (by decide)
    (by decide) (by decide) (.inr ⟨bytes "a?b=c://d:1/", rfl⟩)

end Url

end NodeLink
