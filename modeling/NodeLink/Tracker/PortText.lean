import NodeLink.Tracker.UrlParse

/-!
# The text of a port

What stands between the first `:` behind the protocol and the path is the text
of the port.  `std::stoi` reads a number at its front and leaves the rest: a
port text such as `80x` is accepted, and so is a number that is no port.

`dropsNothing_iff` says for which strings nothing is lost.
-/

namespace NodeLink

namespace Url

variable {urlStr protocol host portText path : Str} {url : Url} {pos : Nat}

/-- A port in decimal digits. -/
structure IsPortText (portText : Str) : Prop where
  ne_nil : portText ≠ []
  digits : ∀ c ∈ portText, isDigit c = true
  value : digitsValue portText ≤ 65535

/-- The string is a protocol, a host without `:`, a port text, and a path. -/
def HasPort (urlStr protocol host portText path : Str) : Prop :=
  Cuts urlStr protocol (host ++ 58 :: portText) path ∧ 58 ∉ host

/-- What is returned says the whole string, and nothing but a port is accepted as one. -/
def DropsNothing (urlStr : Str) : Prop :=
  ∀ protocol host portText path url, HasPort urlStr protocol host portText path →
    parse urlStr = .ok url →
      IsPortText portText ∧ url.port.toInt = digitsValue portText ∧
        url.protocol ++ bytes "://" ++ url.host ++ bytes ":" ++ portText ++ path = urlStr ∧
        url.path = orSlash path

/-- A number that fits into an `int` stands at the front. -/
def BeginsWithInt (s : Str) : Prop := ∃ v : Int, BeginsWith s v ∧ -2 ^ 31 ≤ v ∧ v < 2 ^ 31

/-- A string with a `:` between the protocol and the next `/` has a port text. -/
theorem exists_hasPort (hpos : Cpp.find (bytes "://") urlStr = some pos)
    (hcolon : 58 ∈ (urlStr.drop (pos + 3)).takeWhile (· ≠ 47)) :
    ∃ protocol host portText path, HasPort urlStr protocol host portText path := by
  obtain ⟨hle, hat, hfirst⟩ := Cpp.find_eq_some_iff.mp hpos
  obtain ⟨host, portText, hauthority, hhost⟩ := List.eq_append_cons_of_mem hcolon
  have hrest : urlStr.drop pos = bytes "://" ++ urlStr.drop (pos + 3) := by
    obtain ⟨rest, hrest⟩ := hat
    rw [← List.drop_drop, ← hrest]
    rfl
  have hlen : (urlStr.take pos).length = pos := List.length_take_of_le hle
  refine ⟨urlStr.take pos, host, portText, (urlStr.drop (pos + 3)).dropWhile (· ≠ 47),
    ⟨?_, ?_, ?_, ?_⟩, hhost⟩
  · rw [← hauthority, List.takeWhile_append_dropWhile, ← hrest, List.take_append_drop]
  · rw [hlen]
    exact hfirst
  · rw [← hauthority]
    intro hmem
    simpa using List.mem_takeWhile_imp hmem
  · cases hpath : (urlStr.drop (pos + 3)).dropWhile (· ≠ 47) with
    | nil => exact .inl rfl
    | cons c rest =>
        have hc := List.head?_dropWhile_not (· ≠ 47) (urlStr.drop (pos + 3))
        rw [hpath] at hc
        have hc : c = 47 := by simpa using hc
        exact .inr ⟨rest, by rw [hc]⟩

/-- A port text is accepted if and only if an `int` stands at its front. -/
theorem stoi_ok_iff : (∃ port, stoi portText = .ok port) ↔ BeginsWithInt portText := by
  constructor
  · rintro ⟨port, hport⟩
    exact ⟨port.toInt, stoi_eq_ok_iff.mp hport, port.minValue_le_toInt, port.toInt_lt⟩
  · rintro ⟨v, hv, hlo, hhi⟩
    have hint : (Int32.ofInt v).toInt = v := by
      rw [Cpp.toInt_ofInt32]
      omega
    exact ⟨Int32.ofInt v, stoi_eq_ok_iff.mpr (hint.symm ▸ hv)⟩

theorem IsPortText.stoi_eq (h : IsPortText portText) {port : Int32} (hp : stoi portText = .ok port) :
    port.toInt = digitsValue portText := by
  have hv := h.value
  have hint : (Int32.ofInt (digitsValue portText)).toInt = digitsValue portText := by
    rw [Cpp.toInt_ofInt32]
    omega
  have hstoi := stoi_eq_ok_iff.mpr (hint.symm ▸ beginsWith_digits h.ne_nil h.digits)
  rw [hp] at hstoi
  cases hstoi
  exact hint

/-- What `Parse` returns for a string with a port text. -/
theorem HasPort.parse_eq_ok (h : HasPort urlStr protocol host portText path)
    (hp : parse urlStr = .ok url) :
    ∃ port, stoi portText = .ok port ∧ url = ⟨protocol, host, port, orSlash path⟩ := by
  rw [h.1.parse_port h.2] at hp
  cases hport : stoi portText with
  | error e =>
      rw [hport] at hp
      cases hp
  | ok port =>
      rw [hport] at hp
      cases hp
      exact ⟨port, rfl, rfl⟩

/-- Nothing is lost if and only if the port text is a port, or begins with no `int`. -/
theorem dropsNothing_iff (urlStr : Str) :
    DropsNothing urlStr ↔
      ∀ protocol host portText path, HasPort urlStr protocol host portText path →
        IsPortText portText ∨ ¬ BeginsWithInt portText := by
  constructor
  · intro h protocol host portText path hparts
    by_cases hint : BeginsWithInt portText
    · obtain ⟨port, hport⟩ := stoi_ok_iff.mpr hint
      have hparse : parse urlStr = .ok ⟨protocol, host, port, orSlash path⟩ := by
        rw [hparts.1.parse_port hparts.2, hport]
        rfl
      exact .inl (h _ _ _ _ _ hparts hparse).1
    · exact .inr hint
  · intro h protocol host portText path url hparts hparse
    obtain ⟨port, hport, rfl⟩ := hparts.parse_eq_ok hparse
    obtain htext | hno := h _ _ _ _ hparts
    · refine ⟨htext, htext.stoi_eq hport, ?_, rfl⟩
      have hcolon : bytes ":" = [58] := rfl
      rw [hparts.1.eq, hcolon]
      simp only [List.append_assoc, List.nil_append, List.cons_append]
    · exact absurd (stoi_ok_iff.mp ⟨port, hport⟩) hno

/-- The letter behind the number is lost. -/
theorem not_dropsNothing_trailing :
    parse (bytes "http://h:80x/") = .ok ⟨bytes "http", bytes "h", 80, bytes "/"⟩ ∧
      ¬ DropsNothing (bytes "http://h:80x/") := by
  have hparse : parse (bytes "http://h:80x/") = .ok ⟨bytes "http", bytes "h", 80, bytes "/"⟩ := rfl
  have hparts : HasPort (bytes "http://h:80x/") (bytes "http") (bytes "h") (bytes "80x")
      (bytes "/") := ⟨⟨rfl, by decide, by decide, .inr ⟨[], rfl⟩⟩, by decide⟩
  refine ⟨hparse, fun h => ?_⟩
  have hx := (h _ _ _ _ _ hparts hparse).1.digits 120 (by decide)
  cases hx

end Url

end NodeLink
