import Mathlib.Data.List.TakeWhile
import NodeLink.Lib.Percent

/-!
# Reading a request

The header section of an HTTP/1.1 message is lines that end in CRLF, up to an
empty one.  The first line of a request is a method, a target and a version with
single spaces between them.  The target is split at its first `?`, the query at
each `&`, a parameter at its first `=`, and names and values are percent-decoded.

`readHeader_eq_some_iff` says which text is read as which lines.
-/

namespace HttpText

/-- What ends a line. -/
def crlf : List UInt8 := [13, 10]

/-- The lines up to an empty one, and what follows it, with the part of a line that was read. -/
def header (line : List UInt8) : List UInt8 → Option (List (List UInt8) × List UInt8)
  | [] => none
  | c :: s =>
      if c = 13 then
        match s with
        | 10 :: s =>
            if line = [] then some ([], s)
            else (header [] s).map fun r => (line :: r.1, r.2)
        | _ => none
      else if c = 10 then none
      else header (line ++ [c]) s

/-- The lines of a header section, and what follows it. -/
def readHeader (s : List UInt8) : Option (List (List UInt8) × List UInt8) := header [] s

/-- What stands before the first `c`, and what stands behind it. -/
def cut (c : UInt8) (s : List UInt8) : List UInt8 × List UInt8 :=
  (s.takeWhile (· ≠ c), (s.dropWhile (· ≠ c)).tail)

/-- One parameter: a name, `=`, and a value. -/
def param (s : List UInt8) : Option (List UInt8 × List UInt8) :=
  match Percent.decode (cut 61 s).1, Percent.decode (cut 61 s).2 with
  | some name, some value => some (name, value)
  | _, _ => none

/-- The parameters of a query. -/
def params (query : List UInt8) : Option (List (List UInt8 × List UInt8)) :=
  if query = [] then some [] else (query.splitOn 38).mapM param

/-- A request, as it is read. -/
structure Request where
  method : List UInt8
  path : List UInt8
  params : List (List UInt8 × List UInt8)
  version : List UInt8
  fields : List (List UInt8)
  body : List UInt8
deriving DecidableEq, Repr

/-- Reads a request. -/
def readRequest (s : List UInt8) : Option Request :=
  match readHeader s with
  | some (line :: fields, body) =>
      match line.splitOn 32 with
      | [method, target, version] =>
          (params (cut 63 target).2).map fun ps =>
            ⟨method, (cut 63 target).1, ps, version, fields, body⟩
      | _ => none
  | _ => none

variable {s s' t u v w line body name value : List UInt8} {c : UInt8} {lines : List (List UInt8)}

/-! ## Lines -/

/-- A line of a header section: not empty, and without line ends. -/
structure IsLine (line : List UInt8) : Prop where
  ne_nil : line ≠ []
  cr : 13 ∉ line
  lf : 10 ∉ line

theorem forall_mem_crlf {P : UInt8 → Prop} : (∀ c ∈ crlf, P c) ↔ P 13 ∧ P 10 := by
  rw [crlf, List.forall_mem_cons, List.forall_mem_singleton]

theorem isLine_iff : IsLine line ↔ line ≠ [] ∧ ∀ c ∈ crlf, c ∉ line := by
  rw [forall_mem_crlf]
  exact ⟨fun h => ⟨h.ne_nil, h.cr, h.lf⟩, fun h => ⟨h.1, h.2.1, h.2.2⟩⟩

theorem header_append (hcr : 13 ∉ t) (hlf : 10 ∉ t) (line : List UInt8) :
    header line (t ++ s) = header (line ++ t) s := by
  induction t generalizing line with
  | nil => rw [List.append_nil, List.nil_append]
  | cons c t ih =>
      have hc : c ≠ 13 := fun h => hcr (h ▸ List.mem_cons_self)
      have hc' : c ≠ 10 := fun h => hlf (h ▸ List.mem_cons_self)
      rw [List.cons_append, header.eq_def]
      simp only [if_neg hc, if_neg hc']
      rw [ih (fun h => hcr (List.mem_cons_of_mem c h)) (fun h => hlf (List.mem_cons_of_mem c h)),
        List.append_assoc, List.singleton_append]

theorem header_line (hne : line ≠ []) :
    header line (crlf ++ s) = (header [] s).map fun r => (line :: r.1, r.2) := by
  rw [crlf, List.cons_append, List.cons_append, List.nil_append, header, if_pos rfl, if_neg hne]

theorem header_end : header [] (crlf ++ s) = some ([], s) := by
  rw [crlf, List.cons_append, List.cons_append, List.nil_append, header, if_pos rfl, if_pos rfl]

/-- What was read so far and what follows are the lines, the empty one, and the rest. -/
theorem header_sound (hcr : 13 ∉ line) (hlf : 10 ∉ line) (h : header line s = some (lines, body)) :
    line ++ s = lines.flatMap (· ++ crlf) ++ (crlf ++ body) ∧ ∀ l ∈ lines, IsLine l := by
  fun_induction header line s generalizing lines body with
  | case1 => cases h
  | case2 s =>
      cases h
      exact ⟨rfl, fun l hl => absurd hl List.not_mem_nil⟩
  | case3 line s hne ih =>
      obtain ⟨⟨ls, b⟩, hr, hlines⟩ := Option.map_eq_some_iff.mp h
      cases hlines
      obtain ⟨hs, hls⟩ := ih List.not_mem_nil List.not_mem_nil hr
      refine ⟨?_, fun l hl => ?_⟩
      · rw [List.flatMap_cons, List.append_assoc, ← hs, List.append_assoc]
        rfl
      · obtain rfl | hl := List.mem_cons.mp hl
        · exact ⟨hne, hcr, hlf⟩
        · exact hls l hl
  | case4 => cases h
  | case5 => cases h
  | case6 line c s hc hc' ih =>
      have hcr : 13 ∉ line ++ [c] := fun hm =>
        (List.mem_append.mp hm).elim hcr fun hm => hc (List.mem_singleton.mp hm).symm
      have hlf : 10 ∉ line ++ [c] := fun hm =>
        (List.mem_append.mp hm).elim hlf fun hm => hc' (List.mem_singleton.mp hm).symm
      have hs := ih hcr hlf h
      rwa [List.append_assoc, List.singleton_append] at hs

theorem header_complete (hlines : ∀ l ∈ lines, IsLine l) :
    header [] (lines.flatMap (· ++ crlf) ++ (crlf ++ body)) = some (lines, body) := by
  induction lines with
  | nil => exact header_end
  | cons l lines ih =>
      have hl := hlines l List.mem_cons_self
      rw [List.flatMap_cons, List.append_assoc, List.append_assoc, header_append hl.cr hl.lf,
        List.nil_append, header_line hl.ne_nil,
        ih fun l' hl' => hlines l' (List.mem_cons_of_mem l hl')]
      rfl

/-- The text of a header section determines its lines, and they determine it. -/
theorem readHeader_eq_some_iff :
    readHeader s = some (lines, body) ↔
      s = lines.flatMap (· ++ crlf) ++ (crlf ++ body) ∧ ∀ l ∈ lines, IsLine l := by
  refine ⟨fun h => header_sound List.not_mem_nil List.not_mem_nil h, ?_⟩
  rintro ⟨rfl, hlines⟩
  exact header_complete hlines

/-! ## Cutting and splitting -/

theorem cut_of_not_mem (h : c ∉ s) : cut c s = (s, []) := by
  have hall : ∀ a ∈ s, decide (a ≠ c) = true := fun a ha =>
    decide_eq_true fun hac => h (hac ▸ ha)
  rw [cut, List.takeWhile_eq_self_iff.mpr hall, List.dropWhile_eq_nil_iff.mpr hall]
  rfl

theorem cut_append (h : c ∉ u) (v : List UInt8) : cut c (u ++ c :: v) = (u, v) := by
  have hall : ∀ a ∈ u, decide (a ≠ c) = true := fun a ha =>
    decide_eq_true fun hac => h (hac ▸ ha)
  have htake : (c :: v).takeWhile (· ≠ c) = [] := by simp
  have hdrop : (c :: v).dropWhile (· ≠ c) = c :: v := by simp
  rw [cut, List.takeWhile_append_of_pos hall, List.dropWhile_append_of_pos hall, htake, hdrop,
    List.append_nil]
  rfl

/-- What is in no part and is not what joins them. -/
theorem not_mem_intercalate {d : UInt8} {parts : List (List UInt8)} (hd : c ≠ d)
    (hparts : ∀ p ∈ parts, c ∉ p) : c ∉ [d].intercalate parts := by
  induction parts with
  | nil => exact List.not_mem_nil
  | cons p parts ih =>
      have hp := hparts p List.mem_cons_self
      have ih := ih fun q hq => hparts q (List.mem_cons_of_mem p hq)
      cases parts with
      | nil =>
          rw [List.intercalate_singleton]
          exact hp
      | cons q parts =>
          rw [List.intercalate_cons_cons]
          simp only [List.mem_append, List.mem_singleton, not_or]
          exact ⟨⟨hp, hd⟩, ih⟩

/-- A string that is not split at `c` has no `c`. -/
theorem not_mem_of_splitOn (h : (s.splitOn c).length = 1) : c ∉ s := by
  intro hc
  obtain ⟨u, v, rfl, -⟩ := List.eq_append_cons_of_mem hc
  have hu := List.length_pos_iff.mpr (List.splitOn_ne_nil c u)
  have hv := List.length_pos_iff.mpr (List.splitOn_ne_nil c v)
  rw [List.splitOn_append_cons_self, List.length_append] at h
  omega

/-- What is appended without a `c` goes to the last part. -/
theorem exists_splitOn_append (c : UInt8) (s : List UInt8) :
    ∃ pre last, c ∉ last ∧ ∀ w, c ∉ w → (s ++ w).splitOn c = pre ++ [last ++ w] := by
  induction s with
  | nil => exact ⟨[], [], List.not_mem_nil, fun w hw => List.splitOn_eq_singleton hw⟩
  | cons b s ih =>
      obtain ⟨pre, last, hlast, hsplit⟩ := ih
      by_cases hb : b = c
      · subst hb
        refine ⟨[] :: pre, last, hlast, fun w hw => ?_⟩
        have hfirst := List.splitOn_append_cons_self_of_not_mem (a := b) List.not_mem_nil (s ++ w)
        rw [List.cons_append, List.cons_append, ← hsplit w hw]
        exact hfirst
      · cases pre with
        | nil =>
            refine ⟨[], b :: last, fun hm => ?_, fun w hw => ?_⟩
            · obtain h | h := List.mem_cons.mp hm
              · exact hb h.symm
              · exact hlast h
            · rw [List.cons_append, List.splitOn_cons_eq_if_modifyHead, hsplit w hw, if_neg]
              · rfl
              · exact fun h => hb (beq_iff_eq.mp h)
        | cons p pre =>
            refine ⟨(b :: p) :: pre, last, hlast, fun w hw => ?_⟩
            rw [List.cons_append, List.splitOn_cons_eq_if_modifyHead, hsplit w hw, if_neg]
            · rfl
            · exact fun h => hb (beq_iff_eq.mp h)

/-! ## Parameters -/

/-- What a request was read from. -/
theorem readRequest_eq_some_iff {r : Request} :
    readRequest s = some r ↔ ∃ line target, readHeader s = some (line :: r.fields, r.body) ∧
      line.splitOn 32 = [r.method, target, r.version] ∧ (cut 63 target).1 = r.path ∧
        params (cut 63 target).2 = some r.params := by
  constructor
  · intro h
    rw [readRequest.eq_def] at h
    split at h
    next line fields body hheader =>
      split at h
      next method target version hline =>
        obtain ⟨ps, hps, rfl⟩ := Option.map_eq_some_iff.mp h
        exact ⟨line, target, hheader, hline, rfl, hps⟩
      next => cases h
    next => cases h
  · rintro ⟨line, target, hheader, hline, hpath, hparams⟩
    rw [readRequest, hheader]
    simp only
    rw [hline]
    simp only
    rw [hparams, hpath]
    rfl

/-- A name that needs no decoding. -/
theorem param_eq (h61 : 61 ∉ name) (h37 : 37 ∉ name) :
    param (name ++ 61 :: v) = (Percent.decode v).map fun v => (name, v) := by
  rw [param, cut_append h61, Percent.decode_of_not_mem h37]
  cases Percent.decode v <;> rfl

/-- A parameter that needs no decoding. -/
theorem param_of_not_mem (h61 : 61 ∉ name) (h37 : 37 ∉ name) (hv : 37 ∉ v) :
    param (name ++ 61 :: v) = some (name, v) := by
  rw [param_eq h61 h37, Percent.decode_of_not_mem hv]
  rfl

theorem param_eq_some_iff {p : List UInt8 × List UInt8} :
    param s = some p ↔
      Percent.decode (cut 61 s).1 = some p.1 ∧ Percent.decode (cut 61 s).2 = some p.2 := by
  rw [param]
  cases Percent.decode (cut 61 s).1 with
  | none => exact ⟨fun h => (by cases h), fun h => (by cases h.1)⟩
  | some name =>
      cases Percent.decode (cut 61 s).2 with
      | none => exact ⟨fun h => (by cases h), fun h => (by cases h.2)⟩
      | some value =>
          simp only [Option.some.injEq, Prod.ext_iff]

/-- A parameter with another one written behind it is another parameter. -/
theorem param_append_ne {p : List UInt8 × List UInt8} (hs : param s = some p) (hne : name ≠ [])
    (h61 : 61 ∉ name) : param (s ++ (name ++ 61 :: v)) ≠ some p := by
  intro h
  rw [param_eq_some_iff] at hs h
  by_cases hmem : 61 ∈ s
  · obtain ⟨n, u, rfl, hn⟩ := List.eq_append_cons_of_mem hmem
    rw [List.append_assoc, List.cons_append, cut_append hn] at h
    rw [cut_append hn] at hs
    have hnil := Percent.eq_nil_of_decode_append hs.2 h.2
    exact hne (List.append_eq_nil_iff.mp hnil).1
  · have hname : 61 ∉ s ++ name := fun hm => (List.mem_append.mp hm).elim hmem h61
    rw [← List.append_assoc, cut_append hname] at h
    rw [cut_of_not_mem hmem] at hs
    exact hne (Percent.eq_nil_of_decode_append hs.1 h.1)

theorem mapM_cons_eq_some_iff {α β : Type*} {f : α → Option β} {a : α} {l : List α} {r : List β} :
    (a :: l).mapM f = some r ↔ ∃ b bs, f a = some b ∧ l.mapM f = some bs ∧ r = b :: bs := by
  rw [List.mapM_cons]
  simp only [Option.bind_eq_bind, Option.bind_eq_some_iff, Option.pure_def, Option.some.injEq]
  constructor
  · rintro ⟨b, hb, bs, hbs, rfl⟩
    exact ⟨b, bs, hb, hbs, rfl⟩
  · rintro ⟨b, bs, hb, hbs, rfl⟩
    exact ⟨b, hb, bs, hbs, rfl⟩

theorem mapM_append_eq_some_iff {α β : Type*} {f : α → Option β} {l l' : List α} {r : List β} :
    (l ++ l').mapM f = some r ↔ ∃ p q, l.mapM f = some p ∧ l'.mapM f = some q ∧ r = p ++ q := by
  rw [List.mapM_append]
  simp only [Option.bind_eq_bind, Option.bind_eq_some_iff, Option.pure_def, Option.some.injEq]
  constructor
  · rintro ⟨p, hp, q, hq, rfl⟩
    exact ⟨p, q, hp, hq, rfl⟩
  · rintro ⟨p, q, hp, hq, rfl⟩
    exact ⟨p, hp, q, hq, rfl⟩

theorem length_of_mapM {α β : Type*} {f : α → Option β} {l : List α} {r : List β}
    (h : l.mapM f = some r) : r.length = l.length := by
  induction l generalizing r with
  | nil =>
      cases h
      rfl
  | cons a l ih =>
      obtain ⟨b, bs, -, hbs, rfl⟩ := mapM_cons_eq_some_iff.mp h
      rw [List.length_cons, List.length_cons, ih hbs]

end HttpText
