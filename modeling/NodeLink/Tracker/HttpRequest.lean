import NodeLink.Lib.HttpText
import NodeLink.Tracker.Agreement
import NodeLink.Tracker.UrlEncode
import NodeLink.Tracker.UrlParse

/-!
# How the request is read

`httpRequest` writes the path of the announce URL, the host and the peer id as
they are.  Only the info hash is encoded.  `ReadsBack` says that a tracker that
reads the request finds in it what was meant.

`readsBack_iff` says for which URLs and peer ids that is so: a path without a
query of its own, and none of the three with a character that ends what it
stands in.
-/

namespace NodeLink

namespace Tracker

open HttpText

/-- The parameters the code adds. -/
def addedParams (t : TorrentFile) (peerId : Str) (port : Int32) : List (Str × Str) :=
  [(bytes "info_hash", t.infoHash), (bytes "peer_id", peerId),
    (bytes "port", toStringInt port.toInt64), (bytes "uploaded", bytes "0"),
    (bytes "downloaded", bytes "0"), (bytes "compact", bytes "1"),
    (bytes "left", toStringInt t.length)]

/-- The header lines behind the request line. -/
def headerLines (url : Url) : List Str :=
  [bytes "Host: " ++ url.host, bytes "User-Agent: BitTorrent/1.0", bytes "Connection: Close"]

/-- The request is read as the path of the URL without its query, the parameters of that query
and those added, and the header lines the code writes. -/
def ReadsBack (url : Url) (t : TorrentFile) (peerId : Str) (port : Int32) : Prop :=
  ∃ own, params (cut 63 url.path).2 = some own ∧
    readRequest (httpRequest url t peerId port) = some
      { method := bytes "GET", path := (cut 63 url.path).1
        params := own ++ addedParams t peerId port, version := bytes "HTTP/1.1"
        fields := headerLines url, body := [] }

/-- What can be written into a request as it is. -/
structure Spliceable (url : Url) (peerId : Str) : Prop where
  path : ∀ c ∈ bytes "? \r\n", c ∉ url.path
  host : ∀ c ∈ bytes "\r\n", c ∉ url.host
  peerId : ∀ c ∈ bytes " &%\r\n", c ∉ peerId

variable {url : Url} {t : TorrentFile} {peerId q s : Str} {port : Int32} {c : UInt8}
  {own : List (Str × Str)}

/-! ## The text of the request -/

/-- The parameters behind the peer id. -/
def restParams (t : TorrentFile) (port : Int32) : List Str :=
  [bytes "port" ++ 61 :: toStringInt port.toInt64, bytes "uploaded" ++ 61 :: bytes "0",
    bytes "downloaded" ++ 61 :: bytes "0", bytes "compact" ++ 61 :: bytes "1",
    bytes "left" ++ 61 :: toStringInt t.length]

/-- The parameter of the info hash. -/
def infoParam (t : TorrentFile) : Str := bytes "info_hash" ++ 61 :: urlEncode t.infoHash

/-- The parameter of the peer id. -/
def peerParam (peerId : Str) : Str := bytes "peer_id" ++ 61 :: peerId

/-- The query the code writes. -/
def addedQuery (t : TorrentFile) (peerId : Str) (port : Int32) : Str :=
  infoParam t ++ 38 :: (peerParam peerId ++ 38 :: [38].intercalate (restParams t port))

/-- The request target. -/
def target (url : Url) (t : TorrentFile) (peerId : Str) (port : Int32) : Str :=
  url.path ++ 63 :: addedQuery t peerId port

/-- The request line. -/
def requestLine (url : Url) (t : TorrentFile) (peerId : Str) (port : Int32) : Str :=
  bytes "GET" ++ 32 :: (target url t peerId port ++ 32 :: bytes "HTTP/1.1")

theorem httpRequest_eq (url : Url) (t : TorrentFile) (peerId : Str) (port : Int32) :
    httpRequest url t peerId port =
      (requestLine url t peerId port :: headerLines url).flatMap (· ++ crlf) ++ (crlf ++ []) := by
  have hget : bytes "GET " = bytes "GET" ++ [32] := rfl
  have hinfo : bytes "?info_hash=" = 63 :: (bytes "info_hash" ++ [61]) := rfl
  have hpeer : bytes "&peer_id=" = 38 :: (bytes "peer_id" ++ [61]) := rfl
  have hport : bytes "&port=" = 38 :: (bytes "port" ++ [61]) := rfl
  have hup : bytes "&uploaded=0" = 38 :: (bytes "uploaded" ++ 61 :: bytes "0") := rfl
  have hdown : bytes "&downloaded=0" = 38 :: (bytes "downloaded" ++ 61 :: bytes "0") := rfl
  have hcompact : bytes "&compact=1" = 38 :: (bytes "compact" ++ 61 :: bytes "1") := rfl
  have hleft : bytes "&left=" = 38 :: (bytes "left" ++ [61]) := rfl
  have hversion : bytes " HTTP/1.1\r\n" = 32 :: (bytes "HTTP/1.1" ++ crlf) := rfl
  have hend : bytes "\r\n" = crlf := rfl
  have hagent : bytes "User-Agent: BitTorrent/1.0\r\n" =
    bytes "User-Agent: BitTorrent/1.0" ++ crlf := rfl
  have hclose : bytes "Connection: Close\r\n\r\n" = bytes "Connection: Close" ++ (crlf ++ crlf) :=
    rfl
  delta httpRequest
  simp only [hget, hinfo, hpeer, hport, hup, hdown, hcompact, hleft, hversion, hend,
    hagent, hclose, requestLine, target, addedQuery, infoParam, peerParam, headerLines, restParams, List.flatMap_cons,
    List.flatMap_nil, List.append_assoc, List.cons_append, List.nil_append, List.append_nil,
    List.intercalate_cons_cons, List.intercalate_singleton]

/-! ## What is in its parts -/

theorem not_mem_toStringInt (hd : isDigit c = false) (hc : c ≠ 45) (v : Int64) :
    c ∉ toStringInt v := by
  rw [toStringInt]
  split
  · intro hm
    obtain h | h := List.mem_cons.mp hm
    · exact hc h
    · exact not_mem_toStringNat hd _ h
  · exact not_mem_toStringNat hd _

theorem not_mem_urlEncode (hu : ¬ Percent.Unreserved c) (hc : c ≠ 37) (b : Buffer) :
    c ∉ urlEncode b := fun hm => ((escaped_urlEncode b).mem hm).elim hu hc

/-- What is in none of the parts written by the code itself. -/
def Foreign (c : UInt8) : Prop := c = 32 ∨ c = 13 ∨ c = 10 ∨ c = 38

theorem Foreign.not_mem_urlEncode (hc : Foreign c) (b : Buffer) : c ∉ urlEncode b := by
  obtain rfl | rfl | rfl | rfl := hc <;>
    exact Tracker.not_mem_urlEncode (by decide) (by decide) b

theorem Foreign.not_mem_toStringInt (hc : Foreign c) (v : Int64) : c ∉ toStringInt v := by
  obtain rfl | rfl | rfl | rfl := hc <;>
    exact Tracker.not_mem_toStringInt rfl (by decide) v

/-- The parameters besides the peer id are not split. -/
theorem not_mem_restParams (t : TorrentFile) (port : Int32) (hc : Foreign c) :
    ∀ s ∈ restParams t port, c ∉ s := by
  have hnames : c ≠ 61 ∧ c ∉ bytes "port" ∧ c ∉ bytes "uploaded" ∧ c ∉ bytes "downloaded" ∧
      c ∉ bytes "compact" ∧ c ∉ bytes "left" ∧ c ∉ bytes "0" ∧ c ∉ bytes "1" := by
    obtain rfl | rfl | rfl | rfl := hc <;> decide
  obtain ⟨heq, hport, hup, hdown, hcompact, hleft, h0, h1⟩ := hnames
  have hpair {name value : Str} (hn : c ∉ name) (hv : c ∉ value) : c ∉ name ++ 61 :: value := by
    simp only [List.mem_append, List.mem_cons, not_or]
    exact ⟨hn, heq, hv⟩
  simp only [restParams, List.forall_mem_cons]
  exact ⟨hpair hport (hc.not_mem_toStringInt _), hpair hup h0, hpair hdown h0, hpair hcompact h1,
    hpair hleft (hc.not_mem_toStringInt _), fun _ h => absurd h List.not_mem_nil⟩

theorem not_mem_infoParam (hc : Foreign c) : c ∉ infoParam t := by
  have hname : c ≠ 61 ∧ c ∉ bytes "info_hash" := by
    obtain rfl | rfl | rfl | rfl := hc <;> decide
  simp only [infoParam, List.mem_append, List.mem_cons, not_or]
  exact ⟨hname.2, hname.1, hc.not_mem_urlEncode _⟩

/-! ## The parameters -/

/-- What the parameters behind the peer id are read as. -/
def readRest (t : TorrentFile) (port : Int32) : List (Str × Str) :=
  [(bytes "port", toStringInt port.toInt64), (bytes "uploaded", bytes "0"),
    (bytes "downloaded", bytes "0"), (bytes "compact", bytes "1"),
    (bytes "left", toStringInt t.length)]

theorem restParams_mapM : (restParams t port).mapM param = some (readRest t port) := by
  have hport : param (bytes "port" ++ 61 :: toStringInt port.toInt64) =
      some (bytes "port", toStringInt port.toInt64) :=
    param_of_not_mem (by decide) (by decide) (not_mem_toStringInt rfl (by decide) _)
  have hleft : param (bytes "left" ++ 61 :: toStringInt t.length) =
      some (bytes "left", toStringInt t.length) :=
    param_of_not_mem (by decide) (by decide) (not_mem_toStringInt rfl (by decide) _)
  have hup : param (bytes "uploaded" ++ 61 :: bytes "0") = some (bytes "uploaded", bytes "0") :=
    param_of_not_mem (by decide) (by decide) (by decide)
  have hdown : param (bytes "downloaded" ++ 61 :: bytes "0") = some (bytes "downloaded", bytes "0") :=
    param_of_not_mem (by decide) (by decide) (by decide)
  have hcompact : param (bytes "compact" ++ 61 :: bytes "1") = some (bytes "compact", bytes "1") :=
    param_of_not_mem (by decide) (by decide) (by decide)
  rw [restParams, List.mapM_cons, List.mapM_cons, List.mapM_cons, List.mapM_cons, List.mapM_cons,
    hport, hup, hdown, hcompact, hleft]
  rfl

theorem param_infoParam : param (infoParam t) = some (bytes "info_hash", t.infoHash) := by
  rw [infoParam, param_eq (by decide) (by decide), decode_urlEncode]
  rfl

theorem param_peerParam_iff :
    param (peerParam peerId) = some (bytes "peer_id", peerId) ↔ 37 ∉ peerId := by
  rw [peerParam, param_eq (by decide) (by decide), ← Percent.decode_eq_self_iff]
  constructor
  · intro h
    obtain ⟨v, hv, hpair⟩ := Option.map_eq_some_iff.mp h
    cases hpair
    exact hv
  · intro h
    rw [h]
    rfl

theorem splitOn_addedQuery :
    (addedQuery t peerId port).splitOn 38 =
      infoParam t :: ((peerParam peerId).splitOn 38 ++ restParams t port) := by
  have hrest : ([38].intercalate (restParams t port)).splitOn 38 = restParams t port :=
    List.splitOn_intercalate 38 (not_mem_restParams t port (.inr (.inr (.inr rfl))))
      (List.cons_ne_nil _ _)
  rw [addedQuery, List.splitOn_append_cons_self_of_not_mem
    (not_mem_infoParam (.inr (.inr (.inr rfl)))), List.splitOn_append_cons_self, hrest]

/-- The peer id is read back if it is not split and stands for itself. -/
theorem mapM_peerParam_iff :
    ((peerParam peerId).splitOn 38).mapM param = some [(bytes "peer_id", peerId)] ↔
      38 ∉ peerId ∧ 37 ∉ peerId := by
  have hname : 38 ∉ bytes "peer_id" ∧ (38 : UInt8) ≠ 61 := by decide
  have hmem : 38 ∉ peerParam peerId ↔ 38 ∉ peerId := by
    simp only [peerParam, List.mem_append, List.mem_cons, not_or]
    exact ⟨fun h => h.2.2, fun h => ⟨hname.1, hname.2, h⟩⟩
  have hsingle (hamp : 38 ∉ peerId) :
      ((peerParam peerId).splitOn 38).mapM param = some [(bytes "peer_id", peerId)] ↔
        37 ∉ peerId := by
    rw [List.splitOn_eq_singleton (hmem.mpr hamp), ← param_peerParam_iff, mapM_cons_eq_some_iff]
    constructor
    · rintro ⟨b, bs, hb, -, hlist⟩
      rw [hb, (List.cons.inj hlist).1]
    · intro h
      exact ⟨_, [], h, rfl, rfl⟩
  constructor
  · intro h
    have hamp := hmem.mp (not_mem_of_splitOn (length_of_mapM h).symm)
    exact ⟨hamp, (hsingle hamp).mp h⟩
  · rintro ⟨hamp, hpct⟩
    exact (hsingle hamp).mpr hpct

theorem infoParam_ne_nil (t : TorrentFile) : infoParam t ≠ [] := by
  rw [infoParam]
  exact List.append_ne_nil_of_right_ne_nil _ (List.cons_ne_nil _ _)

/-- The added query is read as what was meant if and only if the peer id is. -/
theorem params_addedQuery_iff (t : TorrentFile) (port : Int32) :
    params (addedQuery t peerId port) = some (addedParams t peerId port) ↔
      38 ∉ peerId ∧ 37 ∉ peerId := by
  have hne : addedQuery t peerId port ≠ [] := by
    rw [addedQuery]
    exact List.append_ne_nil_of_left_ne_nil (infoParam_ne_nil t) _
  have hadded : addedParams t peerId port =
      (bytes "info_hash", t.infoHash) :: ([(bytes "peer_id", peerId)] ++ readRest t port) := rfl
  rw [← mapM_peerParam_iff, params, if_neg hne, splitOn_addedQuery, hadded, mapM_cons_eq_some_iff]
  constructor
  · rintro ⟨b, bs, -, hbs, hlist⟩
    obtain ⟨p, r, hp, hr, rfl⟩ := mapM_append_eq_some_iff.mp hbs
    rw [restParams_mapM] at hr
    cases hr
    rw [hp, List.append_cancel_right (List.cons.inj hlist).2]
  · intro h
    exact ⟨_, _, param_infoParam, mapM_append_eq_some_iff.mpr ⟨_, _, h, restParams_mapM, rfl⟩, rfl⟩

/-- What is written behind the last parameter of a query of its own. -/
theorem param_append_infoParam_ne {p : Str × Str} (h : param s = some p) :
    param (s ++ 63 :: infoParam t) ≠ some p := by
  have hname : 61 ∉ 63 :: bytes "info_hash" := by decide
  exact param_append_ne h (List.cons_ne_nil 63 (bytes "info_hash")) hname

/-- Behind an empty query of its own, the name of the first parameter is another one. -/
theorem param_cons_infoParam_ne (value : Str) :
    param (63 :: infoParam t) ≠ some (bytes "info_hash", value) := by
  have hname : 61 ∉ 63 :: bytes "info_hash" ∧ 37 ∉ 63 :: bytes "info_hash" := by decide
  have hread : param (63 :: bytes "info_hash" ++ 61 :: urlEncode t.infoHash) =
      some (63 :: bytes "info_hash", t.infoHash) := by
    rw [param_eq hname.1 hname.2, decode_urlEncode]
    rfl
  intro h
  have hpair : 63 :: bytes "info_hash" = bytes "info_hash" :=
    congrArg Prod.fst (Option.some.inj (hread.symm.trans h))
  exact absurd hpair (by decide)

/-- Behind a query of its own, what the code adds changes the last parameter of that. -/
theorem params_append_ne (hq : params q = some own) :
    params (q ++ 63 :: addedQuery t peerId port) ≠ some (own ++ addedParams t peerId port) := by
  intro h
  have hne : q ++ 63 :: addedQuery t peerId port ≠ [] :=
    List.append_ne_nil_of_right_ne_nil q (List.cons_ne_nil _ _)
  have hinfo : 38 ∉ 63 :: infoParam t := fun hm => by
    obtain h | h := List.mem_cons.mp hm
    · exact absurd h (by decide)
    · exact not_mem_infoParam (.inr (.inr (.inr rfl))) h
  obtain ⟨pre, last, -, hsplit⟩ := exists_splitOn_append 38 q
  have htext : q ++ 63 :: addedQuery t peerId port = (q ++ 63 :: infoParam t) ++
      38 :: (peerParam peerId ++ 38 :: [38].intercalate (restParams t port)) := by
    rw [addedQuery, List.append_assoc, List.cons_append]
  rw [params, if_neg hne, htext, List.splitOn_append_cons_self, hsplit _ hinfo,
    List.append_assoc] at h
  obtain ⟨as, r, has, hr, hlist⟩ := mapM_append_eq_some_iff.mp h
  obtain ⟨b, bs, hb, -, rfl⟩ := mapM_cons_eq_some_iff.mp hr
  by_cases hnil : q = []
  · -- the query of the URL is empty, and has no parameters
    subst hnil
    obtain rfl : own = [] := (Option.some.inj hq).symm
    have hparts : pre ++ [last ++ []] = [[]] := (hsplit [] List.not_mem_nil).symm
    obtain ⟨rfl, hlast⟩ : pre = [] ∧ last ++ [] = [] := List.append_eq_singleton_iff.mp hparts |>.elim
      (fun h => ⟨h.1, (List.cons.inj h.2).1⟩) fun h => absurd h.2 (List.cons_ne_nil _ _)
    obtain rfl : as = [] := (Option.some.inj has).symm
    obtain rfl : last = [] := (List.append_nil last).symm.trans hlast
    rw [← (List.cons.inj hlist).1] at hb
    exact param_cons_infoParam_ne t.infoHash hb
  · rw [params, if_neg hnil, ← List.append_nil q, hsplit [] List.not_mem_nil] at hq
    obtain ⟨as', r', has', hr', rfl⟩ := mapM_append_eq_some_iff.mp hq
    obtain ⟨b', bs', hb', hbs', rfl⟩ := mapM_cons_eq_some_iff.mp hr'
    obtain rfl : as = as' := Option.some.inj (has.symm.trans has')
    rw [List.append_assoc] at hlist
    have hhead := List.append_cancel_left hlist
    rw [List.append_nil] at hb'
    have hsame : b' = b := (List.cons.inj hhead).1
    rw [hsame] at hb'
    exact param_append_infoParam_ne hb' hb

/-! ## The whole request -/

/-- A character that is in no part the code writes is in the target only through the path and
the peer id. -/
theorem not_mem_target_iff (t : TorrentFile) (port : Int32) (hc : Foreign c) (hamp : c ≠ 38) :
    c ∉ target url t peerId port ↔ c ∉ url.path ∧ c ∉ peerId := by
  have hnames : c ≠ 63 ∧ c ≠ 61 ∧ c ∉ bytes "peer_id" := by
    obtain rfl | rfl | rfl | rfl := hc <;> decide
  have hrest := not_mem_intercalate hamp (not_mem_restParams t port hc)
  simp only [target, addedQuery, peerParam, List.mem_append, List.mem_cons, not_or]
  constructor
  · rintro ⟨hpath, -, -, -, ⟨-, -, hpeer⟩, -⟩
    exact ⟨hpath, hpeer⟩
  · rintro ⟨hpath, hpeer⟩
    exact ⟨hpath, hnames.1, not_mem_infoParam hc, hamp, ⟨hnames.2.2, hnames.2.1, hpeer⟩, hamp,
      hrest⟩

theorem not_mem_requestLine_iff (hc : c ∈ crlf) :
    c ∉ requestLine url t peerId port ↔ c ∉ url.path ∧ c ∉ peerId := by
  have hforeign : ∀ c ∈ crlf,
      Foreign c ∧ c ≠ 38 ∧ c ≠ 32 ∧ c ∉ bytes "GET" ∧ c ∉ bytes "HTTP/1.1" :=
    forall_mem_crlf.mpr ⟨⟨.inr (.inl rfl), by decide⟩, .inr (.inr (.inl rfl)), by decide⟩
  obtain ⟨hforeign, hamp, hspace, hget, hversion⟩ := hforeign c hc
  rw [← not_mem_target_iff t port hforeign hamp]
  simp only [requestLine, List.mem_append, List.mem_cons, not_or]
  exact ⟨fun h => h.2.2.1, fun h => ⟨hget, hspace, h, hspace, hversion⟩⟩

theorem isLine_host_iff : IsLine (bytes "Host: " ++ url.host) ↔ ∀ c ∈ crlf, c ∉ url.host := by
  have hname : ∀ c ∈ crlf, c ∉ bytes "Host: " := forall_mem_crlf.mpr (by decide)
  rw [isLine_iff]
  constructor
  · intro h c hc hm
    exact h.2 c hc (List.mem_append_right _ hm)
  · intro h
    exact ⟨List.append_ne_nil_of_left_ne_nil (by decide) _, fun c hc hm =>
      (List.mem_append.mp hm).elim (hname c hc) (h c hc)⟩

/-- The lines are those the code writes if none of them is broken. -/
theorem readHeader_httpRequest_iff {line : Str} :
    readHeader (httpRequest url t peerId port) = some (line :: headerLines url, []) ↔
      line = requestLine url t peerId port ∧
        (∀ c ∈ crlf, c ∉ url.path ∧ c ∉ peerId) ∧ ∀ c ∈ crlf, c ∉ url.host := by
  have hagent : IsLine (bytes "User-Agent: BitTorrent/1.0") := ⟨by decide, by decide, by decide⟩
  have hclose : IsLine (bytes "Connection: Close") := ⟨by decide, by decide, by decide⟩
  have hne : requestLine url t peerId port ≠ [] :=
    List.append_ne_nil_of_right_ne_nil _ (List.cons_ne_nil _ _)
  rw [readHeader_eq_some_iff, httpRequest_eq]
  constructor
  · rintro ⟨htext, hlines⟩
    have hline := List.append_cancel_right htext
    rw [List.flatMap_cons, List.flatMap_cons] at hline
    obtain rfl := List.append_cancel_right (List.append_cancel_right hline)
    have hfirst := isLine_iff.mp (hlines _ List.mem_cons_self)
    have hhost := hlines _ (List.mem_cons_of_mem _ List.mem_cons_self)
    exact ⟨rfl, fun c hc => (not_mem_requestLine_iff hc).mp (hfirst.2 c hc),
      isLine_host_iff.mp hhost⟩
  · rintro ⟨rfl, hline, hhost⟩
    refine ⟨rfl, ?_⟩
    simp only [headerLines, List.forall_mem_cons]
    exact ⟨isLine_iff.mpr ⟨hne, fun c hc => (not_mem_requestLine_iff hc).mpr (hline c hc)⟩,
      isLine_host_iff.mpr hhost, hagent, hclose, fun _ h => absurd h List.not_mem_nil⟩

/-- The request line is split into the method, the target and the version if there is no other
space in it. -/
theorem splitOn_requestLine_iff {tgt : Str} :
    (requestLine url t peerId port).splitOn 32 = [bytes "GET", tgt, bytes "HTTP/1.1"] ↔
      tgt = target url t peerId port ∧ 32 ∉ url.path ∧ 32 ∉ peerId := by
  have hget : 32 ∉ bytes "GET" := by decide
  have hversion : 32 ∉ bytes "HTTP/1.1" := by decide
  have hsplit : (requestLine url t peerId port).splitOn 32 =
      bytes "GET" :: ((target url t peerId port).splitOn 32 ++ [bytes "HTTP/1.1"]) := by
    rw [requestLine, List.splitOn_append_cons_self_of_not_mem hget, List.splitOn_append_cons_self,
      List.splitOn_eq_singleton hversion]
  rw [hsplit, ← not_mem_target_iff t port (.inl rfl) (by decide)]
  constructor
  · intro h
    have hone : (target url t peerId port).splitOn 32 = [tgt] :=
      List.append_cancel_right ((List.cons.inj h).2)
    have hspace := not_mem_of_splitOn (congrArg List.length hone)
    rw [List.splitOn_eq_singleton hspace] at hone
    exact ⟨(List.cons.inj hone).1.symm, hspace⟩
  · rintro ⟨rfl, hspace⟩
    rw [List.splitOn_eq_singleton hspace]
    rfl

/-- The path and the parameters are read as what was meant if the URL has no query and the peer id
needs no encoding. -/
theorem params_target_iff :
    (∃ own, params (cut 63 url.path).2 = some own ∧
      (cut 63 (target url t peerId port)).1 = (cut 63 url.path).1 ∧
      params (cut 63 (target url t peerId port)).2 = some (own ++ addedParams t peerId port)) ↔
      63 ∉ url.path ∧ 38 ∉ peerId ∧ 37 ∉ peerId := by
  by_cases hmem : 63 ∈ url.path
  · obtain ⟨p, q, hpath, hp⟩ := List.eq_append_cons_of_mem hmem
    have htarget : target url t peerId port = p ++ 63 :: (q ++ 63 :: addedQuery t peerId port) := by
      rw [target, hpath, List.append_assoc, List.cons_append]
    constructor
    · rintro ⟨own, hown, -, hparams⟩
      rw [hpath, cut_append hp] at hown
      rw [htarget, cut_append hp] at hparams
      exact absurd hparams (params_append_ne hown)
    · exact fun h => absurd hmem h.1
  · have hcut : cut 63 (target url t peerId port) = (url.path, addedQuery t peerId port) :=
      cut_append hmem _
    rw [cut_of_not_mem hmem, hcut, ← params_addedQuery_iff t port]
    constructor
    · rintro ⟨own, hown, -, hparams⟩
      obtain rfl : own = [] := (Option.some.inj hown).symm
      exact ⟨hmem, hparams⟩
    · rintro ⟨-, hparams⟩
      exact ⟨[], rfl, rfl, hparams⟩

theorem spliceable_iff :
    Spliceable url peerId ↔
      ((∀ c ∈ crlf, c ∉ url.path ∧ c ∉ peerId) ∧ ∀ c ∈ crlf, c ∉ url.host) ∧
        (32 ∉ url.path ∧ 32 ∉ peerId) ∧ 63 ∉ url.path ∧ 38 ∉ peerId ∧ 37 ∉ peerId := by
  have hpath : bytes "? \r\n" = [63, 32, 13, 10] := rfl
  have hpeer : bytes " &%\r\n" = [32, 38, 37, 13, 10] := rfl
  have hend : bytes "\r\n" = crlf := rfl
  constructor
  · rintro ⟨h1, h2, h3⟩
    rw [hpath] at h1
    rw [hend] at h2
    rw [hpeer] at h3
    simp only [List.forall_mem_cons, crlf] at h1 h2 h3 ⊢
    tauto
  · rintro ⟨⟨h1, h2⟩, h3, h4⟩
    refine ⟨?_, hend ▸ h2, ?_⟩
    · rw [hpath]
      simp only [List.forall_mem_cons, crlf] at h1 ⊢
      tauto
    · rw [hpeer]
      simp only [List.forall_mem_cons, crlf] at h1 ⊢
      tauto

theorem spliceable_of_readsBack (h : ReadsBack url t peerId port) : Spliceable url peerId := by
  obtain ⟨own, hown, hread⟩ := h
  obtain ⟨line, tgt, hheader, hsplit, hpath, hparams⟩ := readRequest_eq_some_iff.mp hread
  obtain ⟨rfl, hclean⟩ := readHeader_httpRequest_iff.mp hheader
  obtain ⟨rfl, hspace⟩ := splitOn_requestLine_iff.mp hsplit
  exact spliceable_iff.mpr ⟨hclean, hspace, params_target_iff.mp ⟨own, hown, hpath, hparams⟩⟩

theorem readsBack_of_spliceable (h : Spliceable url peerId) : ReadsBack url t peerId port := by
  obtain ⟨hclean, hspace, hquery⟩ := spliceable_iff.mp h
  obtain ⟨own, hown, hpath, hparams⟩ := params_target_iff.mpr hquery
  exact ⟨own, hown, readRequest_eq_some_iff.mpr ⟨_, _,
    readHeader_httpRequest_iff.mpr ⟨rfl, hclean⟩, splitOn_requestLine_iff.mpr ⟨rfl, hspace⟩, hpath,
    hparams⟩⟩

/-- The request is read as what was meant if and only if URL and peer id can be written as they
are. -/
theorem readsBack_iff (url : Url) (t : TorrentFile) (peerId : Str) (port : Int32) :
    ReadsBack url t peerId port ↔ Spliceable url peerId :=
  ⟨spliceable_of_readsBack, readsBack_of_spliceable⟩

/-- A torrent of a tracker that asks for a key. -/
def keyed : TorrentFile := { wanted with announce := bytes "http://tracker/announce?passkey=abc" }

/-- The tracker finds the key `abc?info_hash=...`, and no info hash. -/
theorem not_readsBack_keyed :
    Url.parse keyed.announce =
        .ok ⟨bytes "http", bytes "tracker", 80, bytes "/announce?passkey=abc"⟩ ∧
      ¬ ReadsBack ⟨bytes "http", bytes "tracker", 80, bytes "/announce?passkey=abc"⟩ keyed
        (bytes "-BT1000-123456789012") 6881 :=
  ⟨rfl, fun h => (spliceable_of_readsBack h).path 63 (by decide) (by decide)⟩

end Tracker

end NodeLink
