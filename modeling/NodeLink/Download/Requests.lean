import NodeLink.Download.Candidates
import NodeLink.Download.Handout

/-!
# The requests of a run

`requests_sound` is what can be said of every `REQUEST` that any connection of a
download passes to `Send`, for a torrent whose digests match its length and
whose pieces are below `2 ^ 31` bytes, in runs with fewer than `2 ^ 31` calls of
`GetNextPieceToRequest`.

The log of a connection is where the statement reads off what was known when a
request went out: the frames before it say whether the connection was choked
(`chokedAfter`) and which pieces the peer has (`SawBit`).  `AskInv` ties this to
the state.  Of a piece that was taken once, the connection asks for the blocks
in order, so the requests for a piece are an initial part of its blocks.  That a
piece is taken once is what `Dealt` gives.
-/

namespace NodeLink

open Cpp Session

/-! ## Requests in the log -/

/-- What a `REQUEST` asks for. -/
structure Request where
  index : UInt32
  begin_ : UInt32
  length : UInt32
deriving DecidableEq, Repr

namespace Request

/-- The message. -/
def message (r : Request) : Buffer := Message.buildRequest r.index r.begin_ r.length

/-- The request for block `k` of piece `i`, which has `m` bytes. -/
def ofBlock (i : Int32) (m k : Nat) : Request :=
  ⟨i.toUInt32, UInt32.ofNat (blockBegin k), UInt32.ofNat (blockLen m k)⟩

/-- The place in the file where the bytes asked for start. -/
def start (t : TorrentFile) (r : Request) : Nat := r.index.toNat * t.pieceUnit + r.begin_.toNat

/-- The place in the file behind the bytes asked for. -/
def stop (t : TorrentFile) (r : Request) : Nat := r.start t + r.length.toNat

/-- No byte is asked for by both. -/
def Apart (t : TorrentFile) (r r' : Request) : Prop := r.stop t ≤ r'.start t ∨ r'.stop t ≤ r.start t

end Request

/-- The request an event sends. -/
def Event.asked? : Event → Option Request
  | .sent b =>
      let r : Request := ⟨wordAt b 5, wordAt b 9, wordAt b 13⟩
      if b = r.message then some r else none
  | _ => none

theorem asked?_eq_some {e : Event} {r : Request} : e.asked? = some r ↔ e = .sent r.message := by
  constructor
  · intro h
    cases e with
    | sent b =>
        simp only [Event.asked?] at h
        split at h
        next hb =>
          cases Option.some.inj h
          rw [← hb]
        next => cases h
    | handshake _ => cases h
    | keepAlive => cases h
    | frame _ _ => cases h
    | took _ => cases h
    | skipped _ => cases h
  · rintro rfl
    have hr : (⟨wordAt r.message 5, wordAt r.message 9, wordAt r.message 13⟩ : Request) = r := by
      obtain ⟨hi, hb, hl⟩ := wordAt_buildRequest r.index r.begin_ r.length
      rw [Request.message, hi, hb, hl]
    simp only [Event.asked?]
    rw [hr]
    exact if_pos rfl

theorem asked?_interested : (Event.sent Message.buildInterested).asked? = none := rfl

theorem asked?_handshake (t : TorrentFile) (id : Str) :
    (Event.sent (Message.buildHandshake t id)).asked? = none := by
  cases h : (Event.sent (Message.buildHandshake t id)).asked? with
  | none => rfl
  | some r =>
      have hb : Message.buildHandshake t id = r.message := Event.sent.inj (asked?_eq_some.mp h)
      have h19 : (Message.buildHandshake t id).head? = some 19 := rfl
      have h0 : r.message.head? = some 0 := rfl
      rw [hb, h0] at h19
      cases h19

/-- The requests of a log, in order. -/
def asked (log : List Event) : List Request := log.filterMap Event.asked?

/-- The requests for piece `i`, in order. -/
def askedFor (log : List Event) (i : Int32) : List Request :=
  (asked log).filter (·.index = i.toUInt32)

theorem asked_append (log log' : List Event) : asked (log ++ log') = asked log ++ asked log' :=
  List.filterMap_append

theorem mem_asked {log : List Event} {r : Request} : r ∈ asked log ↔ .sent r.message ∈ log := by
  simp only [asked, List.mem_filterMap, asked?_eq_some]
  constructor
  · rintro ⟨e, he, rfl⟩
    exact he
  · intro h
    exact ⟨_, h, rfl⟩

theorem asked_concat_none {log : List Event} {e : Event} (h : e.asked? = none) :
    asked (log ++ [e]) = asked log := by
  rw [asked_append, asked, asked, List.filterMap_cons_none h, List.filterMap_nil, List.append_nil]

theorem asked_concat_sent (log : List Event) (r : Request) :
    asked (log ++ [.sent r.message]) = asked log ++ [r] := by
  rw [asked_append]
  exact congrArg (asked log ++ ·) (List.filterMap_cons_some (asked?_eq_some.mpr rfl))

theorem askedFor_concat_sent (log : List Event) (r : Request) (i : Int32) :
    askedFor (log ++ [.sent r.message]) i =
      askedFor log i ++ if r.index = i.toUInt32 then [r] else [] := by
  simp only [askedFor, asked_concat_sent, List.filter_append, List.filter_cons, List.filter_nil,
    decide_eq_true_eq]

/-! ## The choke flag in the log -/

/-- What an event makes of the flag. -/
def Event.choking : Event → Bool → Bool
  | .frame id _, b => if id = Message.unchoke then false else if id = Message.choke then true else b
  | _, b => b

/-- Whether the connection is choked after these events: what the last `CHOKE` or `UNCHOKE` said. -/
def chokedAfter (log : List Event) : Bool := log.foldl (fun b e => e.choking b) true

theorem chokedAfter_concat (log : List Event) (e : Event) :
    chokedAfter (log ++ [e]) = e.choking (chokedAfter log) := by
  simp only [chokedAfter, List.foldl_append, List.foldl_cons, List.foldl_nil]

/-! ## The invariant of a connection -/

variable {t : TorrentFile} {c c' : Connection} {s s' : Session} {log : List Event} {e : Event}
  {i : Int32} {k : Nat}

/-- The length of piece `i`. -/
def bytesOf (t : TorrentFile) (i : Int32) : Nat := t.lengthOfPiece i.toInt.toNat

/-- The requests for the first `k` blocks of piece `i`. -/
def firstBlocks (t : TorrentFile) (i : Int32) (k : Nat) : List Request :=
  (List.range k).map (Request.ofBlock i (bytesOf t i))

theorem firstBlocks_succ (t : TorrentFile) (i : Int32) (k : Nat) :
    firstBlocks t i (k + 1) = firstBlocks t i k ++ [Request.ofBlock i (bytesOf t i) k] := by
  simp only [firstBlocks, List.range_succ, List.map_append, List.map_cons, List.map_nil]

/-- What is known of a request from the events before it. -/
structure Allowed (t : TorrentFile) (pre : List Event) (r : Request) : Prop where
  unchoked : chokedAfter pre = false
  inRange : t.InRange r.index.toInt32.toInt
  took : .took r.index.toInt32 ∈ pre
  has : SawBit pre r.index.toInt32

/-- The requests of a connection, and what they have to do with its state. -/
structure AskInv (t : TorrentFile) (c : Connection) : Prop where
  bits : BitsInv t c
  choked : c.choked = chokedAfter c.log
  current : c.currentPiece ≠ -1 →
    t.InRange c.currentPiece.toInt ∧ .took c.currentPiece ∈ c.log ∧ SawBit c.log c.currentPiece
  allowed : ∀ pre r post, c.log = pre ++ .sent r.message :: post → Allowed t pre r
  offset : c.socket = true → c.currentPiece ≠ -1 →
    ∃ k < blockCount (bytesOf t c.currentPiece), c.blockOffset.toInt = blockBegin k ∧
      ((tookPieces c.log).Nodup → askedFor c.log c.currentPiece = firstBlocks t c.currentPiece k)
  blocks : (tookPieces c.log).Nodup → ∀ i, t.InRange i.toInt →
    ∃ k ≤ blockCount (bytesOf t i), askedFor c.log i = firstBlocks t i k

theorem askInv_init (t : TorrentFile) : AskInv t .init where
  bits := (handoutInv_init t).1
  choked := rfl
  current h := absurd rfl h
  allowed pre r post h := absurd h.symm (by simp [Connection.init])
  offset _ h := absurd rfl h
  blocks _ i _ := ⟨0, Nat.zero_le _, rfl⟩

theorem SawBit.mono {log' : List Event} (h : SawBit log i) (hl : log ⊆ log') : SawBit log' i := by
  obtain ⟨payload, hm, hb⟩ := h
  exact ⟨payload, hl hm, hb⟩

theorem nodup_of_concat (h : (tookPieces (log ++ [e])).Nodup) : (tookPieces log).Nodup := by
  rw [tookPieces_append] at h
  exact h.of_append_left

/-- One more event: only a request needs to be looked at. -/
theorem AskInv.allowed_concat (h : AskInv t c)
    (he : ∀ r, e = .sent r.message → Allowed t c.log r) (pre : List Event) (r : Request)
    (post : List Event) (hl : c.log ++ [e] = pre ++ .sent r.message :: post) : Allowed t pre r := by
  rcases split_concat hl with ⟨rfl, hr, -⟩ | ⟨post', -, hl⟩
  · exact he r hr
  · exact h.allowed pre r post' hl

/-- Only pieces that were taken are asked for. -/
theorem AskInv.askedFor_of_not_took (h : AskInv t c) (hi : .took i ∉ c.log) :
    askedFor c.log i = [] := by
  refine List.filter_eq_nil_iff.mpr fun r hr heq => hi ?_
  obtain ⟨pre, post, hl⟩ := List.append_of_mem (mem_asked.mp hr)
  have htook := (h.allowed pre r post hl).took
  have hidx : r.index.toInt32 = i := by
    rw [of_decide_eq_true heq, Int32.toInt32_toUInt32]
  rw [hidx] at htook
  rw [hl]
  exact List.mem_append_left _ htook

/-- One more event that is no request, with the same current piece. -/
theorem AskInv.quiet (h : AskInv t c) (hask : e.asked? = none) (hl : c'.log = c.log ++ [e])
    (hb : BitsInv t c') (hch : c'.choked = e.choking c.choked)
    (hcur : c'.currentPiece = c.currentPiece) (ho : c'.blockOffset = c.blockOffset)
    (hs : c'.socket = true → c.socket = true) : AskInv t c' where
  bits := hb
  choked := by rw [hch, hl, chokedAfter_concat, h.choked]
  current hne := by
    rw [hcur] at hne ⊢
    obtain ⟨hin, htk, hsaw⟩ := h.current hne
    rw [hl]
    exact ⟨hin, List.mem_append_left _ htk, hsaw.mono (List.subset_append_left _ _)⟩
  allowed := by
    rw [hl]
    refine h.allowed_concat fun r he => ?_
    rw [asked?_eq_some.mpr he] at hask
    cases hask
  offset hsock hne := by
    rw [hcur] at hne ⊢
    obtain ⟨k, hk, hoff, hasked⟩ := h.offset (hs hsock) hne
    refine ⟨k, hk, ho ▸ hoff, fun hnd => ?_⟩
    rw [hl] at hnd ⊢
    rw [askedFor, asked_concat_none hask]
    exact hasked (nodup_of_concat hnd)
  blocks hnd i hin := by
    rw [hl] at hnd ⊢
    rw [askedFor, asked_concat_none hask]
    exact h.blocks (nodup_of_concat hnd) i hin

theorem AskInv.close (h : AskInv t c) : AskInv t c.close where
  bits := h.bits.congr rfl rfl
  choked := h.choked
  current := h.current
  allowed := h.allowed
  offset hs := absurd hs Bool.false_ne_true
  blocks := h.blocks

theorem AskInv.buffer (h : AskInv t c) (b : Buffer) : AskInv t { c with recvBuffer := b } where
  bits := h.bits.congr rfl rfl
  choked := h.choked
  current := h.current
  allowed := h.allowed
  offset := h.offset
  blocks := h.blocks

/-! ## The search -/

section Pieces

variable (ht : t.Consistent) (hp : t.pieceLength.toInt < 2 ^ 31)

include ht in
theorem bytesOf_eq (hi : t.InRange i.toInt) :
    ∃ n, t.pieceLen i.toInt = .ok n ∧ n.toInt = bytesOf t i ∧ 0 < bytesOf t i ∧
      bytesOf t i ≤ t.pieceUnit := by
  have hk : i.toInt.toNat < t.pieceHashes.length := by
    have h1 := hi.1
    have h2 := hi.2
    omega
  have hcast : ((i.toInt.toNat : Nat) : Int) = i.toInt := Int.toNat_of_nonneg hi.1
  obtain ⟨n, hn, hv⟩ := ht.pieceLen_eq hk
  rw [hcast] at hn
  have hlen := ht.lengthOfPiece_eq hk
  refine ⟨n, hn, by rw [hv, bytesOf, hlen], ?_, ?_⟩
  · rw [bytesOf, hlen]
    exact Tiling.size_pos ht.pieceUnit_pos (ht.count_eq ▸ hk)
  · rw [bytesOf, hlen]
    exact Tiling.size_le

include ht in
/-- A piece the peer has is taken. -/
theorem AskInv.take (h : AskInv t s.conn) (hhas : s.conn.hasPiece i = true) : AskInv t (s.take i).conn := by
  obtain ⟨hin, hsaw⟩ := (h.bits.pieces i).mp hhas
  obtain ⟨-, -, -, hpos, -⟩ := bytesOf_eq ht hin
  have hasked : ∀ j, askedFor (s.conn.log ++ [.took i]) j = askedFor s.conn.log j := fun j => by
    rw [askedFor, asked_concat_none rfl, askedFor]
  refine ⟨h.bits.plain (e := .took i) trivial rfl rfl, ?_, fun _ => ?_, ?_, fun _ _ => ?_, ?_⟩
  · change s.conn.choked = chokedAfter (s.conn.log ++ [.took i])
    rw [chokedAfter_concat, h.choked]
    rfl
  · exact ⟨hin, List.mem_append_right _ (List.mem_singleton_self _),
      hsaw.mono (List.subset_append_left _ _)⟩
  · exact h.allowed_concat fun r he => Event.noConfusion he
  · refine ⟨0, blockBegin_lt_iff.mp hpos, rfl, fun hnd => ?_⟩
    change askedFor (s.conn.log ++ [.took i]) i = []
    rw [hasked]
    refine h.askedFor_of_not_took fun hm => ?_
    have hnd : (tookPieces (s.conn.log ++ [.took i])).Nodup := hnd
    rw [tookPieces_append] at hnd
    exact List.disjoint_of_nodup_append hnd (mem_tookPieces.mpr hm) (List.mem_singleton_self i)
  · intro hnd j hj
    have hnd : (tookPieces (s.conn.log ++ [.took i])).Nodup := hnd
    change ∃ k ≤ _, askedFor (s.conn.log ++ [.took i]) j = _
    rw [hasked]
    exact h.blocks (nodup_of_concat hnd) j hj

include ht in
theorem askInv_search {found : Bool} (hs : Search s found s') (hdl : s.dl.torrent = t)
    (h : AskInv t s.conn) : AskInv t s'.conn := by
  have hskip : ∀ {s : Session}, s.dl.torrent = t → AskInv t s.conn → s.nextCandidate.1 ≠ -1 →
      s.nextCandidate.2.conn.hasPiece s.nextCandidate.1 = false →
      AskInv t (s.nextCandidate.2.skip s.nextCandidate.1).conn := by
    intro s hdl h hne hno
    have hin := nextCandidate_inRange hne
    rw [hdl] at hin
    exact h.quiet (e := .skipped s.nextCandidate.1) rfl rfl
      (bitsInv_skip (s := s.nextCandidate.2) h.bits hin hno) rfl rfl rfl id
  induction hs with
  | ended _ => exact h
  | @hit s _ hhas => exact AskInv.take (s := s.nextCandidate.2) ht h hhas
  | gaveUp hne hno => exact hskip hdl h hne hno
  | @miss s _ _ hne hno _ ih =>
      exact ih ((nextCandidate_frame s).torrent.trans hdl) (hskip hdl h hne hno)

/-! ## The request -/

omit ht hp

/-- The request for the next block of the current piece goes out. -/
theorem AskInv.ask (h : AskInv t c) (hne : c.currentPiece ≠ -1) (hch : c.choked = false)
    (hk : k < blockCount (bytesOf t c.currentPiece))
    (hasked : (tookPieces c.log).Nodup → askedFor c.log c.currentPiece = firstBlocks t c.currentPiece k)
    (hl : c'.log = c.log ++ [.sent (Request.ofBlock c.currentPiece (bytesOf t c.currentPiece) k).message])
    (hpp : c'.peerPieces = c.peerPieces) (hch' : c'.choked = c.choked)
    (hcur : c'.currentPiece = -1 ∨ c'.currentPiece = c.currentPiece)
    (ho : c'.socket = true → c'.currentPiece ≠ -1 →
      k + 1 < blockCount (bytesOf t c.currentPiece) ∧ c'.blockOffset.toInt = blockBegin (k + 1)) :
    AskInv t c' := by
  obtain ⟨hin, htk, hsaw⟩ := h.current hne
  generalize hr : Request.ofBlock c.currentPiece (bytesOf t c.currentPiece) k = r at hl
  have hidx : r.index = c.currentPiece.toUInt32 := by rw [← hr]; rfl
  have hi32 : r.index.toInt32 = c.currentPiece := by rw [hidx, Int32.toInt32_toUInt32]
  have htook : tookPieces c'.log = tookPieces c.log := by
    rw [hl, tookPieces_append]
    exact List.append_nil _
  have hnext : (tookPieces c.log).Nodup →
      askedFor c'.log c.currentPiece = firstBlocks t c.currentPiece (k + 1) := by
    intro hnd
    rw [hl, askedFor_concat_sent, if_pos hidx, hasked hnd, firstBlocks_succ, hr]
  refine ⟨h.bits.plain (e := .sent r.message) trivial hpp hl, ?_, fun hne' => ?_, ?_,
    fun hs hne' => ?_, fun hnd i hi => ?_⟩
  · rw [hch', hl, chokedAfter_concat, h.choked]
    rfl
  · rw [hcur.resolve_left hne', hl]
    exact ⟨hin, List.mem_append_left _ htk, hsaw.mono (List.subset_append_left _ _)⟩
  · rw [hl]
    refine h.allowed_concat fun r' hr' => ?_
    have hrr : r' = r := by
      have h1 := asked?_eq_some.mpr hr'
      rw [asked?_eq_some.mpr rfl] at h1
      exact (Option.some.inj h1).symm
    subst hrr
    exact ⟨h.choked ▸ hch, hi32.symm ▸ hin, hi32.symm ▸ htk, hi32.symm ▸ hsaw⟩
  · obtain ⟨hk', hoff⟩ := ho hs hne'
    rw [hcur.resolve_left hne', htook]
    exact ⟨k + 1, hk', hoff, hnext⟩
  · rw [htook] at hnd
    by_cases hic : i = c.currentPiece
    · subst hic
      exact ⟨k + 1, hk, hnext hnd⟩
    · obtain ⟨k', hk', hasked'⟩ := h.blocks hnd i hi
      have hne' : r.index ≠ i.toUInt32 := fun heq => hic <| by
        rw [← hi32, heq, Int32.toInt32_toUInt32]
      refine ⟨k', hk', ?_⟩
      rw [hl, askedFor_concat_sent, if_neg hne', List.append_nil, hasked']

/-- A call that returns keeps the invariant, and so does one that throws, once the socket is gone. -/
def Keeps (t : TorrentFile) : Outcome Exn Fault Session → Prop
  | .ok s => AskInv t s.conn
  | .throw _ s => AskInv t s.conn.close
  | .fault _ => True

theorem keeps_of_state {o : Outcome Exn Fault Session}
    (h : ∀ s', o.state? = some s' → Keeps t o) : Keeps t o := by
  cases o with
  | ok s' => exact h s' rfl
  | throw e s' => exact h s' rfl
  | fault f => trivial

include ht hp in
theorem keeps_requestBlock (h : AskInv t s.conn) (hdl : s.dl.torrent = t)
    (hopen : s.conn.socket = true) (hch : s.conn.choked = false) (hne : s.conn.currentPiece ≠ -1) :
    Keeps t s.requestBlock := by
  refine keeps_of_state fun s' hs => ?_
  obtain ⟨hin, -⟩ := h.current hne
  obtain ⟨n, hn, hv, -, hle⟩ := bytesOf_eq ht hin
  have hunit := ht.pieceUnit_eq
  obtain ⟨k, hk, hoff, hasked⟩ := h.offset hopen hne
  have hlt := blockBegin_lt_iff.mpr hk
  have hsmall : bytesOf t s.conn.currentPiece < 2 ^ 31 := by omega
  have hreq : s.request n = (Request.ofBlock s.conn.currentPiece
      (bytesOf t s.conn.currentPiece) k).message := request_eq hv hsmall hoff hlt
  obtain ⟨n', hn', hcases⟩ := requestBlock_cases hs
  rw [hdl, hn] at hn'
  cases hn'
  rcases hcases with ⟨hge, -⟩ | ⟨-, ho, rfl⟩ | ⟨-, e, ho, rfl⟩
  · omega
  · rw [ho, requested_eq hv hsmall hoff hlt]
    have hend := blockEnd_eq hlt
    have hstop := blockEnd_le hlt
    by_cases hlast : k + 1 = blockCount (bytesOf t s.conn.currentPiece)
    · have hc : (s.requested (bytesOf t s.conn.currentPiece) k).conn.currentPiece = -1 :=
        if_pos hlast
      exact h.ask hne hch hk hasked rfl rfl rfl (.inl hc) fun _ hne' => absurd hc hne'
    · have hc : (s.requested (bytesOf t s.conn.currentPiece) k).conn.currentPiece =
        s.conn.currentPiece := if_neg hlast
      rw [if_neg hlast] at hend
      refine h.ask hne hch hk hasked rfl rfl rfl (.inr hc) fun _ _ => ⟨by omega, ?_⟩
      change (Int32.ofNat (blockBegin k + blockLen _ k)).toInt = _
      rw [hend, toInt_ofNat (by omega)]
  · rw [ho]
    exact h.ask hne hch hk hasked (congrArg (fun b => s.conn.log ++ [.sent b]) hreq) rfl rfl
      (.inr rfl) fun hs => absurd hs Bool.false_ne_true

include ht hp in
theorem keeps_requestNextBlock (h : AskInv t s.conn) (hdl : s.dl.torrent = t)
    (hopen : s.conn.socket = true) : Keeps t s.requestNextBlock := by
  refine keeps_of_state fun s' hs => ?_
  rcases requestNextBlock_cases hs with
      ⟨-, ho, rfl⟩ | ⟨-, hcur, ho, hsearch⟩ | ⟨hch, s1, hs1, ho, -⟩
  · rw [ho]
    exact h
  · rw [ho]
    exact askInv_search ht hsearch hdl h
  · rw [ho]
    rcases hs1 with ⟨hne, rfl⟩ | ⟨hcur, hsearch⟩
    · exact keeps_requestBlock ht hp h hdl hopen hch hne
    · have hf := search_frame hsearch
      exact keeps_requestBlock ht hp (askInv_search ht hsearch hdl h) (hf.torrent.trans hdl)
        (hf.socket.trans hopen) (hf.choked.trans hch) (search_found hsearch)

/-! ## The messages -/

include ht hp in
theorem keeps_dispatch {id : UInt8} {payload rest : Buffer} (h : AskInv t s.conn)
    (hdl : s.dl.torrent = t) (hopen : s.conn.socket = true) :
    Keeps t ((s.framed id payload rest).dispatch id payload) := by
  -- the frame alone, for an id that leaves the choke flag and the bits as they are
  have hquiet : id ≠ Message.bitfield → id ≠ Message.unchoke → id ≠ Message.choke →
      AskInv t (s.framed id payload rest).conn := by
    intro h1 h2 h3
    refine h.quiet (e := .frame id payload) rfl rfl (h.bits.plain (e := .frame id payload) h1 rfl rfl)
      ?_ rfl rfl fun hs => hs
    rw [Event.choking, if_neg h2, if_neg h3]
    rfl
  have hunchoke : Message.unchoke ≠ Message.bitfield := by decide
  have hchoke : Message.choke ≠ Message.bitfield := by decide
  rcases dispatch_cases (s.framed id payload rest) id payload with
      ⟨rfl, hd⟩ | ⟨rfl, hd⟩ | ⟨rfl, hd⟩ | ⟨rfl, hd⟩ | ⟨h1, h2, h3, -, hd⟩ <;> rw [hd]
  · have hu : AskInv t (s.framed Message.unchoke payload rest).unchoked.conn :=
      h.quiet (e := .frame Message.unchoke payload) rfl rfl
        (h.bits.plain (e := .frame Message.unchoke payload) hunchoke rfl rfl) rfl rfl rfl fun hs => hs
    exact keeps_requestNextBlock ht hp hu hdl hopen
  · exact h.quiet (e := .frame Message.bitfield payload) rfl rfl (bitsInv_marked hdl h.bits) rfl rfl
      rfl fun hs => hs
  · exact h.quiet (e := .frame Message.choke payload) rfl rfl
      (h.bits.plain (e := .frame Message.choke payload) hchoke rfl rfl) rfl rfl rfl fun hs => hs
  · have hf := hquiet (by decide) (by decide) (by decide)
    refine keeps_of_state fun s' hs => ?_
    rcases onPiece_cases hs with ⟨-, rfl, e, ho⟩ | ⟨-, d, hrec, ⟨e, -, ho, rfl⟩ | ⟨-, ho, -⟩⟩
    · rw [ho]
      exact hf.close
    · rw [ho]
      exact AskInv.close (c := (s.framed Message.piece payload rest).conn) hf
    · rw [ho]
      exact keeps_requestNextBlock (s := (s.framed Message.piece payload rest).delivered d) ht hp hf
        ((delivered_frame hrec).torrent.trans hdl) hopen
  · exact hquiet h2 h1 h3

include ht hp in
theorem keeps_pass {o : Outcome Exn Fault Session} (h : AskInv t s.conn) (hdl : s.dl.torrent = t)
    (hopen : s.conn.socket = true) (hpass : s.pass = some o) : Keeps t o := by
  rcases pass_cases s with
      ⟨hp', -⟩ | ⟨hs, rest, -, -, -, hp'⟩ | ⟨rest, -, -, hp'⟩ | ⟨id, payload, rest, -, -, -, hp'⟩ |
      ⟨-, hp'⟩ <;> rw [hp'] at hpass <;> cases hpass
  · have h1 : AskInv t (s.shaken hs rest).conn :=
      h.quiet (e := .handshake hs) rfl rfl (h.bits.plain (e := .handshake hs) trivial rfl rfl) rfl rfl
        rfl fun hs => hs
    have h2 : AskInv t ((s.shaken hs rest).sending Message.buildInterested).conn :=
      h1.quiet (e := .sent _) asked?_interested rfl (h1.bits.plain (e := .sent _) trivial rfl rfl) rfl
        rfl rfl fun hs => hs
    rcases send_cases (s.shaken hs rest) Message.buildInterested with ho | ⟨e, ho⟩ <;> rw [ho]
    · exact h2
    · exact h2.close
  · exact h.quiet (e := .keepAlive) rfl rfl (h.bits.plain (e := .keepAlive) trivial rfl rfl) rfl rfl
      rfl fun hs => hs
  · exact keeps_dispatch ht hp h hdl hopen
  · trivial

include ht hp in
/-- Everything that happens to an open connection keeps the invariant. -/
theorem askInv_open : Swarm.OpenInvariant t (AskInv t) where
  pass hdl hopen h hpass := keeps_pass ht hp h hdl hopen hpass
  thrown hdl hopen h hpass := keeps_pass ht hp h hdl hopen hpass
  shook _ _ h _ := h.quiet (e := .sent _) (asked?_handshake _ _) rfl
    (h.bits.plain (e := .sent _) trivial rfl rfl) rfl rfl rfl fun hs => hs
  unsent _ _ h _ := h.quiet (e := .sent _) (asked?_handshake _ _) rfl
    (h.bits.plain (e := .sent _) trivial rfl rfl) rfl rfl rfl fun hs => absurd hs Bool.false_ne_true
  append b _ h := h.buffer b
  closed _ h := h.close

/-! ## What the requests are -/

omit ht hp

/-- The start of the first values of a function. -/
theorem map_range_eq_append {α : Type*} {f : Nat → α} {k : Nat} {as bs : List α} {a : α}
    (h : (List.range k).map f = as ++ a :: bs) :
    as.length < k ∧ as = (List.range as.length).map f ∧ a = f as.length := by
  have hlen := congrArg List.length h
  simp only [List.length_map, List.length_range, List.length_append, List.length_cons] at hlen
  refine ⟨by omega, ?_, ?_⟩
  · have htake := congrArg (List.take as.length) h
    rw [List.take_left, ← List.map_take, List.take_range, Nat.min_eq_left (by omega)] at htake
    exact htake.symm
  · have hget := congrArg (fun l => l[as.length]?) h
    simp only [List.getElem?_append_right (Nat.le_refl _), Nat.sub_self, List.getElem?_cons_zero,
      List.getElem?_map, List.getElem?_range (show as.length < k by omega), Option.map_some] at hget
    exact (Option.some.inj hget).symm

/-- Where the last request for a piece ended, 0 if there is none. -/
def lastEnd (rs : List Request) (index : UInt32) : Nat :=
  match (rs.filter (·.index = index)).getLast? with
  | none => 0
  | some r => r.begin_.toNat + r.length.toNat

/-- What every request is, from the events before it. -/
structure RequestSound (t : TorrentFile) (pre : List Event) (r : Request) : Prop where
  index_lt : r.index.toNat < t.pieceHashes.length
  unchoked : chokedAfter pre = false
  has : ∃ payload, .frame Message.bitfield payload ∈ pre ∧
    Connection.BitSet payload r.index.toNat
  length_pos : 1 ≤ r.length.toNat
  length_le : r.length.toNat ≤ 16384
  end_le : r.begin_.toNat + r.length.toNat ≤ t.lengthOfPiece r.index.toNat
  follows : r.begin_.toNat = lastEnd (asked pre) r.index

/-- An index that is an index of a piece as `int` is the same number. -/
theorem toNat_of_inRange {x : UInt32} (h : t.InRange x.toInt32.toInt) :
    x.toInt32.toInt.toNat = x.toNat := by
  have h0 : 0 ≤ x.toInt32.toInt := h.1
  have hlt := x.toNat_lt
  have hx := toInt_toInt32 x
  split at hx <;> omega

section Words

variable {m : Nat} (hm : m < 2 ^ 31) (hk : k < blockCount m)

include hm hk

theorem ofBlock_begin : (Request.ofBlock i m k).begin_.toNat = blockBegin k := by
  have := blockBegin_lt_iff.mpr hk
  have hsize : UInt32.size = 2 ^ 32 := rfl
  exact UInt32.toNat_ofNat_of_lt' (by omega)

theorem ofBlock_length : (Request.ofBlock i m k).length.toNat = blockLen m k := by
  have := blockEnd_le (blockBegin_lt_iff.mpr hk)
  have hsize : UInt32.size = 2 ^ 32 := rfl
  exact UInt32.toNat_ofNat_of_lt' (by omega)

end Words

/-- A block begins where the one before it ended. -/
theorem lastEnd_firstBlocks {rs : List Request} (hm : bytesOf t i < 2 ^ 31)
    (hk : k < blockCount (bytesOf t i))
    (hrs : rs.filter (·.index = i.toUInt32) = firstBlocks t i k) :
    lastEnd rs i.toUInt32 = blockBegin k := by
  rw [lastEnd, hrs]
  cases k with
  | zero => rfl
  | succ k =>
      have hk' : k < blockCount (bytesOf t i) := by omega
      have hend := blockEnd_eq (blockBegin_lt_iff.mpr hk')
      rw [if_neg (by omega)] at hend
      rw [firstBlocks_succ, List.getLast?_append, List.getLast?_singleton]
      change (Request.ofBlock i _ k).begin_.toNat + (Request.ofBlock i _ k).length.toNat = _
      rw [ofBlock_begin hm hk', ofBlock_length hm hk', hend]

include ht hp in
theorem AskInv.requestSound (h : AskInv t c) (hnd : (tookPieces c.log).Nodup) {pre post : List Event}
    {r : Request} (hl : c.log = pre ++ .sent r.message :: post) : RequestSound t pre r := by
  have hal := h.allowed pre r post hl
  have hidx := toNat_of_inRange hal.inRange
  generalize hi : r.index.toInt32 = i at hidx
  have hri : r.index = i.toUInt32 := by rw [← hi, UInt32.toUInt32_toInt32]
  have hin : t.InRange i.toInt := hi ▸ hal.inRange
  obtain ⟨n, -, -, hpos, hle⟩ := bytesOf_eq ht hin
  have hunit := ht.pieceUnit_eq
  have hm : bytesOf t i < 2 ^ 31 := by omega
  obtain ⟨k, hk, hasked⟩ := h.blocks hnd i hin
  have hsplit : askedFor c.log i = askedFor pre i ++ r :: askedFor post i := by
    rw [hl, ← List.singleton_append, ← List.append_assoc, askedFor, asked_append, List.filter_append,
      ← askedFor, ← askedFor, askedFor_concat_sent, if_pos hri, List.append_assoc,
      List.singleton_append]
  rw [hsplit] at hasked
  obtain ⟨hlt, hpre, hr⟩ := map_range_eq_append hasked.symm
  generalize (askedFor pre i).length = j at hlt hpre hr
  have hj : j < blockCount (bytesOf t i) := by omega
  have hbegin : r.begin_.toNat = blockBegin j := by rw [hr, ofBlock_begin hm hj]
  have hlength : r.length.toNat = blockLen (bytesOf t i) j := by rw [hr, ofBlock_length hm hj]
  refine ⟨?_, hal.unchoked, ?_, ?_, ?_, ?_, ?_⟩
  · have := hin.1
    have := hin.2
    omega
  · rw [← hidx]
    exact hi ▸ hal.has
  · rw [hlength]
    exact Tiling.size_pos blockUnit_pos hj
  · rw [hlength]
    exact Tiling.size_le
  · rw [hbegin, hlength, ← hidx]
    exact blockEnd_le (blockBegin_lt_iff.mpr hj)
  · rw [hbegin, hri]
    exact (lastEnd_firstBlocks hm hj hpre).symm

/-! ## No byte is asked for twice -/

theorem firstBlocks_apart (hm : bytesOf t i < 2 ^ 31) (hk : k ≤ blockCount (bytesOf t i)) :
    (firstBlocks t i k).Pairwise (Request.Apart t) := by
  refine List.pairwise_map.mpr (List.pairwise_lt_range.imp_of_mem fun {a b} ha hb hab => .inl ?_)
  have hbegin : blockBegin a + blockUnit ≤ blockBegin b := by
    have := Nat.mul_le_mul_right blockUnit (Nat.succ_le_of_lt hab)
    rwa [Nat.succ_mul] at this
  have hlen : blockLen (bytesOf t i) a ≤ blockUnit := Tiling.size_le
  have ha' := List.mem_range.mp ha
  have hb' := List.mem_range.mp hb
  simp only [Request.stop, Request.start]
  rw [ofBlock_begin hm (by omega), ofBlock_begin hm (by omega), ofBlock_length hm (by omega)]
  change _ * _ + _ + _ ≤ (Int32.toUInt32 i).toNat * _ + _
  change (Int32.toUInt32 i).toNat * _ + _ + _ ≤ _
  omega

/-- Requests that stay inside different pieces. -/
theorem apart_of_index_ne {r r' : Request} (h : r.index ≠ r'.index)
    (hr : r.begin_.toNat + r.length.toNat ≤ t.pieceUnit)
    (hr' : r'.begin_.toNat + r'.length.toNat ≤ t.pieceUnit) : r.Apart t r' := by
  have hne : r.index.toNat ≠ r'.index.toNat := fun he => h (UInt32.toNat_inj.mp he)
  simp only [Request.Apart, Request.stop, Request.start]
  rcases Nat.lt_or_gt_of_ne hne with hlt | hlt
  · have := Nat.mul_le_mul_right t.pieceUnit (Nat.succ_le_of_lt hlt)
    rw [Nat.succ_mul] at this
    exact .inl (by omega)
  · have := Nat.mul_le_mul_right t.pieceUnit (Nat.succ_le_of_lt hlt)
    rw [Nat.succ_mul] at this
    exact .inr (by omega)

/-- A relation between the entries of a list holds if it does between those of one key and between
those of different keys. -/
theorem pairwise_of_keys {α κ : Type*} [DecidableEq κ] {R : α → α → Prop} {l : List α} (key : α → κ)
    (hsame : ∀ x ∈ l, (l.filter (key · = key x)).Pairwise R)
    (hne : ∀ x ∈ l, ∀ y ∈ l, key x ≠ key y → R x y) : l.Pairwise R := by
  induction l with
  | nil => exact .nil
  | cons a l ih =>
      refine List.pairwise_cons.mpr ⟨fun b hb => ?_, ih (fun x hx => ?_) fun x hx y hy => ?_⟩
      · by_cases hkey : key b = key a
        · have h := hsame a (List.mem_cons_self ..)
          rw [List.filter_cons_of_pos (by simp)] at h
          exact (List.pairwise_cons.mp h).1 b (List.mem_filter.mpr ⟨hb, by simpa using hkey⟩)
        · exact hne a (List.mem_cons_self ..) b (List.mem_cons_of_mem _ hb) fun he => hkey he.symm
      · exact (hsame x (List.mem_cons_of_mem _ hx)).sublist ((List.sublist_cons_self a l).filter _)
      · exact hne x (List.mem_cons_of_mem _ hx) y (List.mem_cons_of_mem _ hy)

include ht hp

theorem AskInv.inside (h : AskInv t c) (hnd : (tookPieces c.log).Nodup) {r : Request}
    (hr : r ∈ asked c.log) : r.begin_.toNat + r.length.toNat ≤ t.pieceUnit := by
  obtain ⟨pre, post, hl⟩ := List.append_of_mem (mem_asked.mp hr)
  have hsound := h.requestSound ht hp hnd hl
  have hlen := ht.lengthOfPiece_eq hsound.index_lt
  have hle : Tiling.size t.size t.pieceUnit r.index.toNat ≤ t.pieceUnit := Tiling.size_le
  have := hsound.end_le
  omega

theorem AskInv.asked_apart (h : AskInv t c) (hnd : (tookPieces c.log).Nodup) :
    (asked c.log).Pairwise (Request.Apart t) := by
  refine pairwise_of_keys Request.index (fun r hr => ?_) fun r hr r' hr' hne =>
    apart_of_index_ne hne (h.inside ht hp hnd hr) (h.inside ht hp hnd hr')
  obtain ⟨pre, post, hl⟩ := List.append_of_mem (mem_asked.mp hr)
  have hin := (h.allowed pre r post hl).inRange
  obtain ⟨n, -, -, -, hle⟩ := bytesOf_eq ht hin
  have hunit := ht.pieceUnit_eq
  obtain ⟨k, hk, hasked⟩ := h.blocks hnd _ hin
  rw [askedFor, UInt32.toUInt32_toInt32] at hasked
  rw [hasked]
  exact firstBlocks_apart (by omega) hk

end Pieces

/-! ## Runs -/

namespace Swarm

variable {w : Swarm} {es : List Call} {id : Str} {n : Nat}

/-- What holds of the requests of all connections. -/
structure RequestsSound (t : TorrentFile) (w : Swarm) : Prop where
  /-- The log says of every connection whether it is choked. -/
  choked : ∀ c ∈ w.conns, c.choked = chokedAfter c.log
  /-- Every request, at its place in the log. -/
  each : ∀ c ∈ w.conns, ∀ pre r post, c.log = pre ++ .sent r.message :: post → RequestSound t pre r
  /-- A piece is asked for on one connection. -/
  oneConnection : ∀ (k k' : Nat) (c c' : Connection), w.conns[k]? = some c → w.conns[k']? = some c' →
    ∀ r ∈ asked c.log, ∀ r' ∈ asked c'.log, r.index = r'.index → k = k'
  /-- No two requests ask for the same byte. -/
  apart : (w.conns.flatMap fun c => asked c.log).Pairwise (Request.Apart t)

/-- Every request of every run, on any number of connections and in any order of events. -/
theorem requests_sound (ht : t.Consistent) (hp : t.pieceLength.toInt < 2 ^ 31)
    (hrun : exec step (init t id n) es = some w) (hcalls : (init t id n).requestCalls es < 2 ^ 31) :
    RequestsSound t w := by
  have hdealt := dealt_run hrun
  have hinv := (askInv_open ht hp).forall_conn (askInv_init t) hrun
  have hnd : ∀ c ∈ w.conns, (tookPieces c.log).Nodup := fun c hc => hdealt.nodup_conn hcalls hc
  have htook : ∀ c ∈ w.conns, ∀ r ∈ asked c.log, .took r.index.toInt32 ∈ c.log := by
    intro c hc r hr
    obtain ⟨pre, post, hl⟩ := List.append_of_mem (mem_asked.mp hr)
    rw [hl]
    exact List.mem_append_left _ ((hinv c hc).allowed pre r post hl).took
  have hone : ∀ (k k' : Nat) (c c' : Connection), w.conns[k]? = some c → w.conns[k']? = some c' →
      ∀ r ∈ asked c.log, ∀ r' ∈ asked c'.log, r.index = r'.index → k = k' := by
    intro k k' c c' hc hc' r hr r' hr' hidx
    have h' := htook c' (List.mem_of_getElem? hc') r' hr'
    rw [← hidx] at h'
    exact hdealt.conn_unique hcalls hc hc' (htook c (List.mem_of_getElem? hc) r hr) h'
  refine ⟨fun c hc => (hinv c hc).choked,
    fun c hc pre r post hl => (hinv c hc).requestSound ht hp (hnd c hc) hl, hone, ?_⟩
  refine List.pairwise_flatMap.mpr ⟨fun c hc => (hinv c hc).asked_apart ht hp (hnd c hc), ?_⟩
  refine List.pairwise_iff_getElem.mpr fun k k' hk hk' hlt r hr r' hr' => ?_
  refine apart_of_index_ne (fun hidx => ?_)
    ((hinv _ (List.getElem_mem hk)).inside ht hp (hnd _ (List.getElem_mem hk)) hr)
    ((hinv _ (List.getElem_mem hk')).inside ht hp (hnd _ (List.getElem_mem hk')) hr')
  have := hone k k' _ _ (List.getElem?_eq_getElem hk) (List.getElem?_eq_getElem hk') r hr r' hr' hidx
  omega

theorem start_length_le : (List.replicate 68 (0 : UInt8)).length ≤ 8192 := by decide

theorem has_length_le :
    (Message.frame Message.bitfield [0xC0] ++ Message.buildUnchoke).length ≤ 8192 := by decide

/-- A handshake, a bitfield with both pieces and an `UNCHOKE`, on two connections in turns. -/
def twoPeers : List Call :=
  let start := some ⟨List.replicate 68 0, start_length_le⟩
  let has := some ⟨Message.frame Message.bitfield [0xC0] ++ Message.buildUnchoke, has_length_le⟩
  [.write 0 [], .write 1 [], .read 1 start [], .read 0 start [], .read 1 has [], .read 0 has []]

/-- The second connection asks for piece 0, the first one for piece 1. -/
theorem requests_sound_twoPeers :
    ∃ w, exec step (init Downloader.twoBytes [] 2) twoPeers = some w ∧
      RequestsSound Downloader.twoBytes w ∧
      w.conns.map (fun c => asked c.log) =
        [[Request.ofBlock 1 1 0], [Request.ofBlock 0 1 0]] := by
  have ht : Downloader.twoBytes.Consistent := ⟨by decide, by decide, by decide⟩
  have hcalls : (init Downloader.twoBytes [] 2).requestCalls twoPeers < 2 ^ 31 := by decide +kernel
  have hsome : ∃ w, exec step (init Downloader.twoBytes [] 2) twoPeers = some w ∧
      w.conns.map (fun c => asked c.log) =
        [[Request.ofBlock 1 1 0], [Request.ofBlock 0 1 0]] := by
    have h : ((exec step (init Downloader.twoBytes [] 2) twoPeers).map fun w =>
        w.conns.map fun c => asked c.log) =
        some [[Request.ofBlock 1 1 0], [Request.ofBlock 0 1 0]] := by decide +kernel
    exact Option.map_eq_some_iff.mp h
  obtain ⟨w, hrun, hasked⟩ := hsome
  exact ⟨w, hrun, requests_sound ht (by decide) hrun hcalls, hasked⟩

end Swarm

end NodeLink
