import NodeLink.Download.Handshake
import NodeLink.Download.Peer

/-!
# Builders and reader

The messages the builders of `Message` write, sent one after another behind a
handshake, are what the loop of `ProcessBuffer` takes off the stream again
(`wire_format`).  The cuts of the stream make no difference
(`feedAll_flatten`), so it is enough to see what a connection does with one
message in a chunk of its own (`onReadyRead_build`).

Such a peer sends no bitfield.  An `UNCHOKE` makes the connection look for a
piece, and it finds none (`findPiece_blank`).
-/

namespace NodeLink

open Cpp Session

/-! ## Messages -/

/-- The messages `Message` has builders for. -/
inductive PeerMessage where
  | keepAlive
  | choke
  | unchoke
  | interested
  | request (r : Request)
deriving DecidableEq, Repr

namespace PeerMessage

/-- What the builder writes. -/
def build : PeerMessage → Buffer
  | keepAlive => Message.buildKeepAlive
  | choke => Message.buildChoke
  | unchoke => Message.buildUnchoke
  | interested => Message.buildInterested
  | request r => r.message

/-- Id and payload. -/
def frame? : PeerMessage → Option (UInt8 × Buffer)
  | keepAlive => none
  | choke => some (Message.choke, [])
  | unchoke => some (Message.unchoke, [])
  | interested => some (Message.interested, [])
  | request r => some (Message.request, Message.requestPayload r.index r.begin_ r.length)

/-- The frame is the message: its id, and what the reader finds in its payload. -/
def ReadsAs (f : UInt8 × Buffer) : PeerMessage → Prop
  | keepAlive => False
  | choke => f = (Message.choke, [])
  | unchoke => f = (Message.unchoke, [])
  | interested => f = (Message.interested, [])
  | request r => f.1 = Message.request ∧ BufferUtils.readBE32 f.2 0 = .ok r.index ∧
      BufferUtils.readBE32 f.2 4 = .ok r.begin_ ∧ BufferUtils.readBE32 f.2 8 = .ok r.length

theorem build_length_le (m : PeerMessage) : m.build.length ≤ 17 := by
  cases m with
  | request r =>
      change (Message.buildRequest _ _ _).length ≤ 17
      rw [Message.buildRequest_eq, Message.frame_length, Message.requestPayload_length]
  | keepAlive => decide
  | choke => decide
  | unchoke => decide
  | interested => decide

theorem build_ne_nil (m : PeerMessage) : m.build ≠ [] := by
  cases m with
  | request r => exact List.cons_ne_nil _ _
  | keepAlive => decide
  | choke => decide
  | unchoke => decide
  | interested => decide

/-- The message in a chunk of its own. -/
def chunk (m : PeerMessage) : Chunk := ⟨m.build, m.build_length_le.trans (by decide)⟩

theorem build_of_frame {m : PeerMessage} {id : UInt8} {payload : Buffer}
    (h : m.frame? = some (id, payload)) :
    m.build = Message.frame id payload ∧ payload.length + 1 < 2 ^ 32 := by
  cases m <;> cases h
  · exact ⟨Message.buildChoke_eq, by decide⟩
  · exact ⟨Message.buildUnchoke_eq, by decide⟩
  · exact ⟨Message.buildInterested_eq, by decide⟩
  · exact ⟨Message.buildRequest_eq _ _ _, by rw [Message.requestPayload_length]; decide⟩

theorem readsAs_frame {m : PeerMessage} {f : UInt8 × Buffer} (h : m.frame? = some f) :
    ReadsAs f m := by
  cases m with
  | keepAlive => cases h
  | choke => exact (Option.some.inj h).symm
  | unchoke => exact (Option.some.inj h).symm
  | interested => exact (Option.some.inj h).symm
  | request r =>
      cases h
      refine ⟨rfl, ?_, ?_, ?_⟩
      · change BufferUtils.readBE32 (bytesBE32 r.index ++ bytesBE32 r.begin_ ++ bytesBE32 r.length) 0 = _
        rw [List.append_assoc]
        exact readBE32_writeBE32 [] _ r.index
      · exact readBE32_writeBE32 (bytesBE32 r.index) (bytesBE32 r.length) r.begin_
      · have hread := readBE32_writeBE32 (bytesBE32 r.index ++ bytesBE32 r.begin_) [] r.length
        rwa [List.append_nil] at hread

/-- The frames of some messages are these messages without the keep-alives. -/
theorem forall₂_readsAs (ms : List PeerMessage) :
    List.Forall₂ ReadsAs (ms.filterMap frame?) (ms.filter (· ≠ keepAlive)) := by
  induction ms with
  | nil => exact .nil
  | cons m ms ih =>
      cases hf : m.frame? with
      | none =>
          have hm : m = keepAlive := by cases m <;> first | rfl | cases hf
          rw [List.filterMap_cons_none hf, List.filter_cons_of_neg (by simp [hm])]
          exact ih
      | some f =>
          have hm : m ≠ keepAlive := fun hk => by rw [hk] at hf; cases hf
          rw [List.filterMap_cons_some hf, List.filter_cons_of_pos (by simpa using hm)]
          exact .cons (readsAs_frame hf) ih

end PeerMessage

/-! ## A connection that knows of no piece -/

namespace Session

variable {s s' : Session}

/-- An open connection after the handshakes, with nothing in its buffer, whose peer has sent no
bitfield.  Every `Send` succeeds. -/
structure Blank (s : Session) : Prop where
  socket : s.conn.socket = true
  state : s.conn.state = .downloading
  recvBuffer : s.conn.recvBuffer = []
  currentPiece : s.conn.currentPiece = -1
  peerPieces : s.conn.peerPieces = []
  results : s.results = []

theorem search_blank {found : Bool} (h : Search s found s') (hb : Blank s) :
    found = false ∧ Blank s' := by
  have hno : ∀ {s : Session}, Blank s → ∀ i, s.conn.hasPiece i = false := fun hb i => by
    refine Bool.eq_false_iff.mpr fun h => ?_
    rw [Connection.hasPiece_iff, hb.peerPieces] at h
    exact Bool.false_ne_true h.2
  induction h with
  | ended _ => exact ⟨rfl, hb.1, hb.2, hb.3, hb.4, hb.5, hb.6⟩
  | @hit s _ hhas =>
      have := hno (s := s.nextCandidate.2) ⟨hb.1, hb.2, hb.3, hb.4, hb.5, hb.6⟩ s.nextCandidate.1
      rw [hhas] at this
      cases this
  | gaveUp _ _ => exact ⟨rfl, hb.1, hb.2, hb.3, hb.4, hb.5, hb.6⟩
  | miss _ _ _ ih => exact ih ⟨hb.1, hb.2, hb.3, hb.4, hb.5, hb.6⟩

/-- The state when the connection has looked for a piece. -/
def searched (s : Session) : Session := (findPiece s.dl.torrent.pieceHashes.length s).2

/-- The search finds nothing. -/
theorem findPiece_blank (hb : Blank s) :
    findPiece s.dl.torrent.pieceHashes.length s = (false, s.searched) ∧ Blank s.searched := by
  obtain ⟨hf, hb'⟩ := search_blank (findPiece_search s.dl.torrent.pieceHashes.length s) hb
  exact ⟨Prod.ext hf rfl, hb'⟩

/-- The state after a message. -/
def after (s : Session) : PeerMessage → Session
  | .keepAlive => s.kept []
  | .choke => (s.framed Message.choke [] []).nowChoked
  | .unchoke => (s.framed Message.unchoke [] []).unchoked.searched
  | .interested => s.framed Message.interested [] []
  | .request r =>
      s.framed Message.request (Message.requestPayload r.index r.begin_ r.length) []

theorem Blank.after (hb : Blank s) (m : PeerMessage) : Blank (s.after m) := by
  cases m with
  | keepAlive => exact ⟨hb.1, hb.2, rfl, hb.4, hb.5, hb.6⟩
  | choke => exact ⟨hb.1, hb.2, rfl, hb.4, hb.5, hb.6⟩
  | unchoke =>
      exact (findPiece_blank (s := (s.framed Message.unchoke [] []).unchoked)
        ⟨hb.1, hb.2, rfl, hb.4, hb.5, hb.6⟩).2
  | interested => exact ⟨hb.1, hb.2, rfl, hb.4, hb.5, hb.6⟩
  | request r => exact ⟨hb.1, hb.2, rfl, hb.4, hb.5, hb.6⟩

/-- The message is taken off the buffer, and nothing is left. -/
theorem pass_build (hb : Blank s) (m : PeerMessage) :
    (s.append m.build).pass = some (.ok (s.after m)) := by
  have hst : (s.append m.build).conn.state ≠ .handshaking := by
    change s.conn.state ≠ _
    rw [hb.state]
    exact State.noConfusion
  have hbuf : (s.append m.build).conn.recvBuffer = m.build ++ [] := by
    change s.conn.recvBuffer ++ m.build = _
    rw [hb.recvBuffer, List.nil_append, List.append_nil]
  have hframe : ∀ {id payload}, m.frame? = some (id, payload) →
      (s.append m.build).pass = some ((s.framed id payload []).dispatch id payload) := by
    intro id payload hf
    obtain ⟨hbuild, hlen⟩ := PeerMessage.build_of_frame hf
    rw [hbuild] at hbuf hst ⊢
    exact pass_frame (s := s.append (Message.frame id payload)) hst hbuf hlen
  cases m with
  | keepAlive => exact pass_keepAlive hst hbuf
  | choke => exact hframe rfl
  | interested => exact hframe rfl
  | request r => exact hframe rfl
  | unchoke =>
      rw [hframe rfl]
      have hfind := (findPiece_blank (s := (s.framed Message.unchoke [] []).unchoked)
        ⟨hb.1, hb.2, rfl, hb.4, hb.5, hb.6⟩).1
      change some (requestNextBlock (s.framed Message.unchoke [] []).unchoked) = _
      have hcur : (s.framed Message.unchoke [] []).unchoked.conn.currentPiece = -1 := hb.currentPiece
      have hch : (s.framed Message.unchoke [] []).unchoked.conn.choked = false := rfl
      rw [requestNextBlock, hch, if_neg Bool.false_ne_true, if_pos hcur, hfind]
      rfl

/-- A message in a chunk of its own. -/
theorem onReadyRead_build (hb : Blank s) (m : PeerMessage) :
    s.onReadyRead (some m.chunk) = .ok (s.after m) := by
  have hstop : (s.after m).pass = none := pass_of_empty (hb.after m).recvBuffer
  have hdrain : (s.append m.build).processBuffer = .ok (s.after m) := by
    rw [processBuffer, Stream.Consumer.drain_of_some (pass_build hb m), Outcome.andThen_ok,
      Stream.Consumer.drain_of_none hstop]
  rw [onReadyRead, if_pos hb.socket]
  change (if m.build = [] then _ else (s.append m.build).processBuffer.catching close) = _
  rw [if_neg m.build_ne_nil, hdrain, Outcome.catching_ok]

/-- Messages, each in a chunk of its own. -/
theorem feedAll_build (hb : Blank s) (ms : List PeerMessage) :
    s.feedAll (ms.map PeerMessage.chunk) = .ok (ms.foldl after s) ∧ Blank (ms.foldl after s) := by
  induction ms generalizing s with
  | nil => exact ⟨rfl, hb⟩
  | cons m ms ih =>
      rw [List.map_cons, feedAll, onReadyRead_build hb m, Outcome.andThen_ok]
      exact ih (hb.after m)

/-! ## Keep-alives -/

/-- The session without the keep-alives of the log. -/
def withoutKeepAlives (s : Session) : Session :=
  s.setConn fun c => { c with log := c.log.filter (· ≠ .keepAlive) }

theorem filter_concat {log : List Event} {e : Event} (h : e ≠ .keepAlive) :
    (log ++ [e]).filter (· ≠ .keepAlive) = log.filter (· ≠ .keepAlive) ++ [e] := by
  rw [List.filter_append, List.filter_cons_of_pos (by simpa using h), List.filter_nil]

theorem framed_without (id : UInt8) (payload rest : Buffer) :
    (s.framed id payload rest).withoutKeepAlives = s.withoutKeepAlives.framed id payload rest := by
  simp only [withoutKeepAlives, framed, setConn, Connection.logged]
  rw [filter_concat Event.noConfusion]

theorem findPiece_without (left : Nat) (s : Session) :
    findPiece left s.withoutKeepAlives =
      ((findPiece left s).1, (findPiece left s).2.withoutKeepAlives) := by
  have hskip : ∀ (s : Session) i, (s.skip i).withoutKeepAlives = s.withoutKeepAlives.skip i := by
    intro s i
    simp only [withoutKeepAlives, skip, setConn, Connection.logged]
    rw [filter_concat Event.noConfusion]
  have htake : ∀ (s : Session) i, (s.take i).withoutKeepAlives = s.withoutKeepAlives.take i := by
    intro s i
    simp only [withoutKeepAlives, take, setConn, Connection.logged]
    rw [filter_concat Event.noConfusion]
  have htry : ∀ {miss : Session → Bool × Session} {s : Session},
      (∀ s : Session, miss s.withoutKeepAlives = ((miss s).1, (miss s).2.withoutKeepAlives)) →
      tryCandidate miss s.withoutKeepAlives =
        ((tryCandidate miss s).1, (tryCandidate miss s).2.withoutKeepAlives) := by
    intro miss s hmiss
    have hnext : s.withoutKeepAlives.nextCandidate =
        (s.nextCandidate.1, s.nextCandidate.2.withoutKeepAlives) := rfl
    simp only [tryCandidate]
    rw [hnext]
    by_cases h1 : s.nextCandidate.1 = -1
    · rw [if_pos h1, if_pos h1]
    · rw [if_neg h1, if_neg h1]
      change (if s.nextCandidate.2.conn.hasPiece s.nextCandidate.1 = true then _ else _) = _
      cases s.nextCandidate.2.conn.hasPiece s.nextCandidate.1 with
      | true => exact congrArg (Prod.mk true) (htake _ _).symm
      | false => exact (congrArg miss (hskip _ _).symm).trans (hmiss _)
  induction left generalizing s with
  | zero => exact htry fun s => rfl
  | succ left ih => exact htry ih

/-- A keep-alive leaves nothing but itself. -/
theorem after_keepAlive (hb : Blank s) :
    (s.after .keepAlive).withoutKeepAlives = s.withoutKeepAlives := by
  have hbuf : s.conn.recvBuffer = [] := hb.recvBuffer
  simp only [after, withoutKeepAlives, kept, setConn, Connection.logged]
  rw [List.filter_append, ← hbuf]
  exact congrArg (fun log => { s with conn := { s.conn with log := log } }) (List.append_nil _)

theorem after_without {m : PeerMessage} (hm : m ≠ .keepAlive) :
    (s.after m).withoutKeepAlives = s.withoutKeepAlives.after m := by
  cases m with
  | keepAlive => exact absurd rfl hm
  | choke => exact congrArg nowChoked (framed_without Message.choke [] [])
  | interested => exact framed_without _ _ _
  | request r => exact framed_without _ _ _
  | unchoke =>
      have hu : (s.framed Message.unchoke [] []).unchoked.withoutKeepAlives =
          (s.withoutKeepAlives.framed Message.unchoke [] []).unchoked :=
        congrArg unchoked (framed_without Message.unchoke [] [])
      simp only [after, searched]
      rw [← hu]
      exact congrArg Prod.snd (findPiece_without _ _).symm

/-- Without keep-alives, messages lead to the same state. -/
theorem foldl_after_without (hb : Blank s) (ms : List PeerMessage) :
    (ms.foldl after s).withoutKeepAlives =
      (ms.filter (· ≠ .keepAlive)).foldl after s.withoutKeepAlives := by
  induction ms generalizing s with
  | nil => rfl
  | cons m ms ih =>
      rw [List.foldl_cons, ih (hb.after m)]
      by_cases hm : m = .keepAlive
      · subst hm
        rw [after_keepAlive hb]
        rfl
      · rw [List.filter_cons_of_pos (by simpa using hm), List.foldl_cons, after_without hm]

end Session

/-! ## What the log shows -/

/-- The frame an event is. -/
def Event.frame? : Event → Option (UInt8 × Buffer)
  | .frame id payload => some (id, payload)
  | _ => none

/-- The bytes an event took for the handshake. -/
def Event.handshake? : Event → Option Buffer
  | .handshake b => some b
  | _ => none

/-- The frames taken, in order. -/
def framesOf (log : List Event) : List (UInt8 × Buffer) := log.filterMap Event.frame?

/-- What was taken for a handshake. -/
def handshakesOf (log : List Event) : List Buffer := log.filterMap Event.handshake?

theorem sentBuffers_without (log : List Event) :
    sentBuffers (log.filter (· ≠ .keepAlive)) = sentBuffers log := by
  induction log with
  | nil => rfl
  | cons e log ih =>
      by_cases he : e = .keepAlive
      · subst he
        exact ih
      · rw [List.filter_cons_of_pos (by simpa using he), sentBuffers, List.filterMap_cons, ← sentBuffers,
          ih, sentBuffers, sentBuffers, List.filterMap_cons]

/-- A message adds its frame to the log, and no handshake. -/
theorem log_after (s : Session) (m : PeerMessage) :
    framesOf (s.after m).conn.log = framesOf s.conn.log ++ m.frame?.toList ∧
      handshakesOf (s.after m).conn.log = handshakesOf s.conn.log := by
  have hone : ∀ e : Event, framesOf (s.conn.log ++ [e]) = framesOf s.conn.log ++ e.frame?.toList ∧
      handshakesOf (s.conn.log ++ [e]) = handshakesOf s.conn.log ++ e.handshake?.toList := by
    intro e
    simp only [framesOf, handshakesOf, List.filterMap_append]
    cases e <;> exact ⟨rfl, rfl⟩
  have hquiet : ∀ e : Event, e.handshake? = none →
      handshakesOf (s.conn.log ++ [e]) = handshakesOf s.conn.log := fun e he => by
    rw [(hone e).2, he]
    exact List.append_nil _
  cases m with
  | keepAlive => exact ⟨(hone .keepAlive).1, hquiet .keepAlive rfl⟩
  | choke => exact ⟨(hone (.frame _ _)).1, hquiet (.frame _ _) rfl⟩
  | interested => exact ⟨(hone (.frame _ _)).1, hquiet (.frame _ _) rfl⟩
  | request r => exact ⟨(hone (.frame _ _)).1, hquiet (.frame _ _) rfl⟩
  | unchoke =>
      obtain ⟨mid, hlog, hmid⟩ := search_drawn (findPiece_search
        (s.framed Message.unchoke [] []).unchoked.dl.torrent.pieceHashes.length
        (s.framed Message.unchoke [] []).unchoked)
      have hnone : mid.filterMap Event.frame? = [] ∧ mid.filterMap Event.handshake? = [] := by
        constructor <;> refine List.filterMap_eq_nil_iff.mpr fun e he => ?_ <;>
          have := hmid e he <;> cases e <;> first | rfl | exact this.elim
      have hlog : (s.after .unchoke).conn.log = s.conn.log ++ [.frame Message.unchoke []] ++ mid := hlog
      rw [hlog]
      constructor
      · rw [framesOf, List.filterMap_append, hnone.1, List.append_nil]
        exact (hone (.frame _ _)).1
      · rw [handshakesOf, List.filterMap_append, hnone.2, List.append_nil]
        exact hquiet (.frame _ _) rfl

theorem log_foldl_after (s : Session) (ms : List PeerMessage) :
    framesOf (ms.foldl after s).conn.log = framesOf s.conn.log ++ ms.filterMap PeerMessage.frame? ∧
      handshakesOf (ms.foldl after s).conn.log = handshakesOf s.conn.log := by
  induction ms generalizing s with
  | nil => exact ⟨(List.append_nil _).symm, rfl⟩
  | cons m ms ih =>
      obtain ⟨h1, h2⟩ := ih (s.after m)
      obtain ⟨h3, h4⟩ := log_after s m
      refine ⟨?_, h2.trans h4⟩
      rw [List.foldl_cons, h1, h3, List.append_assoc, List.filterMap_cons]
      cases m.frame? <;> rfl

/-! ## The stream -/

namespace Session

variable {dl : Downloader} {hs : Buffer} {ms : List PeerMessage} {cs : List Chunk}

/-- A connection that has just sent its handshake, and whose every `Send` succeeds. -/
def handshakeSent (dl : Downloader) : Session where
  conn := { Connection.init with
    state := .handshaking
    log := [.sent (Message.buildHandshake dl.torrent dl.myId)] }
  dl := dl
  results := []

theorem onReadyWrite_init (dl : Downloader) :
    (⟨.init, dl, []⟩ : Session).onReadyWrite = .ok (handshakeSent dl) := rfl

/-- The chunks are a way of cutting the stream. -/
structure Delivers (cs : List Chunk) (stream : Buffer) : Prop where
  ne : ∀ c ∈ cs, c.bytes ≠ []
  eq : (cs.map Chunk.bytes).flatten = stream

/-- The state after the handshake. -/
def shookWith (dl : Downloader) (hs : Buffer) : Session :=
  ((handshakeSent dl).shaken hs []).sending Message.buildInterested

theorem blank_shookWith (dl : Downloader) (hs : Buffer) : Blank (shookWith dl hs) :=
  ⟨rfl, rfl, rfl, rfl, rfl, rfl⟩

/-- Two ways of cutting a stream lead to the same state, if the one leaves the socket open. -/
theorem feedAll_cut {s s' : Session} {cs' : List Chunk} {stream : Buffer} (hr : Resting s)
    (hcs : Delivers cs stream) (hcs' : Delivers cs' stream) (h' : s.feedAll cs' = .ok s')
    (hopen : s'.conn.socket = true) : s.feedAll cs = .ok s' := by
  have hsame := feedAll_flatten hr hcs.ne
  rw [hcs.eq, ← hcs'.eq, ← feedAll_flatten hr hcs'.ne, h', Outcome.map_ok, shown_of_open hopen] at hsame
  cases h : s.feedAll cs with
  | ok s1 =>
      rw [h] at hsame
      have hshown : s1.shown = s' := Outcome.ok.inj hsame
      have hopen1 : s1.conn.socket = true := by rw [← shown_socket, hshown, hopen]
      rw [← hshown, shown_of_open hopen1]
  | throw e s1 => exact absurd h Swarm.feedAll_ne_throw
  | fault f =>
      rw [h] at hsame
      cases hsame

/-- A handshake and messages, cut in any way. -/
theorem feedAll_stream (h68 : hs.length = 68)
    (hcs : Delivers cs (hs ++ ms.flatMap PeerMessage.build)) :
    (handshakeSent dl).feedAll cs = .ok (ms.foldl after (shookWith dl hs)) := by
  have hshake : (handshakeSent dl).onReadyRead (some ⟨hs, by omega⟩) = .ok (shookWith dl hs) :=
    onReadyRead_handshake rfl rfl rfl rfl ⟨hs, by omega⟩ h68
  obtain ⟨hfeed, hblank⟩ := feedAll_build (blank_shookWith dl hs) ms
  have hcs' : Delivers (⟨hs, by omega⟩ :: ms.map PeerMessage.chunk)
      (hs ++ ms.flatMap PeerMessage.build) := by
    constructor
    · intro c hc
      rcases List.mem_cons.mp hc with rfl | hc
      · intro h0
        have hlen := congrArg List.length h0
        change hs.length = 0 at hlen
        omega
      · obtain ⟨m, -, rfl⟩ := List.mem_map.mp hc
        exact m.build_ne_nil
    · rw [List.map_cons, List.flatten_cons, List.map_map, List.flatMap]
      rfl
  refine feedAll_cut (fun _ => pass_of_empty rfl) hcs hcs' ?_ hblank.socket
  rw [feedAll, hshake, Outcome.andThen_ok, hfeed]

/-- A handshake and any messages the builders write, cut in any way, arrive at a connection that has
just sent its handshake.  They are consumed, the handshake is the first 68 bytes, and the frames are
the messages in order, without the keep-alives.  Other keep-alives make no difference to the state and
to what is sent. -/
theorem wire_format {t : TorrentFile} {peerId : Str} (ht : t.infoHash.length = 20)
    (hp : peerId.length = 20)
    (hcs : Delivers cs (Message.buildHandshake t peerId ++ ms.flatMap PeerMessage.build)) :
    ∃ s, (handshakeSent dl).feedAll cs = .ok s ∧ s.conn.recvBuffer = [] ∧
      (Message.buildHandshake t peerId).length = 68 ∧
      handshakesOf s.conn.log = [Message.buildHandshake t peerId] ∧
      List.Forall₂ PeerMessage.ReadsAs (framesOf s.conn.log) (ms.filter (· ≠ .keepAlive)) ∧
      ∀ (ms' : List PeerMessage) (cs' : List Chunk),
        ms'.filter (· ≠ .keepAlive) = ms.filter (· ≠ .keepAlive) →
        Delivers cs' (Message.buildHandshake t peerId ++ ms'.flatMap PeerMessage.build) →
        ∃ s', (handshakeSent dl).feedAll cs' = .ok s' ∧
          s'.withoutKeepAlives = s.withoutKeepAlives ∧
          sentBuffers s'.conn.log = sentBuffers s.conn.log := by
  have h68 := Message.buildHandshake_length ht hp
  generalize Message.buildHandshake t peerId = hs at h68 hcs ⊢
  have hblank := blank_shookWith dl hs
  obtain ⟨hframes, hshakes⟩ := log_foldl_after (shookWith dl hs) ms
  have hsame : ∀ ms' : List PeerMessage, ms'.filter (· ≠ .keepAlive) = ms.filter (· ≠ .keepAlive) →
      (ms'.foldl after (shookWith dl hs)).withoutKeepAlives =
        (ms.foldl after (shookWith dl hs)).withoutKeepAlives := fun ms' hms => by
    rw [foldl_after_without hblank, foldl_after_without hblank, hms]
  refine ⟨_, feedAll_stream h68 hcs, (feedAll_build hblank ms).2.recvBuffer, h68, hshakes, ?_,
    fun ms' cs' hms hcs' => ⟨_, feedAll_stream h68 hcs', hsame ms' hms, ?_⟩⟩
  · rw [hframes]
    exact PeerMessage.forall₂_readsAs ms
  · have hlog := congrArg (fun s => sentBuffers s.conn.log) (hsame ms' hms)
    exact (sentBuffers_without _).symm.trans (hlog.trans (sentBuffers_without _))

/-- The handshake of a peer, then an `UNCHOKE`, a keep-alive and a `REQUEST`, in four chunks. -/
theorem wire_format_twoBytes :
    let hs := Message.buildHandshake (Swarm.withHash 7) (List.replicate 20 0x70)
    let ms := [.unchoke, .keepAlive, .request ⟨1, 0x01020304, 16384⟩]
    let stream := hs ++ ms.flatMap PeerMessage.build
    ∃ cs s, Delivers cs stream ∧ cs.length = 4 ∧
      (handshakeSent (.init Downloader.twoBytes [])).feedAll cs = .ok s ∧
      s.conn.recvBuffer = [] ∧ handshakesOf s.conn.log = [hs] ∧
      List.Forall₂ PeerMessage.ReadsAs (framesOf s.conn.log)
        [.unchoke, .request ⟨1, 0x01020304, 16384⟩] := by
  intro hs ms stream
  have hcs : Delivers [⟨stream.take 50, by decide⟩, ⟨(stream.drop 50).take 20, by decide⟩,
      ⟨(stream.drop 70).take 15, by decide⟩, ⟨stream.drop 85, by decide⟩] stream :=
    ⟨by decide +kernel, by decide +kernel⟩
  obtain ⟨s, hfeed, hbuf, -, hshakes, hframes, -⟩ :=
    wire_format rfl rfl hcs
  exact ⟨_, s, hcs, rfl, hfeed, hbuf, hshakes, hframes⟩

end Session

end NodeLink
