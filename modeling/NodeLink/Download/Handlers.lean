import NodeLink.Download.ProcessBuffer

/-!
# What the handlers can do

One inversion lemma for each function a message runs (`send_cases`,
`requestBlock_cases`, `requestNextBlock_cases`, `onPiece_cases`,
`dispatch_cases`).  `Search` is what the loop over the candidates can do, without
the count of the attempts.

`RequestFrame` and `Frame` say what a request and a message leave as it was.
-/

namespace NodeLink

open Cpp

/-- The bytes of the stream an event stands for. -/
def Event.wire : Event → Buffer
  | .handshake b => b
  | .keepAlive => Message.buildKeepAlive
  | .frame id payload => Message.frame id payload
  | .sent _ => []
  | .took _ => []
  | .skipped _ => []

namespace Session

variable {s s' : Session} {payload : Buffer} {id : UInt8}

/-! ## Requests -/

theorem send_cases (s : Session) (b : Buffer) :
    s.send b = .ok (s.sending b) ∨ ∃ e, s.send b = .throw e (s.sending b) := by
  simp only [send]
  split
  · exact .inl rfl
  · exact .inr ⟨_, rfl⟩

theorem send_state? {b : Buffer} (h : (s.send b).state? = some s') : s' = s.sending b := by
  rcases send_cases s b with hs | ⟨e, hs⟩ <;> rw [hs] at h <;> exact (Option.some.inj h).symm

/-- The loop over the candidates, without the count of the attempts. -/
inductive Search : Session → Bool → Session → Prop where
  /-- No candidate is left. -/
  | ended {s : Session} : s.nextCandidate.1 = -1 → Search s false s.nextCandidate.2
  /-- The peer has the candidate. -/
  | hit {s : Session} : s.nextCandidate.1 ≠ -1 →
      s.nextCandidate.2.conn.hasPiece s.nextCandidate.1 = true →
      Search s true (s.nextCandidate.2.take s.nextCandidate.1)
  /-- The peer does not have the candidate, and there were enough attempts. -/
  | gaveUp {s : Session} : s.nextCandidate.1 ≠ -1 →
      s.nextCandidate.2.conn.hasPiece s.nextCandidate.1 = false →
      Search s false (s.nextCandidate.2.skip s.nextCandidate.1)
  /-- The peer does not have the candidate, and the search goes on. -/
  | miss {s s' : Session} {found : Bool} : s.nextCandidate.1 ≠ -1 →
      s.nextCandidate.2.conn.hasPiece s.nextCandidate.1 = false →
      Search (s.nextCandidate.2.skip s.nextCandidate.1) found s' → Search s found s'

theorem findPiece_search (left : Nat) (s : Session) :
    Search s (findPiece left s).1 (findPiece left s).2 := by
  induction left generalizing s with
  | zero =>
      simp only [findPiece, tryCandidate]
      split
      · exact .ended ‹_›
      · split
        · exact .hit ‹_› ‹_›
        · exact .gaveUp ‹_› (Bool.eq_false_iff.mpr ‹_›)
  | succ left ih =>
      simp only [findPiece, tryCandidate]
      split
      · exact .ended ‹_›
      · split
        · exact .hit ‹_› ‹_›
        · exact .miss ‹_› (Bool.eq_false_iff.mpr ‹_›) (ih _)

/-- Everything the request for a current piece can do: there is nothing to ask for, the request goes
out, or it does not. -/
theorem requestBlock_cases (h : s.requestBlock.state? = some s') :
    ∃ n, s.dl.torrent.pieceLen s.conn.currentPiece.toInt = .ok n ∧
      ((n.toInt ≤ s.conn.blockOffset.toInt ∧ s.requestBlock = .ok s' ∧ s' = s.finishPiece n) ∨
      (s.conn.blockOffset.toInt < n.toInt ∧ s.requestBlock = .ok s' ∧
        s' = ((s.sending (s.request n)).advance (reqLen s.conn.blockOffset n)).finishPiece n) ∨
      (s.conn.blockOffset.toInt < n.toInt ∧ ∃ e, s.requestBlock = .throw e s' ∧
        s' = s.sending (s.request n))) := by
  simp only [requestBlock] at h ⊢
  cases hl : s.dl.torrent.pieceLen s.conn.currentPiece.toInt with
  | error f => rw [hl] at h; cases h
  | ok n =>
      rw [hl] at h
      refine ⟨n, rfl, ?_⟩
      rw [Outcome.checked_ok, sendRequest] at h ⊢
      by_cases hlt : s.conn.blockOffset.toInt < n.toInt
      · rw [if_pos hlt] at h ⊢
        refine .inr ?_
        rcases send_cases s (s.request n) with hs | ⟨e, hs⟩
        · rw [hs] at h ⊢
          cases Option.some.inj h
          exact .inl ⟨hlt, rfl, rfl⟩
        · rw [hs] at h ⊢
          cases Option.some.inj h
          exact .inr ⟨hlt, e, rfl, rfl⟩
      · rw [if_neg hlt] at h ⊢
        cases Option.some.inj h
        exact .inl ⟨by omega, rfl, rfl⟩

/-- Everything `RequestNextBlock` can do: nothing, for a choked connection; a search without result;
or a request for the current piece, after a search if there was none. -/
theorem requestNextBlock_cases (h : s.requestNextBlock.state? = some s') :
    (s.conn.choked = true ∧ s.requestNextBlock = .ok s' ∧ s' = s) ∨
    (s.conn.choked = false ∧ s.conn.currentPiece = -1 ∧ s.requestNextBlock = .ok s' ∧
      Search s false s') ∨
    (s.conn.choked = false ∧ ∃ s1, ((s.conn.currentPiece ≠ -1 ∧ s1 = s) ∨
      (s.conn.currentPiece = -1 ∧ Search s true s1)) ∧
      s.requestNextBlock = s1.requestBlock ∧ s1.requestBlock.state? = some s') := by
  simp only [requestNextBlock] at h ⊢
  cases hc : s.conn.choked with
  | true =>
      rw [hc, if_pos rfl] at h
      cases Option.some.inj h
      exact .inl ⟨rfl, rfl, rfl⟩
  | false =>
      rw [hc, if_neg Bool.false_ne_true] at h
      refine .inr ?_
      rw [if_neg Bool.false_ne_true]
      by_cases hp : s.conn.currentPiece = -1
      · rw [if_pos hp] at h ⊢
        have hs := findPiece_search s.dl.torrent.pieceHashes.length s
        cases hf : findPiece s.dl.torrent.pieceHashes.length s with
        | mk found s1 =>
            rw [hf] at h hs
            cases found with
            | true => exact .inr ⟨rfl, s1, .inr ⟨hp, hs⟩, rfl, h⟩
            | false =>
                cases Option.some.inj h
                exact .inl ⟨rfl, hp, rfl, hs⟩
      · rw [if_neg hp] at h ⊢
        exact .inr ⟨rfl, s, .inl ⟨hp, rfl⟩, rfl, h⟩

/-- A search that finds a piece is followed by a request for it. -/
theorem requestNextBlock_of_found {s1 : Session} (hc : s.conn.choked = false)
    (hp : s.conn.currentPiece = -1)
    (h : findPiece s.dl.torrent.pieceHashes.length s = (true, s1)) :
    s.requestNextBlock = s1.requestBlock := by
  rw [requestNextBlock, hc, if_neg Bool.false_ne_true, if_pos hp, h]
  rfl

/-- A search that finds nothing is all there is. -/
theorem requestNextBlock_of_not_found {s1 : Session} (hc : s.conn.choked = false)
    (hp : s.conn.currentPiece = -1)
    (h : findPiece s.dl.torrent.pieceHashes.length s = (false, s1)) :
    s.requestNextBlock = .ok s1 := by
  rw [requestNextBlock, hc, if_neg Bool.false_ne_true, if_pos hp, h]
  rfl

/-! ## Messages -/

/-- The call a `PIECE` makes. -/
def callOf (s : Session) (payload : Buffer) : Downloader.Call where
  alloc := s.results.headD true
  pieceIndex := (wordAt payload 0).toInt32
  offset := (wordAt payload 4).toInt32
  data := payload.drop 8

/-- The state after a call of `OnBlockReceived`. -/
@[simps] def delivered (s : Session) (d : Downloader) : Session :=
  { s with dl := d, results := s.results.tail }

/-- Everything a `PIECE` can do: its payload is too short, the call throws, or a request follows the
call. -/
theorem onPiece_cases (h : (s.onPiece payload).state? = some s') :
    (payload.length < 8 ∧ s' = s ∧ ∃ e, s.onPiece payload = .throw e s') ∨
    (8 ≤ payload.length ∧ ∃ d, (Downloader.receive s.dl (s.callOf payload)).state? = some d ∧
      ((∃ e, Downloader.receive s.dl (s.callOf payload) = .throw e d ∧
          s.onPiece payload = .throw e s' ∧ s' = s.delivered d) ∨
        (Downloader.receive s.dl (s.callOf payload) = .ok d ∧
          s.onPiece payload = (s.delivered d).requestNextBlock ∧
          (s.delivered d).requestNextBlock.state? = some s'))) := by
  simp only [onPiece] at h ⊢
  by_cases h8 : 8 ≤ payload.length
  · rw [readBE32_ok (by omega), readBE32_ok (by omega)] at h ⊢
    rw [Outcome.tryThen_ok, Outcome.tryThen_ok, deliver] at h ⊢
    refine .inr ⟨h8, ?_⟩
    change (Outcome.andThen ((Downloader.receive s.dl (s.callOf payload)).map s.delivered)
      requestNextBlock).state? = _ at h
    cases hr : Downloader.receive s.dl (s.callOf payload) with
    | ok d =>
        rw [hr] at h
        exact ⟨d, rfl, .inr ⟨rfl, by rw [← callOf, hr]; rfl, h⟩⟩
    | throw e d =>
        rw [hr] at h
        cases Option.some.inj h
        exact ⟨d, rfl, .inl ⟨e, rfl, by rw [← callOf, hr]; rfl, rfl⟩⟩
    | fault f => rw [hr] at h; cases h
  · refine .inl ⟨by omega, ?_⟩
    cases h0 : BufferUtils.readBE32 payload 0 with
    | error e =>
        rw [h0] at h
        cases Option.some.inj h
        exact ⟨rfl, e, rfl⟩
    | ok index =>
        have h4 : BufferUtils.readBE32 payload 4 = .error (.outOfRange "Buffer read overflow") := by
          rw [BufferUtils.readBE32, if_pos (by omega)]
        rw [h0, h4] at h
        cases Option.some.inj h
        exact ⟨rfl, _, by rw [h4]; rfl⟩

/-- The state after an `UNCHOKE`, before the request. -/
def unchoked (s : Session) : Session := s.setConn fun c => { c with choked := false }

/-- The state after a `CHOKE`. -/
def nowChoked (s : Session) : Session := s.setConn fun c => { c with choked := true }

/-- The state after a `BITFIELD`. -/
def marked (s : Session) (payload : Buffer) : Session :=
  s.setConn fun c => { c with
    peerPieces := Connection.markPieces c.peerPieces s.dl.torrent.pieceHashes.length payload }

/-- Everything a message can do, by its id. -/
theorem dispatch_cases (s : Session) (id : UInt8) (payload : Buffer) :
    (id = Message.unchoke ∧ s.dispatch id payload = s.unchoked.requestNextBlock) ∨
    (id = Message.bitfield ∧ s.dispatch id payload = .ok (s.marked payload)) ∨
    (id = Message.choke ∧ s.dispatch id payload = .ok s.nowChoked) ∨
    (id = Message.piece ∧ s.dispatch id payload = s.onPiece payload) ∨
    (id ≠ Message.unchoke ∧ id ≠ Message.bitfield ∧ id ≠ Message.choke ∧ id ≠ Message.piece ∧
      s.dispatch id payload = .ok s) := by
  simp only [dispatch]
  by_cases h1 : id = Message.unchoke
  · exact .inl ⟨h1, if_pos h1⟩
  rw [if_neg h1]
  by_cases h2 : id = Message.bitfield
  · exact .inr (.inl ⟨h2, if_pos h2⟩)
  rw [if_neg h2]
  by_cases h3 : id = Message.choke
  · exact .inr (.inr (.inl ⟨h3, if_pos h3⟩))
  rw [if_neg h3]
  by_cases h4 : id = Message.piece
  · exact .inr (.inr (.inr (.inl ⟨h4, if_pos h4⟩)))
  · exact .inr (.inr (.inr (.inr ⟨h1, h2, h3, h4, if_neg h4⟩)))

/-! ## What stays -/

/-- What a message leaves as it was.  The log is longer by events that stand for no input. -/
structure Frame (s s' : Session) : Prop where
  socket : s'.conn.socket = s.conn.socket
  state : s'.conn.state = s.conn.state
  handshakeDone : s'.conn.handshakeDone = s.conn.handshakeDone
  recvBuffer : s'.conn.recvBuffer = s.conn.recvBuffer
  torrent : s'.dl.torrent = s.dl.torrent
  myId : s'.dl.myId = s.dl.myId
  log : ∃ es, s'.conn.log = s.conn.log ++ es ∧ ∀ e ∈ es, e.wire = []

/-- What a request leaves as it was. -/
structure RequestFrame (s s' : Session) : Prop extends Frame s s' where
  choked : s'.conn.choked = s.conn.choked
  peerPieces : s'.conn.peerPieces = s.conn.peerPieces
  dl : s'.dl = { s.dl with nextReqIndex := s'.dl.nextReqIndex }

/-- The same log. -/
theorem no_event {log log' : List Event} (h : log' = log) :
    ∃ es, log' = log ++ es ∧ ∀ e ∈ es, e.wire = [] :=
  ⟨[], h.trans (List.append_nil _).symm, List.forall_mem_nil _⟩

theorem Frame.refl (s : Session) : Frame s s :=
  ⟨rfl, rfl, rfl, rfl, rfl, rfl, no_event rfl⟩

theorem Frame.trans {s1 s2 s3 : Session} (h : Frame s1 s2) (h' : Frame s2 s3) : Frame s1 s3 := by
  obtain ⟨es, hes, hw⟩ := h.log
  obtain ⟨es', hes', hw'⟩ := h'.log
  refine ⟨h'.socket.trans h.socket, h'.state.trans h.state,
    h'.handshakeDone.trans h.handshakeDone, h'.recvBuffer.trans h.recvBuffer,
    h'.torrent.trans h.torrent, h'.myId.trans h.myId, es ++ es', ?_, ?_⟩
  · rw [hes', hes, List.append_assoc]
  · intro e he
    exact (List.mem_append.mp he).elim (hw e) (hw' e)

theorem RequestFrame.refl (s : Session) : RequestFrame s s :=
  ⟨Frame.refl s, rfl, rfl, rfl⟩

theorem RequestFrame.trans {s1 s2 s3 : Session} (h : RequestFrame s1 s2)
    (h' : RequestFrame s2 s3) : RequestFrame s1 s3 := by
  refine ⟨h.toFrame.trans h'.toFrame, h'.choked.trans h.choked,
    h'.peerPieces.trans h.peerPieces, ?_⟩
  rw [h'.dl, h.dl]

theorem nextCandidate_frame (s : Session) : RequestFrame s s.nextCandidate.2 := by
  have h : s.nextCandidate.2.dl = { s.dl with nextReqIndex := s.dl.nextReqIndex + 1 } := by
    unfold nextCandidate Downloader.getNextPieceToRequest
    dsimp only
    split <;> rfl
  exact ⟨⟨rfl, rfl, rfl, rfl, by rw [h], by rw [h], no_event rfl⟩, rfl, rfl,
    by rw [h]⟩

/-- A change of the current piece and the offset, with one more event or none. -/
theorem logged_frame {e : Event} (he : e.wire = []) (p o : Int32) (rs : List Bool) :
    RequestFrame s { s with
      conn := { s.conn.logged e with currentPiece := p, blockOffset := o }, results := rs } :=
  ⟨⟨rfl, rfl, rfl, rfl, rfl, rfl, [e], rfl, by simpa using he⟩, rfl, rfl, rfl⟩

theorem search_frame {found : Bool} (h : Search s found s') : RequestFrame s s' := by
  induction h with
  | ended _ => exact nextCandidate_frame _
  | hit _ _ => exact (nextCandidate_frame _).trans (logged_frame rfl _ _ _)
  | gaveUp _ _ => exact (nextCandidate_frame _).trans (logged_frame rfl _ _ _)
  | miss _ _ _ ih => exact ((nextCandidate_frame _).trans (logged_frame rfl _ _ _)).trans ih

theorem finishPiece_frame (s : Session) (n : Int64) : RequestFrame s (s.finishPiece n) := by
  simp only [finishPiece]
  split
  · exact ⟨⟨rfl, rfl, rfl, rfl, rfl, rfl, no_event rfl⟩, rfl, rfl, rfl⟩
  · exact RequestFrame.refl s

theorem requestBlock_frame (h : s.requestBlock.state? = some s') : RequestFrame s s' := by
  rcases requestBlock_cases h with ⟨n, -, ⟨-, -, rfl⟩ | ⟨-, -, rfl⟩ | ⟨-, e, -, rfl⟩⟩
  · exact finishPiece_frame s n
  · exact RequestFrame.trans (logged_frame rfl _ _ _) (finishPiece_frame _ n)
  · exact logged_frame rfl _ _ _

theorem requestNextBlock_frame (h : s.requestNextBlock.state? = some s') : RequestFrame s s' := by
  rcases requestNextBlock_cases h with
      ⟨-, -, rfl⟩ | ⟨-, -, -, hs⟩ | ⟨-, s1, ⟨-, rfl⟩ | ⟨-, hs⟩, -, h1⟩
  · exact RequestFrame.refl _
  · exact search_frame hs
  · exact requestBlock_frame h1
  · exact (search_frame hs).trans (requestBlock_frame h1)

theorem delivered_frame {c : Downloader.Call} {d : Downloader}
    (h : (Downloader.receive s.dl c).state? = some d) : Frame s (s.delivered d) := by
  obtain ⟨ht, hi, -⟩ := Downloader.receive_sameFixed h
  exact ⟨rfl, rfl, rfl, rfl, ht, hi, no_event rfl⟩

theorem dispatch_frame (h : (s.dispatch id payload).state? = some s') : Frame s s' := by
  rcases dispatch_cases s id payload with
      ⟨-, hd⟩ | ⟨-, hd⟩ | ⟨-, hd⟩ | ⟨-, hd⟩ | ⟨-, -, -, -, hd⟩ <;>
    rw [hd] at h
  · have hu : Frame s s.unchoked :=
      ⟨rfl, rfl, rfl, rfl, rfl, rfl, no_event rfl⟩
    exact hu.trans (requestNextBlock_frame h).toFrame
  · cases Option.some.inj h
    exact ⟨rfl, rfl, rfl, rfl, rfl, rfl, no_event rfl⟩
  · cases Option.some.inj h
    exact ⟨rfl, rfl, rfl, rfl, rfl, rfl, no_event rfl⟩
  · rcases onPiece_cases h with ⟨-, rfl, -⟩ | ⟨-, d, hd, ⟨e, -, -, rfl⟩ | ⟨-, -, hn⟩⟩
    · exact Frame.refl _
    · exact delivered_frame hd
    · exact (delivered_frame hd).trans (requestNextBlock_frame hn).toFrame
  · cases Option.some.inj h
    exact Frame.refl _

/-- What was taken off the buffer by a pass that leaves a state, with or without an exception. -/
theorem pass_state_cases {o : Outcome Exn Fault Session} (hp : s.pass = some o)
    (ho : o.state? = some s') :
    (∃ hs rest, s.conn.state = .handshaking ∧ s.conn.recvBuffer = hs ++ rest ∧ hs.length = 68 ∧
      s' = (s.shaken hs rest).sending Message.buildInterested) ∨
    (∃ rest, s.conn.state ≠ .handshaking ∧ s.conn.recvBuffer = Message.buildKeepAlive ++ rest ∧
      s' = s.kept rest) ∨
    (∃ id payload rest, s.conn.state ≠ .handshaking ∧
      s.conn.recvBuffer = Message.frame id payload ++ rest ∧ payload.length + 1 < 2 ^ 32 ∧
      o = (s.framed id payload rest).dispatch id payload) := by
  rcases pass_cases s with
      ⟨h, -⟩ | ⟨hs, rest, hst, hb, hlen, h⟩ | ⟨rest, hst, hb, h⟩ |
      ⟨id, payload, rest, hst, hb, hlen, h⟩ | ⟨-, h⟩ <;> rw [h] at hp <;> cases hp
  · exact .inl ⟨hs, rest, hst, hb, hlen, send_state? ho⟩
  · exact .inr (.inl ⟨rest, hst, hb, (Option.some.inj ho).symm⟩)
  · exact .inr (.inr ⟨id, payload, rest, hst, hb, hlen, rfl⟩)
  · cases ho

theorem pass_socket {o : Outcome Exn Fault Session} (hp : s.pass = some o) (ho : o.state? = some s') :
    s'.conn.socket = s.conn.socket := by
  rcases pass_state_cases hp ho with
      ⟨hs, rest, -, -, -, rfl⟩ | ⟨rest, -, -, rfl⟩ | ⟨id, payload, rest, -, -, -, rfl⟩
  · rfl
  · rfl
  · exact (dispatch_frame ho).socket

end Session

end NodeLink
