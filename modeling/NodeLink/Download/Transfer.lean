import NodeLink.Download.Peer

/-!
# A whole download

The run of one connection with a peer that has every piece, however the bytes
are cut into chunks.  A run goes through phases: the `BITFIELD` is awaited, then
the `UNCHOKE`, then one block after another, then nothing (`Phase`).  In each
phase the bytes that are in the buffer or on their way are the messages the
phase awaits (`Talk`).

One pass of the read loop takes the next message and goes to the next phase, or
the message is not complete and some of it is on its way (`Talk.pass`).  So the
loop ends in some phase (`Talk.processBuffer`), and when no byte is on its way
the phase can only be the last one.
-/

namespace NodeLink

open Cpp

/-! ## Phases -/

/-- What the connection waits for. -/
inductive Phase where
  | bitfield
  | unchoke
  | block (b : Delivery)
  | done

namespace Phase

variable (t : TorrentFile) (content payload : Buffer)

/-- The messages on their way, from the one awaited on. -/
def stream : Phase → Buffer
  | .bitfield => Message.frame Message.bitfield payload ++ Message.frame Message.unchoke []
  | .unchoke => Message.frame Message.unchoke []
  | .block b => Message.frame Message.piece (pieceMessage t content b)
  | .done => []

/-- The blocks asked for. -/
def asked : Phase → List Delivery
  | .bitfield => []
  | .unchoke => []
  | .block b => blocksBefore t b ++ [b]
  | .done => allBlocks t

/-- What holds of the connection and the downloader. -/
def Holds : Phase → Session → Prop
  | .bitfield, s => (s.marked payload).unchoked.Searching t 0 ∧ s.dl.Due t content ⟨0, 0⟩
  | .unchoke, s => s.unchoked.Searching t 0 ∧ s.dl.Due t content ⟨0, 0⟩
  | .block b, s => b.InTorrent t ∧ s.Poised t (b.next t) ∧ s.dl.Due t content b
  | .done, s => s.conn.choked = false ∧ s.conn.currentPiece = -1 ∧
      (t.pieceHashes.length : Int) ≤ s.dl.nextReqIndex.toInt ∧
      s.dl.Due t content ⟨t.pieceHashes.length, 0⟩

end Phase

/-- The connection is in a phase: `past` has been received, and `more` is on its way. -/
structure Talk (t : TorrentFile) (content payload : Buffer) (p : Phase) (s : Session)
    (past more : Buffer) : Prop where
  holds : p.Holds t content payload s
  socket : s.conn.socket = true
  state : s.conn.state = .downloading
  asked : requests s.conn.log = (p.asked t).map (requestOf t)
  stream : s.conn.recvBuffer ++ more = p.stream t content payload
  sent : peerStream t content payload s.conn.log = past ++ more

namespace Session

variable {t : TorrentFile} {content payload past more : Buffer} {s s' : Session} {b : Delivery}
  {p : Phase}

theorem Poised.torrent (h : Poised t s b) : s.dl.torrent = t := by
  simp only [Poised] at h
  split at h <;> exact h.torrent

theorem Poised.results (h : Poised t s b) : s.results = [] := by
  simp only [Poised] at h
  split at h <;> exact h.results

/-- What a connection is poised for does not depend on its buffer, its log, and the pieces. -/
theorem Poised.congr (h : Poised t s b) (hc : s'.conn.choked = s.conn.choked)
    (hb : s'.conn.peerPieces = s.conn.peerPieces)
    (hp : s'.conn.currentPiece = s.conn.currentPiece)
    (ho : s'.conn.blockOffset = s.conn.blockOffset) (hr : s'.results = s.results)
    (ht : s'.dl.torrent = s.dl.torrent) (hn : s'.dl.nextReqIndex = s.dl.nextReqIndex) :
    Poised t s' b := by
  have able (ha : Able t s) : Able t s' :=
    ⟨ht.trans ha.torrent, hc.trans ha.choked, by rw [hb]; exact ha.bits, hr.trans ha.results⟩
  simp only [Poised] at h ⊢
  split at h
  next h0 =>
    rw [if_pos h0]
    exact ⟨able h.toAble, hp.trans h.current, by rw [hn]; exact h.next⟩
  next h0 =>
    rw [if_neg h0]
    exact ⟨able h.toAble, hp.trans h.current, by rw [ho]; exact h.offset, by rw [hn]; exact h.next⟩

/-! ## Messages -/

/-- A frame at the front of what is in the buffer and on its way: some of it is on its way, or it is in
the buffer. -/
theorem pass_or_split {id : UInt8} {pl tail : Buffer} (hst : s.conn.state ≠ .handshaking)
    (hlen : pl.length + 5 < 2 ^ 32) (hs : s.conn.recvBuffer ++ more = Message.frame id pl ++ tail) :
    (s.pass = none ∧ more ≠ []) ∨
      ∃ rest, s.conn.recvBuffer = Message.frame id pl ++ rest ∧ rest ++ more = tail := by
  by_cases hshort : s.conn.recvBuffer.length < pl.length + 5
  · have hframe (h4 : 4 ≤ s.conn.recvBuffer.length) : s.frameLen = pl.length + 1 := by
      rw [frameLen, ← Message.readMessageLength_append h4 more, hs]
      exact Message.readMessageLength_frame (by omega) tail
    refine .inl ⟨pass_eq_none ?_ ?_, ?_⟩
    · simp only [Complete]
      rw [if_neg hst]
      rintro ⟨h4, hle⟩
      rw [hframe h4] at hle
      omega
    · rintro ⟨-, h4, hwrap, -⟩
      rw [hframe h4] at hwrap
      omega
    · rintro rfl
      have := congrArg List.length hs
      rw [List.append_nil, List.length_append, Message.frame_length] at this
      omega
  · have hfr : (Message.frame id pl).length ≤ s.conn.recvBuffer.length := by
      rw [Message.frame_length]
      omega
    have hp : Message.frame id pl <+: s.conn.recvBuffer :=
      List.prefix_of_prefix_length_le (List.prefix_append _ tail) (hs ▸ List.prefix_append _ more) hfr
    obtain ⟨rest, hrest⟩ := hp
    refine .inr ⟨rest, hrest.symm, ?_⟩
    rw [← hrest, List.append_assoc] at hs
    exact List.append_cancel_left hs

/-- A connection poised for a block asks for it; behind the last block it asks for nothing. -/
theorem talk_ask (h : Describes t content) (hN : t.pieceHashes.length < 2 ^ 30)
    (hp : Poised t s b) (hd : s.dl.Due t content b)
    (hb : b.InTorrent t ∨ b = ⟨t.pieceHashes.length, 0⟩) (hsock : s.conn.socket = true)
    (hst : s.conn.state = .downloading)
    (hreq : requests s.conn.log = (blocksBefore t b).map (requestOf t))
    (hs : s.conn.recvBuffer ++ more = [])
    (hsent : peerStream t content payload s.conn.log = past ++ more) :
    ∃ p' s' more', s.requestNextBlock = .ok s' ∧ Talk t content payload p' s' past more' := by
  rcases hb with hin | rfl
  · obtain ⟨s', hs', hp', hreq'⟩ := hp.request h hN hin
    have hf : RequestFrame s s' := requestNextBlock_frame (by rw [hs']; rfl)
    have hanswer := answer_requestOf h hN hin
    refine ⟨.block b, s', more ++ answer t content (requestOf t b), hs', ⟨hin, hp', ?_⟩,
      hf.socket.trans hsock, hf.state.trans hst, ?_, ?_, ?_⟩
    · rw [hf.dl]
      exact hd.congr _
    · rw [hreq', hreq, Phase.asked, List.map_append, List.map_singleton]
    · rw [hf.recvBuffer, ← List.append_assoc, hs, List.nil_append, hanswer]
      rfl
    · simp only [peerStream] at hsent ⊢
      rw [hreq', List.flatMap_append, List.flatMap_singleton, ← List.append_assoc, hsent,
        List.append_assoc]
  · have hsearch : Searching t s t.pieceHashes.length := hp
    have hle : (s.dl.torrent.pieceHashes.length : Int) ≤ s.dl.nextReqIndex.toInt := by
      rw [hsearch.torrent, hsearch.next]
    have hnext : (s.dl.nextReqIndex + 1).toInt = s.dl.nextReqIndex.toInt + 1 :=
      toInt_add_one (by rw [hsearch.next]; omega)
    refine ⟨.done, _, more, requestNextBlock_ended hsearch.choked hsearch.current hle,
      ⟨hsearch.choked, hsearch.current, ?_, hd.congr _⟩, hsock, hst, ?_, hs, hsent⟩
    · change _ ≤ (s.dl.nextReqIndex + 1).toInt
      rw [hnext, hsearch.next]
      omega
    · rw [blocksBefore_end] at hreq
      exact hreq

/-- The block that is awaited arrives. -/
theorem onPiece_pieceMessage (h : Describes t content) (hN : t.pieceHashes.length < 2 ^ 30)
    (hb : b.InTorrent t) (hp : Poised t s (b.next t)) (hd : s.dl.Due t content b) :
    ∃ d', s.onPiece (pieceMessage t content b) = (s.delivered d').requestNextBlock ∧
      Poised t (s.delivered d') (b.next t) ∧ d'.Due t content (b.next t) := by
  obtain ⟨d', hd', hdue⟩ := hd.receive h hN hb
  have hsame : Downloader.SameFixed s.dl d' := Downloader.receive_sameFixed (by rw [hd']; rfl)
  obtain ⟨ht, -, hn⟩ := hsame
  obtain ⟨h0, h4, h8⟩ := Message.readBE32_piecePayload (UInt32.ofNat b.piece)
    (UInt32.ofNat (blockBegin b.block)) (blockData t content b.piece b.block)
  refine ⟨d', ?_, hp.congr rfl rfl rfl rfl ?_ ht hn, hdue⟩
  · simp only [onPiece, pieceMessage]
    rw [h0, h4, h8, Outcome.tryThen_ok, Outcome.tryThen_ok, deliver, hp.results]
    have hcall : (⟨[].headD true, (UInt32.ofNat b.piece).toInt32,
        (UInt32.ofNat (blockBegin b.block)).toInt32, blockData t content b.piece b.block⟩ :
        Downloader.Call) = Downloader.deliverBlock t content b := rfl
    rw [hcall, hd']
    rw [Outcome.map_ok, Outcome.andThen_ok, delivered, hp.results]
  · rw [delivered_results, hp.results]
    rfl

/-! ## Passes -/

/-- A message leaves the requests in the log as they were. -/
theorem requests_framed (id : UInt8) (pl rest : Buffer) :
    requests (s.framed id pl rest).conn.log = requests s.conn.log := by
  rw [framed_conn, requests_append]
  exact List.append_nil _

theorem peerStream_congr {log log' : List Event} (hl : requests log' = requests log) :
    peerStream t content payload log' = peerStream t content payload log := by
  simp only [peerStream]
  rw [hl]

/-- The `BITFIELD` arrives. -/
theorem talk_bitfield {rest : Buffer} (hT : Talk t content payload .bitfield s past more)
    (hrest : rest ++ more = Message.frame Message.unchoke []) :
    Talk t content payload .unchoke ((s.framed Message.bitfield payload rest).marked payload)
      past more where
  holds := ⟨⟨⟨hT.holds.1.torrent, rfl, hT.holds.1.bits, hT.holds.1.results⟩, hT.holds.1.current,
    hT.holds.1.next⟩, hT.holds.2⟩
  socket := hT.socket
  state := hT.state
  asked := (requests_framed _ _ rest).trans hT.asked
  stream := hrest
  sent := (peerStream_congr (requests_framed _ _ rest)).trans hT.sent

/-- The `UNCHOKE` arrives. -/
theorem talk_unchoke (h : Describes t content) (hN : t.pieceHashes.length < 2 ^ 30)
    {rest : Buffer} (hT : Talk t content payload .unchoke s past more) (hrest : rest ++ more = []) :
    ∃ p' s' more', (s.framed Message.unchoke [] rest).unchoked.requestNextBlock = .ok s' ∧
      Talk t content payload p' s' past more' := by
  obtain ⟨hs, hd⟩ := hT.holds
  have hp : Poised t (s.framed Message.unchoke [] rest).unchoked ⟨0, 0⟩ :=
    ⟨⟨hs.torrent, rfl, hs.bits, hs.results⟩, hs.current, hs.next⟩
  have hb : (⟨0, 0⟩ : Delivery).InTorrent t ∨ (⟨0, 0⟩ : Delivery) = ⟨t.pieceHashes.length, 0⟩ := by
    cases h0 : t.pieceHashes.length with
    | zero => exact .inr rfl
    | succ n =>
        have hpos : 0 < t.pieceHashes.length := by omega
        exact .inl ⟨hpos, h.blockCount_pos hpos⟩
  exact talk_ask h hN hp hd hb hT.socket hT.state ((requests_framed _ _ rest).trans hT.asked) hrest
    ((peerStream_congr (requests_framed _ _ rest)).trans hT.sent)

/-- A `PIECE` arrives. -/
theorem talk_block (h : Describes t content) (hN : t.pieceHashes.length < 2 ^ 30)
    {rest : Buffer} (hT : Talk t content payload (.block b) s past more)
    (hrest : rest ++ more = []) :
    ∃ p' s' more', (s.framed Message.piece (pieceMessage t content b) rest).onPiece
        (pieceMessage t content b) = .ok s' ∧ Talk t content payload p' s' past more' := by
  obtain ⟨hb, hp, hd⟩ := hT.holds
  have hp1 : Poised t (s.framed Message.piece (pieceMessage t content b) rest) (b.next t) :=
    hp.congr rfl rfl rfl rfl rfl rfl rfl
  obtain ⟨d', hpiece, hp', hd'⟩ := onPiece_pieceMessage h hN hb hp1 hd
  rw [hpiece]
  refine talk_ask h hN hp' hd' (Delivery.next_cases h hb) hT.socket hT.state ?_ hrest
    ((peerStream_congr (requests_framed _ _ rest)).trans hT.sent)
  rw [blocksBefore_next hb]
  exact (requests_framed _ _ rest).trans hT.asked

end Session

namespace Talk

open Session

variable {t : TorrentFile} {content payload past more : Buffer} {s s' : Session} {p : Phase}

/-- One pass takes the message that is awaited and goes on to the next phase.  Where it stops, nothing
is awaited or some bytes are on their way. -/
theorem pass (h : Describes t content) (hN : t.pieceHashes.length < 2 ^ 30)
    (hb : payload.length + 5 < 2 ^ 32) (hT : Talk t content payload p s past more) :
    (s.pass = none ∧ (p = .done ∨ more ≠ [])) ∨
      ∃ p' s' more', s.pass = some (.ok s') ∧ Talk t content payload p' s' past more' := by
  have hst : s.conn.state ≠ .handshaking := by
    rw [hT.state]
    decide
  cases p with
  | bitfield =>
      refine (pass_or_split hst hb hT.stream).imp (fun hn => ⟨hn.1, .inr hn.2⟩) ?_
      rintro ⟨rest, hbuf, hrest⟩
      exact ⟨_, _, _, pass_frame hst hbuf (by omega), talk_bitfield hT hrest⟩
  | unchoke =>
      have hs : s.conn.recvBuffer ++ more = Message.frame Message.unchoke [] ++ [] :=
        hT.stream.trans (List.append_nil _).symm
      refine (pass_or_split hst (by simp) hs).imp (fun hn => ⟨hn.1, .inr hn.2⟩) ?_
      rintro ⟨rest, hbuf, hrest⟩
      obtain ⟨p', s', more', hs', hT'⟩ := talk_unchoke h hN hT hrest
      exact ⟨p', s', more', (pass_frame hst hbuf (by simp)).trans (congrArg some hs'), hT'⟩
  | block b =>
      have hlen := pieceMessage_length h hT.holds.1
      have hle : blockLen (t.lengthOfPiece b.piece) b.block ≤ blockUnit := Tiling.size_le
      have hunit : blockUnit = 16384 := rfl
      have hs : s.conn.recvBuffer ++ more =
          Message.frame Message.piece (pieceMessage t content b) ++ [] :=
        hT.stream.trans (List.append_nil _).symm
      refine (pass_or_split hst (by omega) hs).imp (fun hn => ⟨hn.1, .inr hn.2⟩) ?_
      rintro ⟨rest, hbuf, hrest⟩
      obtain ⟨p', s', more', hs', hT'⟩ := talk_block h hN hT hrest
      exact ⟨p', s', more', (pass_frame hst hbuf (by omega)).trans (congrArg some hs'), hT'⟩
  | done => exact .inl ⟨pass_of_empty (List.append_eq_nil_iff.mp hT.stream).1, .inl rfl⟩

/-- The loop ends in some phase, and nothing is awaited or some bytes are on their way. -/
theorem processBuffer (h : Describes t content) (hN : t.pieceHashes.length < 2 ^ 30)
    (hb : payload.length + 5 < 2 ^ 32) (hT : Talk t content payload p s past more) :
    ∃ p' s' more', s.processBuffer = .ok s' ∧ (p' = .done ∨ more' ≠ []) ∧
      Talk t content payload p' s' past more' := by
  induction s using Stream.Consumer.drain_induction (c := consumer) generalizing p more with
  | step s ih =>
      rcases hT.pass h hN hb with ⟨hnone, hwait⟩ | ⟨p', s', more', hs', hT'⟩
      · exact ⟨p, s, more, Stream.Consumer.drain_of_none hnone, hwait, hT⟩
      · obtain ⟨p'', s'', more'', hs'', hwait, hT''⟩ := ih s' hs' hT'
        refine ⟨p'', s'', more'', ?_, hwait, hT''⟩
        simp only [Session.processBuffer] at hs'' ⊢
        rw [Stream.Consumer.drain_of_some hs', Outcome.andThen_ok, hs'']

end Talk

end NodeLink
