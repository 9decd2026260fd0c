import NodeLink.Download.Dialogue

/-!
# One connection and its peer

The peer sends a `BITFIELD` and an `UNCHOKE`, and answers every `REQUEST` with
one `PIECE` that holds the bytes asked for.  What it sends depends on the
requests it has seen, so its stream is a function of the connection's log
(`peerStream`).

An `Exchange` is the connection and how much of that stream it has received.  A
step is one call of `OnReadyRead` with the next bytes of the stream, as many as
the step says and at most 8192.
-/

namespace NodeLink

open Cpp

/-! ## The peer -/

/-- The payload of a `BITFIELD` of a peer that has every piece. -/
structure FullBitfield (t : TorrentFile) (payload : Buffer) : Prop where
  length_eq : payload.length = (t.pieceHashes.length + 7) / 8
  bits : ∀ k < t.pieceHashes.length, Connection.BitSet payload k

/-- The answer to a `REQUEST`: the bytes it asks for, at the place of its piece. -/
def answer (t : TorrentFile) (content : Buffer) (req : Buffer) : Buffer :=
  let index := wordAt req 5
  let begin_ := wordAt req 9
  let length := wordAt req 13
  Message.frame Message.piece (Message.piecePayload index begin_
    ((content.drop (index.toNat * t.pieceUnit + begin_.toNat)).take length.toNat))

/-- Everything the peer sends to a connection with this log. -/
def peerStream (t : TorrentFile) (content payload : Buffer) (log : List Event) : Buffer :=
  Message.frame Message.bitfield payload ++ Message.frame Message.unchoke [] ++
    (requests log).flatMap (answer t content)

/-- The length of the whole stream. -/
def streamLength (t : TorrentFile) (payload : Buffer) : Nat :=
  payload.length + 10 +
    ((allBlocks t).map fun b => blockLen (t.lengthOfPiece b.piece) b.block + 13).sum

section Answer

variable {t : TorrentFile} {content : Buffer} {b : Delivery} {k c : Nat}

/-- The payload of the `PIECE` for a block. -/
def pieceMessage (t : TorrentFile) (content : Buffer) (b : Delivery) : Buffer :=
  Message.piecePayload (UInt32.ofNat b.piece) (UInt32.ofNat (blockBegin b.block))
    (blockData t content b.piece b.block)

/-- The bytes of a block, cut out of the whole content. -/
theorem blockData_eq (h : Describes t content) (hk : k < t.pieceHashes.length)
    (hc : c < blockCount (t.lengthOfPiece k)) :
    (content.drop (k * t.pieceUnit + blockBegin c)).take (blockLen (t.lengthOfPiece k) c) =
      blockData t content k c := by
  have hlen := h.consistent.lengthOfPiece_eq hk
  have hbegin := blockBegin_lt_iff.mpr hc
  simp only [blockData, pieceData, Tiling.tile]
  rw [List.drop_take, List.drop_drop, List.take_take]
  refine List.take_eq_take_iff.mpr ?_
  rw [List.length_drop, h.length_eq]
  simp only [blockLen, Tiling.size] at *
  simp only [blockBegin] at *
  omega

/-- The request for a block is answered with the block. -/
theorem answer_requestOf (h : Describes t content) (hN : t.pieceHashes.length < 2 ^ 30)
    (hb : b.InTorrent t) :
    answer t content (requestOf t b) = Message.frame Message.piece (pieceMessage t content b) := by
  obtain ⟨hk, hc⟩ := hb
  have hm := h.lengthOfPiece_lt hk
  have hbegin := blockBegin_lt_iff.mpr hc
  have hend := blockEnd_le hbegin
  have hsize : UInt32.size = 2 ^ 32 := rfl
  obtain ⟨hi, hb, hl⟩ := wordAt_buildRequest (wireInt b.piece).toUInt32
    (UInt32.ofNat (blockBegin b.block)) (UInt32.ofNat (blockLen (t.lengthOfPiece b.piece) b.block))
  have hw : (wireInt b.piece).toUInt32 = UInt32.ofNat b.piece := UInt32.toUInt32_toInt32 _
  unfold answer requestOf blockRequest
  rw [hi, hb, hl, hw]
  dsimp only
  rw [UInt32.toNat_ofNat_of_lt' (show b.piece < UInt32.size by omega),
    UInt32.toNat_ofNat_of_lt' (show blockBegin b.block < UInt32.size by omega),
    UInt32.toNat_ofNat_of_lt' (show blockLen _ b.block < UInt32.size by omega), blockData_eq h hk hc]
  rfl

theorem pieceMessage_length (h : Describes t content) (hb : b.InTorrent t) :
    (pieceMessage t content b).length = blockLen (t.lengthOfPiece b.piece) b.block + 8 := by
  rw [pieceMessage, Message.piecePayload_length, h.blockData_length hb.1]

end Answer

/-! ## The exchange -/

/-- The connection after `OnReadyWrite` and the peer's handshake `hs`. -/
def Session.shookHandsWith (t : TorrentFile) (id : Str) (hs : Buffer) : Session where
  conn := { Connection.init with
    state := .downloading
    handshakeDone := true
    log := [.sent (Message.buildHandshake t id), .handshake hs, .sent Message.buildInterested] }
  dl := Downloader.init t id
  results := []

/-- A handshake that arrives in one piece. -/
theorem Session.onReadyRead_handshake {s : Session} (hsock : s.conn.socket = true)
    (hst : s.conn.state = .handshaking) (hb : s.conn.recvBuffer = []) (hr : s.results = [])
    (hs : Session.Chunk) (h68 : hs.bytes.length = 68) :
    s.onReadyRead (some hs) =
      .ok (((s.append hs.bytes).shaken hs.bytes []).sending Message.buildInterested) := by
  have hne : hs.bytes ≠ [] := fun h0 => by rw [h0] at h68; cases h68
  have hbuf : (s.append hs.bytes).conn.recvBuffer = hs.bytes ++ [] := by
    change s.conn.recvBuffer ++ hs.bytes = _
    rw [hb, List.nil_append, List.append_nil]
  have hsend : ((s.append hs.bytes).shaken hs.bytes []).send Message.buildInterested =
      .ok (((s.append hs.bytes).shaken hs.bytes []).sending Message.buildInterested) := by
    change (if s.results.headD true then _ else _) = _
    rw [hr]
    rfl
  have hpass := (Session.pass_handshake (s := s.append hs.bytes) hst hbuf h68).trans
    (congrArg some hsend)
  have hstop : (((s.append hs.bytes).shaken hs.bytes []).sending Message.buildInterested).pass =
      none := Session.pass_of_empty rfl
  rw [Session.onReadyRead, if_pos hsock, if_neg hne, Session.processBuffer,
    Stream.Consumer.drain_of_some hpass, Outcome.andThen_ok, Stream.Consumer.drain_of_none hstop,
    Outcome.catching_ok]

/-- The state in which the two events of a handshake leave a connection of a fresh downloader. -/
theorem Session.shookHandsWith_eq (t : TorrentFile) (id : Str) (hs : Session.Chunk)
    (h68 : hs.bytes.length = 68) :
    ((⟨Connection.init, Downloader.init t id, []⟩ : Session).onReadyWrite.andThen fun s =>
      s.onReadyRead (some hs)) = .ok (Session.shookHandsWith t id hs.bytes) :=
  Session.onReadyRead_handshake rfl rfl rfl rfl hs h68

/-- A connection, and how many bytes of the peer's stream it has received. -/
structure Exchange where
  session : Session
  received : Nat

namespace Exchange

variable (t : TorrentFile) (content payload : Buffer)

/-- The start: the handshake is complete. -/
def start (id : Str) (hs : Buffer) : Exchange := ⟨Session.shookHandsWith t id hs, 0⟩

/-- The bytes the peer has sent and the connection has not received. -/
def pending (x : Exchange) : Buffer :=
  (peerStream t content payload x.session.conn.log).drop x.received

/-- The next `n` of them, as far as they are there and `Receive` takes them. -/
def arriving (x : Exchange) (n : Nat) : Session.Chunk where
  bytes := (x.pending t content payload).take (min n 8192)
  length_le := (List.length_take_le _ _).trans (Nat.min_le_right _ _)

/-- One step.  Where no byte arrives there is no event. -/
def step (x : Exchange) (n : Nat) : Outcome Exn Fault Exchange :=
  if (x.arriving t content payload n).bytes = [] then .ok x
  else (x.session.onReadyRead (some (x.arriving t content payload n))).map fun s =>
    ⟨s, x.received + (x.arriving t content payload n).bytes.length⟩

end Exchange

end NodeLink
