import NodeLink.Lib.Stream
import NodeLink.Download.Downloader
import NodeLink.Download.Message

/-!
# A connection

`Connection` is the client's side of one connection.  `onReadyWrite` and
`onReadyRead` are what the event loop calls, `processBuffer` is the loop that
takes messages off `recv_buffer`, and `requestNextBlock` asks for the next
block.  They work on a `Session`: the connection, the downloader it shares with
the others, and what the system calls of the event will say.

A connection keeps a `log` of what it did.  The source has no such record, and
no function reads it: it is what statements about runs are about.

`results` is the outcome of each call that can fail on its own, in the order of
the calls: `Send`, and the allocation of a piece.  Where the list ends, calls
succeed.
-/

namespace NodeLink

open Cpp

/-! ## The state -/

/-- The phases of a connection. -/
inductive State where
  | connecting
  | handshaking
  | downloading
deriving DecidableEq, Repr

/-- What a connection does, as its log records it. -/
inductive Event where
  /-- A buffer was passed to `Send`. -/
  | sent (b : Buffer)
  /-- These bytes were taken for the peer's handshake. -/
  | handshake (b : Buffer)
  /-- A keep-alive was taken. -/
  | keepAlive
  /-- A frame was taken. -/
  | frame (id : UInt8) (payload : Buffer)
  /-- The piece `GetNextPieceToRequest` returned became the current one. -/
  | took (candidate : Int32)
  /-- The piece `GetNextPieceToRequest` returned is not one the peer has. -/
  | skipped (candidate : Int32)
deriving DecidableEq, Repr

/-- A connection to a peer. -/
structure Connection where
  /-- Whether there is a socket. -/
  socket : Bool
  state : State
  choked : Bool
  handshakeDone : Bool
  recvBuffer : Buffer
  currentPiece : Int32
  blockOffset : Int32
  peerPieces : List Bool
  log : List Event
deriving DecidableEq, Repr

/-- A connection whose `Connect` succeeded. -/
def Connection.init : Connection where
  socket := true
  state := .connecting
  choked := true
  handshakeDone := false
  recvBuffer := []
  currentPiece := -1
  blockOffset := 0
  peerPieces := []
  log := []

/-- A connection at work. -/
structure Session where
  conn : Connection
  dl : Downloader
  results : List Bool
deriving DecidableEq, Repr

namespace Connection

/-- `HasPiece`. -/
def hasPiece (c : Connection) (index : Int32) : Bool :=
  if index.toInt < 0 ∨ index.toInt ≥ c.peerPieces.length then false
  else c.peerPieces.getD index.toInt.toNat false

/-- `socket = nullptr`. -/
@[simps] def close (c : Connection) : Connection := { c with socket := false }

/-- One more event. -/
@[simps] def logged (c : Connection) (e : Event) : Connection := { c with log := c.log ++ [e] }

/-! ## The bitfield -/

/-- The test of one bit, from bit 7 down. -/
def markBit (i : Nat) (byte : UInt8) (peerPieces : List Bool) (bit : Nat) : List Bool :=
  if byte.toNat.testBit (7 - bit) then
    let pieceIndex := i * 8 + bit
    if pieceIndex < peerPieces.length then peerPieces.set pieceIndex true else peerPieces
  else peerPieces

/-- The eight bits of one byte of the payload. -/
def markByte (peerPieces : List Bool) (b : UInt8 × Nat) : List Bool :=
  (List.range 8).foldl (markBit b.2 b.1) peerPieces

/-- `peer_pieces` after a bitfield, `n` being the number of pieces. -/
def markPieces (peerPieces : List Bool) (n : Nat) (payload : Buffer) : List Bool :=
  payload.zipIdx.foldl markByte
    (peerPieces.take n ++ List.replicate (n - peerPieces.length) false)

end Connection

namespace Session

/-- The session with another connection state. -/
@[simps] def setConn (s : Session) (f : Connection → Connection) : Session :=
  { s with conn := f s.conn }

/-- The state after `Send`, successful or not. -/
@[simps] def sending (s : Session) (b : Buffer) : Session :=
  { s with conn := s.conn.logged (.sent b), results := s.results.tail }

/-- `socket->Send`. -/
def send (s : Session) (b : Buffer) : Outcome Exn Fault Session :=
  if s.results.headD true then .ok (s.sending b)
  else .throw (.runtimeError "TCP Send failed") (s.sending b)

/-! ## `RequestNextBlock` -/

/-- One call of `GetNextPieceToRequest`. -/
def nextCandidate (s : Session) : Int32 × Session :=
  (s.dl.getNextPieceToRequest.1, { s with dl := s.dl.getNextPieceToRequest.2 })

/-- The state with a new current piece. -/
@[simps! conn dl results] def take (s : Session) (candidate : Int32) : Session :=
  s.setConn fun c => { c.logged (.took candidate) with currentPiece := candidate, blockOffset := 0 }

/-- The state after a piece the peer does not have. -/
@[simps! conn dl results] def skip (s : Session) (candidate : Int32) : Session :=
  s.setConn fun c => c.logged (.skipped candidate)

/-- One round of the loop that looks for a piece: there is no candidate left, the peer has the
candidate, or it does not.  The result says whether a piece was found. -/
def tryCandidate (miss : Session → Bool × Session) (s : Session) : Bool × Session :=
  if s.nextCandidate.1 = -1 then (false, s.nextCandidate.2)
  else if s.nextCandidate.2.conn.hasPiece s.nextCandidate.1 then
    (true, s.nextCandidate.2.take s.nextCandidate.1)
  else miss (s.nextCandidate.2.skip s.nextCandidate.1)

/-- The loop.  `attempts` is counted down from the number of pieces: the argument is how many more
misses the search goes on after. -/
def findPiece : Nat → Session → Bool × Session
  | 0 => tryCandidate fun s => (false, s)
  | left + 1 => tryCandidate (findPiece left)

/-- The length of the next request.  The sum and the comparison are those of the source: `uint32_t`
against `long long`. -/
def reqLen (blockOffset : Int32) (pieceLen : Int64) : UInt32 :=
  if ((blockOffset.toUInt32 + 16384).toNat : Int) > pieceLen.toInt then
    UInt32.ofInt (pieceLen.toInt - blockOffset.toInt)
  else 16384

/-- `block_offset += req_len`. -/
@[simps! conn dl results] def advance (s : Session) (n : UInt32) : Session :=
  s.setConn fun c => { c with blockOffset := (c.blockOffset.toUInt32 + n).toInt32 }

/-- The request for the next block of the current piece. -/
def request (s : Session) (pieceLen : Int64) : Buffer :=
  Message.buildRequest s.conn.currentPiece.toUInt32 s.conn.blockOffset.toUInt32
    (reqLen s.conn.blockOffset pieceLen)

/-- Step 2: the request, if there is something to ask for. -/
def sendRequest (s : Session) (pieceLen : Int64) : Outcome Exn Fault Session :=
  if s.conn.blockOffset.toInt < pieceLen.toInt then
    (s.send (s.request pieceLen)).andThen fun s =>
      .ok (s.advance (reqLen s.conn.blockOffset pieceLen))
  else .ok s

/-- Step 3: a piece that is done is no longer the current one. -/
def finishPiece (s : Session) (pieceLen : Int64) : Session :=
  if s.conn.blockOffset.toInt ≥ pieceLen.toInt then
    s.setConn fun c => { c with currentPiece := -1 }
  else s

/-- Steps 2 and 3, for the current piece. -/
def requestBlock (s : Session) : Outcome Exn Fault Session :=
  Outcome.checked (s.dl.torrent.pieceLen s.conn.currentPiece.toInt) fun pieceLen =>
    (s.sendRequest pieceLen).andThen fun s => .ok (s.finishPiece pieceLen)

/-- `RequestNextBlock`. -/
def requestNextBlock (s : Session) : Outcome Exn Fault Session :=
  if s.conn.choked then .ok s
  else if s.conn.currentPiece = -1 then
    let (found, s) := findPiece s.dl.torrent.pieceHashes.length s
    if found then s.requestBlock else .ok s
  else s.requestBlock

/-! ## `ProcessBuffer` -/

/-- `recv_buffer[i]`. -/
def byteAt (b : Buffer) (i : Nat) : Except Fault UInt8 :=
  if i < b.length then .ok (b.getD i 0) else .error .recvBuffer

/-- The bytes in `[i, j)`. -/
def bytesIn (b : Buffer) (i j : Nat) : Except Fault Buffer :=
  if i ≤ j ∧ j ≤ b.length then .ok ((b.take j).drop i) else .error .recvBuffer

/-- What is left when `[0, n)` is erased. -/
def erased (b : Buffer) (n : Nat) : Except Fault Buffer :=
  if n ≤ b.length then .ok (b.drop n) else .error .recvBuffer

/-- The payload of a frame of length `len`. -/
def payloadOf (b : Buffer) (len : Nat) : Except Fault Buffer :=
  if len > 1 then bytesIn b 5 (4 + len) else .ok []

/-- Id, payload, and what is left, for a frame of length `len`. -/
def takeFrame (b : Buffer) (len : Nat) : Except Fault (UInt8 × Buffer × Buffer) := do
  let id ← byteAt b 4
  let payload ← payloadOf b len
  let rest ← erased b (4 + len)
  return (id, payload, rest)

/-- One call of `OnBlockReceived`. -/
def deliver (s : Session) (c : Downloader.Call) : Outcome Exn Fault Session :=
  (Downloader.receive s.dl c).map fun dl => { s with dl := dl, results := s.results.tail }

/-- A `PIECE`. -/
def onPiece (s : Session) (payload : Buffer) : Outcome Exn Fault Session :=
  Outcome.tryThen s (BufferUtils.readBE32 payload 0) fun index =>
    Outcome.tryThen s (BufferUtils.readBE32 payload 4) fun begin_ =>
      (s.deliver ⟨s.results.headD true, index.toInt32, begin_.toInt32, payload.drop 8⟩).andThen
        requestNextBlock

/-- The `switch` on the id. -/
def dispatch (s : Session) (id : UInt8) (payload : Buffer) : Outcome Exn Fault Session :=
  if id = Message.unchoke then (s.setConn fun c => { c with choked := false }).requestNextBlock
  else if id = Message.bitfield then
    .ok (s.setConn fun c =>
      { c with peerPieces := Connection.markPieces c.peerPieces s.dl.torrent.pieceHashes.length payload })
  else if id = Message.choke then .ok (s.setConn fun c => { c with choked := true })
  else if id = Message.piece then s.onPiece payload
  else .ok s

/-- The state when the handshake has been taken and `rest` is left. -/
@[simps! conn dl results] def shaken (s : Session) (hs rest : Buffer) : Session :=
  s.setConn fun c =>
    { c.logged (.handshake hs) with recvBuffer := rest, handshakeDone := true, state := .downloading }

/-- The state when a keep-alive has been taken. -/
@[simps! conn dl results] def kept (s : Session) (rest : Buffer) : Session :=
  s.setConn fun c => { c.logged .keepAlive with recvBuffer := rest }

/-- The state when a frame has been taken. -/
@[simps! conn dl results] def framed (s : Session) (id : UInt8) (payload rest : Buffer) : Session :=
  s.setConn fun c => { c.logged (.frame id payload) with recvBuffer := rest }

/-- One pass of the loop; `none` where it breaks.  The guard adds in `uint32_t`, the iterators add
exactly. -/
def pass (s : Session) : Option (Outcome Exn Fault Session) :=
  let b := s.conn.recvBuffer
  if s.conn.state = .handshaking then
    if b.length < 68 then none
    else some (Outcome.checked (erased b 68) fun rest =>
      (s.shaken (b.take 68) rest).send Message.buildInterested)
  else if b.length < 4 then none
  else
    let len := Message.readMessageLength b
    if len = 0 then some (Outcome.checked (erased b 4) fun rest => .ok (s.kept rest))
    else if b.length < (4 + len).toNat then none
    else some (Outcome.checked (takeFrame b len.toNat) fun (id, payload, rest) =>
      (s.framed id payload rest).dispatch id payload)

/-! ## What a message does not touch

The handlers neither read nor write `recv_buffer`: they commute with every change of it
(`dispatch_onBuffer`), so it is the same before and after (`dispatch_recvBuffer`). -/

/-- The session with another buffer. -/
def onBuffer (g : Buffer → Buffer) (s : Session) : Session :=
  s.setConn fun c => { c with recvBuffer := g c.recvBuffer }

section OnBuffer

variable (g : Buffer → Buffer) (s : Session)

@[simp] theorem onBuffer_dl : (s.onBuffer g).dl = s.dl := rfl
@[simp] theorem onBuffer_results : (s.onBuffer g).results = s.results := rfl
@[simp] theorem onBuffer_choked : (s.onBuffer g).conn.choked = s.conn.choked := rfl
@[simp] theorem onBuffer_currentPiece :
    (s.onBuffer g).conn.currentPiece = s.conn.currentPiece := rfl
@[simp] theorem onBuffer_blockOffset : (s.onBuffer g).conn.blockOffset = s.conn.blockOffset := rfl
@[simp] theorem onBuffer_request (n : Int64) : (s.onBuffer g).request n = s.request n := rfl
@[simp] theorem onBuffer_hasPiece (i : Int32) :
    (s.onBuffer g).conn.hasPiece i = s.conn.hasPiece i := rfl
@[simp] theorem onBuffer_nextCandidate :
    (s.onBuffer g).nextCandidate = (s.nextCandidate.1, s.nextCandidate.2.onBuffer g) := rfl

theorem send_onBuffer (b : Buffer) : (s.onBuffer g).send b = (s.send b).map (onBuffer g) := by
  simp only [send]
  rw [onBuffer_results]
  split <;> rfl

theorem tryCandidate_onBuffer {miss : Session → Bool × Session}
    (h : ∀ s, miss (s.onBuffer g) = ((miss s).1, (miss s).2.onBuffer g)) :
    tryCandidate miss (s.onBuffer g) =
      ((tryCandidate miss s).1, (tryCandidate miss s).2.onBuffer g) := by
  simp only [tryCandidate]
  rw [onBuffer_nextCandidate]
  by_cases h1 : s.nextCandidate.1 = -1
  · rw [if_pos h1, if_pos h1]
  · rw [if_neg h1, if_neg h1, onBuffer_hasPiece]
    cases s.nextCandidate.2.conn.hasPiece s.nextCandidate.1 with
    | true => rfl
    | false => exact h (s.nextCandidate.2.skip s.nextCandidate.1)

theorem findPiece_onBuffer (left : Nat) :
    findPiece left (s.onBuffer g) = ((findPiece left s).1, (findPiece left s).2.onBuffer g) := by
  induction left generalizing s with
  | zero => exact tryCandidate_onBuffer g s fun _ => rfl
  | succ left ih => exact tryCandidate_onBuffer g s ih

theorem sendRequest_onBuffer (n : Int64) :
    (s.onBuffer g).sendRequest n = (s.sendRequest n).map (onBuffer g) := by
  simp only [sendRequest, onBuffer_blockOffset, onBuffer_request, send_onBuffer]
  split
  · exact Outcome.map_andThen fun _ => rfl
  · rfl

theorem finishPiece_onBuffer (n : Int64) :
    (s.onBuffer g).finishPiece n = (s.finishPiece n).onBuffer g := by
  by_cases h : s.conn.blockOffset.toInt ≥ n.toInt
  · rw [finishPiece, finishPiece, if_pos h, onBuffer_blockOffset, if_pos h]
    rfl
  · rw [finishPiece, finishPiece, if_neg h, onBuffer_blockOffset, if_neg h]

theorem requestBlock_onBuffer : (s.onBuffer g).requestBlock = s.requestBlock.map (onBuffer g) := by
  simp only [requestBlock, onBuffer_dl, onBuffer_currentPiece]
  cases s.dl.torrent.pieceLen s.conn.currentPiece.toInt with
  | error f => rfl
  | ok n =>
      rw [Outcome.checked_ok, Outcome.checked_ok, sendRequest_onBuffer]
      exact Outcome.map_andThen fun s1 => congrArg Outcome.ok (finishPiece_onBuffer g s1 n)

theorem requestNextBlock_onBuffer :
    (s.onBuffer g).requestNextBlock = s.requestNextBlock.map (onBuffer g) := by
  simp only [requestNextBlock, onBuffer_choked, onBuffer_currentPiece, onBuffer_dl,
    findPiece_onBuffer]
  split
  · rfl
  · split
    · split
      · exact requestBlock_onBuffer g _
      · rfl
    · exact requestBlock_onBuffer g s

theorem deliver_onBuffer (c : Downloader.Call) :
    (s.onBuffer g).deliver c = (s.deliver c).map (onBuffer g) := by
  simp only [deliver, onBuffer_dl]
  cases Downloader.receive s.dl c <;> rfl

theorem onPiece_onBuffer (payload : Buffer) :
    (s.onBuffer g).onPiece payload = (s.onPiece payload).map (onBuffer g) := by
  simp only [onPiece]
  cases BufferUtils.readBE32 payload 0 with
  | error e => rfl
  | ok index =>
      cases BufferUtils.readBE32 payload 4 with
      | error e => rfl
      | ok begin_ =>
          rw [Outcome.tryThen_ok, Outcome.tryThen_ok, Outcome.tryThen_ok, Outcome.tryThen_ok,
            onBuffer_results, deliver_onBuffer]
          exact Outcome.map_andThen (requestNextBlock_onBuffer g)

/-- A message does the same whatever is in the buffer. -/
theorem dispatch_onBuffer (id : UInt8) (payload : Buffer) :
    (s.onBuffer g).dispatch id payload = (s.dispatch id payload).map (onBuffer g) := by
  simp only [dispatch]
  split
  · exact requestNextBlock_onBuffer g (s.setConn fun c => { c with choked := false })
  · split
    · rfl
    · split
      · rfl
      · split
        · exact onPiece_onBuffer g s payload
        · rfl

end OnBuffer

/-- What commutes with every change of the buffer does not change it. -/
theorem recvBuffer_of_onBuffer {f : Session → Outcome Exn Fault Session} {s s' : Session}
    (hf : ∀ g s, f (s.onBuffer g) = (f s).map (onBuffer g)) (h : (f s).state? = some s') :
    s'.conn.recvBuffer = s.conn.recvBuffer := by
  have hs := hf (fun _ => s.conn.recvBuffer) s
  change f s = _ at hs
  rw [hs] at h
  cases ho : f s with
  | ok s1 => rw [ho] at h; cases Option.some.inj h; rfl
  | throw e s1 => rw [ho] at h; cases Option.some.inj h; rfl
  | fault u => rw [ho] at h; cases h

theorem dispatch_recvBuffer {s s' : Session} {id : UInt8} {payload : Buffer}
    (h : (s.dispatch id payload).state? = some s') : s'.conn.recvBuffer = s.conn.recvBuffer :=
  recvBuffer_of_onBuffer (f := fun s => s.dispatch id payload)
    (fun g s => dispatch_onBuffer g s id payload) h

theorem send_recvBuffer {s s' : Session} {b : Buffer} (h : (s.send b).state? = some s') :
    s'.conn.recvBuffer = s.conn.recvBuffer :=
  recvBuffer_of_onBuffer (f := fun s => s.send b) (fun g s => send_onBuffer g s b) h

end Session

end NodeLink
