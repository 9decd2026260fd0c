import NodeLink.Download.FrameBounds
import NodeLink.Lib.Interpreter
import NodeLink.Download.WireUnits

/-!
# What a stream does to a connection

`handle` is what one unit of a peer's stream does, to a connection without a
buffer.  For a connection that has sent its handshake, reading a stream, in
whatever chunks, comes to handling its units one after another up to the first
exception, which drops the socket (`feedAll_eq_handleAll`).
-/

namespace NodeLink

open Cpp Stream

namespace Session

variable {s s' : Session} {cs : List Chunk}

/-- The session without its buffer. -/
def forget (s : Session) : Session := s.onBuffer fun _ => []

/-- One unit. -/
def handle : Wire.Item → Session → Outcome Exn Fault Session
  | .handshake hs, s => (s.shaken hs []).send Message.buildInterested
  | .keepAlive, s => .ok (s.kept [])
  | .message id payload, s => (s.framed id payload []).dispatch id payload

/-- Units one after another. -/
def handleAll (xs : List Wire.Item) (s : Session) : Outcome Exn Fault Session :=
  Consumer.handleAll handle xs s

/-- A connection that has sent its handshake, and whose buffer the loop does not leave. -/
def InStep (s : Session) : Prop := s.conn.state ≠ .connecting ∧ s.processBuffer ≠ .fault .recvBuffer

/-- A pass that goes on goes on in step. -/
theorem InStep.pass (h : InStep s) (hp : s.pass = some (.ok s')) : InStep s' := by
  refine ⟨Swarm.pass_not_connecting h.1 hp rfl, fun hf => h.2 ?_⟩
  rw [processBuffer, Consumer.drain_of_some hp]
  exact hf

/-- The loop of `ProcessBuffer` interprets the wire format. -/
theorem interprets : consumer.Interprets Wire.framing (fun s => s.conn.state.phase)
    (fun s => s.conn.recvBuffer) forget handle InStep where
  waits := fun h hp => next_of_pass_eq_none h.1 hp
  takes := by
    intro s o h hp
    have hp : s.pass = some o := hp
    rcases pass_cases s with
        ⟨hp', -⟩ | ⟨hs, rest, hsh, hbuf, h68, hp'⟩ | ⟨rest, hns, hbuf, hp'⟩ |
        ⟨id, payload, rest, hns, hbuf, hlen, hp'⟩ | ⟨-, hp'⟩ <;> rw [hp'] at hp <;> cases hp
    · refine ⟨.handshake hs, .messages, rest, ?_, ?_, fun s' hok => ?_⟩
      · rw [hsh, hbuf]
        exact Wire.next_handshake h68 rest
      · exact (send_onBuffer (fun _ => []) (s.shaken hs rest) _).symm
      · have hin := h.pass (hp'.trans (congrArg some hok))
        rcases send_cases (s.shaken hs rest) Message.buildInterested with hs1 | ⟨e, hs1⟩ <;>
          rw [hs1] at hok <;> cases hok
        exact ⟨hin, rfl, rfl⟩
    · have hst := downloading_of_ne h.1 hns
      refine ⟨.keepAlive, .messages, rest, ?_, rfl, fun s' hok => ?_⟩
      · rw [hst, hbuf]
        exact Wire.next_keepAlive rest
      · have hin := h.pass (hp'.trans (congrArg some hok))
        cases hok
        exact ⟨hin, congrArg State.phase hst, rfl⟩
    · have hst := downloading_of_ne h.1 hns
      refine ⟨.message id payload, .messages, rest, ?_, ?_, fun s' hok => ?_⟩
      · rw [hst, hbuf]
        exact Wire.next_frame id hlen rest
      · exact (dispatch_onBuffer (fun _ => []) (s.framed id payload rest) id payload).symm
      · have hframe := dispatch_frame (congrArg Outcome.state? hok)
        exact ⟨h.pass (hp'.trans (congrArg some hok)),
          congrArg State.phase (hframe.state.trans hst), hframe.recvBuffer⟩
    · have hfault : s.processBuffer = .fault .recvBuffer := by
        rw [processBuffer, Consumer.drain_of_some (c := consumer) hp']
        rfl
      exact absurd hfault h.2

/-- The bytes of the chunks. -/
def stream (cs : List Chunk) : Buffer := cs.flatMap Chunk.bytes

/-- For a connection between two reads, with a socket and its handshake sent, reading a stream, cut
into any chunks, is handling its units in order, or it ends in the fault of a length that wraps
around.  The first exception drops the socket, and the units behind it are not handled. -/
theorem feedAll_eq_handleAll (hr : Resting s) (hopen : s.conn.socket = true)
    (hst : s.conn.state ≠ .connecting) (hne : ∀ c ∈ cs, c.bytes ≠ []) :
    s.feedAll cs = .fault .recvBuffer ∨ (s.feedAll cs).map forget =
      (handleAll (Wire.framing.units s.conn.state.phase (s.conn.recvBuffer ++ stream cs)).1
        s.forget).catching close := by
  induction cs generalizing s with
  | nil =>
      have hnone := next_of_pass_eq_none hst (hr hopen)
      rw [stream, List.flatMap_nil, List.append_nil, Framing.units_of_none hnone]
      exact .inr rfl
  | cons c cs ih =>
      obtain ⟨hc, hne⟩ := List.forall_mem_cons.mp hne
      have hread : s.onReadyRead (some c) = (s.append c.bytes).processBuffer.catching close := by
        rw [onReadyRead, if_pos hopen]
        exact if_neg hc
      rw [feedAll, hread]
      by_cases hfault : (s.append c.bytes).processBuffer = .fault .recvBuffer
      · rw [hfault]
        exact .inl rfl
      have hstream : s.conn.recvBuffer ++ stream (c :: cs) =
          s.conn.recvBuffer ++ c.bytes ++ stream cs := by
        rw [List.append_assoc]
        rfl
      obtain ⟨hmap, hleft⟩ := interprets.drain (s := s.append c.bytes) ⟨hst, hfault⟩
      have hmap : (s.append c.bytes).processBuffer.map forget = handleAll
        (Wire.framing.units s.conn.state.phase (s.conn.recvBuffer ++ c.bytes)).1 s.forget := hmap
      rw [hstream, Framing.units_append, handleAll, Consumer.handleAll_append, ← handleAll, ← hmap]
      cases ho : (s.append c.bytes).processBuffer with
      | ok s1 =>
          obtain ⟨hin, hunits⟩ := hleft s1 ho
          have hunits : (Wire.framing.units s.conn.state.phase (s.conn.recvBuffer ++ c.bytes)).2 =
            (s1.conn.state.phase, s1.conn.recvBuffer) := hunits
          rw [hunits]
          have hopen1 : s1.conn.socket = true :=
            (processBuffer_socket (congrArg Outcome.state? ho)).trans hopen
          exact ih (fun _ => (Consumer.drain_ok ho).2) hopen1 hin.1 hne
      | throw e s1 =>
          rw [Outcome.catching_throw, Outcome.andThen_ok, feedAll_of_closed rfl]
          exact .inr rfl
      | fault f => exact .inr rfl

theorem resting_shookHands : Resting shookHands := fun _ => pass_of_empty rfl

theorem three_length_le : [(0 : UInt8), 0, 0].length ≤ 8192 := by decide

theorem two_length_le : [(1 : UInt8), 1].length ≤ 8192 := by decide

/-- An `UNCHOKE` in two chunks. -/
def cutUnchoke : List Chunk := [⟨_, three_length_le⟩, ⟨_, two_length_le⟩]

/-- It is one unit. -/
theorem feedAll_eq_handleAll_cutUnchoke : (shookHands.feedAll cutUnchoke).map forget =
    (handleAll [.message Message.unchoke []] shookHands.forget).catching close := by
  have hunits : (Wire.framing.units shookHands.conn.state.phase
      (shookHands.conn.recvBuffer ++ stream cutUnchoke)).1 = [.message Message.unchoke []] := by
    decide +kernel
  have hne : ∀ c ∈ cutUnchoke, c.bytes ≠ [] := by decide
  have h := (feedAll_eq_handleAll resting_shookHands rfl State.noConfusion hne).resolve_left
    (by decide +kernel)
  rwa [hunits] at h

/-! ## Units that are ignored -/

end Session

/-- A unit the client acts on. -/
def Wire.Item.acts : Wire.Item → Bool
  | .handshake _ => true
  | .keepAlive => false
  | .message id _ => id == Message.unchoke || id == Message.bitfield || id == Message.choke ||
      id == Message.piece

/-- An event that is not a unit the client ignores. -/
def Event.acts (e : Event) : Bool := e.item?.all Wire.Item.acts

/-- The log without the units that are ignored. -/
def acting (log : List Event) : List Event := log.filter Event.acts

theorem acting_concat {log : List Event} {e : Event} (h : e.acts = true) :
    acting (log ++ [e]) = acting log ++ [e] := by
  rw [acting, List.filter_append, List.filter_singleton, h]
  rfl

theorem acting_concat_ignored {log : List Event} {e : Event} (h : e.acts = false) :
    acting (log ++ [e]) = acting log := by
  rw [acting, List.filter_append, List.filter_singleton, h]
  exact List.append_nil _

namespace Session

/-- The session without its buffer, and without what is ignored in the log. -/
def hush (s : Session) : Session :=
  s.setConn fun c => { c with recvBuffer := [], log := acting c.log }

section Hush

variable (s : Session)

@[simp] theorem hush_dl : s.hush.dl = s.dl := rfl
@[simp] theorem hush_results : s.hush.results = s.results := rfl
@[simp] theorem hush_choked : s.hush.conn.choked = s.conn.choked := rfl
@[simp] theorem hush_currentPiece : s.hush.conn.currentPiece = s.conn.currentPiece := rfl
@[simp] theorem hush_blockOffset : s.hush.conn.blockOffset = s.conn.blockOffset := rfl
@[simp] theorem hush_request (n : Int64) : s.hush.request n = s.request n := rfl
@[simp] theorem hush_hasPiece (i : Int32) : s.hush.conn.hasPiece i = s.conn.hasPiece i := rfl
@[simp] theorem hush_nextCandidate :
    s.hush.nextCandidate = (s.nextCandidate.1, s.nextCandidate.2.hush) := rfl

theorem sending_hush (b : Buffer) : s.hush.sending b = (s.sending b).hush := by
  simp only [hush, sending, setConn, Connection.logged]
  rw [acting_concat rfl]

theorem take_hush (i : Int32) : s.hush.take i = (s.take i).hush := by
  simp only [hush, take, setConn, Connection.logged]
  rw [acting_concat rfl]

theorem skip_hush (i : Int32) : s.hush.skip i = (s.skip i).hush := by
  simp only [hush, skip, setConn, Connection.logged]
  rw [acting_concat rfl]

theorem send_hush (b : Buffer) : s.hush.send b = (s.send b).map hush := by
  simp only [send, hush_results, sending_hush]
  split <;> rfl

theorem tryCandidate_hush {miss : Session → Bool × Session}
    (h : ∀ s : Session, miss s.hush = ((miss s).1, (miss s).2.hush)) :
    tryCandidate miss s.hush = ((tryCandidate miss s).1, (tryCandidate miss s).2.hush) := by
  simp only [tryCandidate, hush_nextCandidate, hush_hasPiece, take_hush, skip_hush, h]
  split
  · rfl
  · split <;> rfl

theorem findPiece_hush (left : Nat) :
    findPiece left s.hush = ((findPiece left s).1, (findPiece left s).2.hush) := by
  induction left generalizing s with
  | zero => exact tryCandidate_hush s fun _ => rfl
  | succ left ih => exact tryCandidate_hush s ih

theorem sendRequest_hush (n : Int64) :
    s.hush.sendRequest n = (s.sendRequest n).map hush := by
  simp only [sendRequest, hush_blockOffset, hush_request, send_hush]
  split
  · exact Outcome.map_andThen fun _ => rfl
  · rfl

theorem finishPiece_hush (n : Int64) : s.hush.finishPiece n = (s.finishPiece n).hush := by
  by_cases h : s.conn.blockOffset.toInt ≥ n.toInt
  · rw [finishPiece, finishPiece, if_pos h, hush_blockOffset, if_pos h]
    rfl
  · rw [finishPiece, finishPiece, if_neg h, hush_blockOffset, if_neg h]

theorem requestBlock_hush : s.hush.requestBlock = s.requestBlock.map hush := by
  simp only [requestBlock, hush_dl, hush_currentPiece]
  cases s.dl.torrent.pieceLen s.conn.currentPiece.toInt with
  | error f => rfl
  | ok n =>
      rw [Outcome.checked_ok, Outcome.checked_ok, sendRequest_hush]
      exact Outcome.map_andThen fun s1 => congrArg Outcome.ok (finishPiece_hush s1 n)

theorem requestNextBlock_hush : s.hush.requestNextBlock = s.requestNextBlock.map hush := by
  simp only [requestNextBlock, hush_choked, hush_currentPiece, hush_dl, findPiece_hush]
  split
  · rfl
  · split
    · split
      · exact requestBlock_hush _
      · rfl
    · exact requestBlock_hush s

theorem deliver_hush (c : Downloader.Call) : s.hush.deliver c = (s.deliver c).map hush := by
  simp only [deliver, hush_dl]
  cases Downloader.receive s.dl c <;> rfl

theorem onPiece_hush (payload : Buffer) : s.hush.onPiece payload = (s.onPiece payload).map hush := by
  simp only [onPiece]
  cases BufferUtils.readBE32 payload 0 with
  | error e => rfl
  | ok index =>
      cases BufferUtils.readBE32 payload 4 with
      | error e => rfl
      | ok begin_ =>
          simp only [Outcome.tryThen_ok, hush_results, deliver_hush]
          exact Outcome.map_andThen requestNextBlock_hush

theorem dispatch_hush (id : UInt8) (payload : Buffer) :
    s.hush.dispatch id payload = (s.dispatch id payload).map hush := by
  simp only [dispatch]
  split
  · exact requestNextBlock_hush s.unchoked
  · split
    · rfl
    · split
      · rfl
      · split
        · exact onPiece_hush s payload
        · rfl

/-- A unit the client acts on does the same whatever was ignored before. -/
theorem handle_hush {x : Wire.Item} (hx : x.acts = true) : handle x s.hush = (handle x s).map hush := by
  cases x with
  | handshake hs =>
      have hshaken : s.hush.shaken hs [] = (s.shaken hs []).hush := by
        simp only [hush, shaken, setConn, Connection.logged]
        rw [acting_concat rfl]
      rw [handle, hshaken, send_hush]
      rfl
  | keepAlive => cases hx
  | message id payload =>
      have hframed : s.hush.framed id payload [] = (s.framed id payload []).hush := by
        simp only [hush, framed, setConn, Connection.logged]
        rw [acting_concat (e := .frame id payload) hx]
      rw [handle, hframed, dispatch_hush]
      rfl

/-- A unit that is ignored leaves nothing but itself. -/
theorem handle_ignored {x : Wire.Item} (hx : x.acts = false) :
    (handle x s).map hush = .ok s.hush := by
  cases x with
  | handshake hs => cases hx
  | keepAlive =>
      simp only [handle, Outcome.map_ok, hush, kept, setConn, Connection.logged]
      rw [acting_concat_ignored rfl]
  | message id payload =>
      have hframed : (s.framed id payload []).hush = s.hush := by
        simp only [hush, framed, setConn, Connection.logged]
        rw [acting_concat_ignored (e := .frame id payload) hx]
      simp only [Wire.Item.acts, Bool.or_eq_false_iff, beq_eq_false_iff_ne] at hx
      rcases dispatch_cases (s.framed id payload []) id payload with
          ⟨hid, -⟩ | ⟨hid, -⟩ | ⟨hid, -⟩ | ⟨hid, -⟩ | ⟨-, -, -, -, hd⟩
      · exact absurd hid hx.1.1.1
      · exact absurd hid hx.1.1.2
      · exact absurd hid hx.1.2
      · exact absurd hid hx.2
      · rw [handle, hd, Outcome.map_ok, hframed]

/-- Units that are ignored can be left out. -/
theorem handleAll_hush (xs : List Wire.Item) :
    (handleAll xs s).map hush = handleAll (xs.filter Wire.Item.acts) s.hush := by
  induction xs generalizing s with
  | nil => rfl
  | cons x xs ih =>
      have hrest : ∀ o : Outcome Exn Fault Session, (o.andThen (handleAll xs)).map hush =
          (o.map hush).andThen (handleAll (xs.filter Wire.Item.acts)) := by
        intro o
        cases o with
        | ok s1 => exact ih s1
        | throw e s1 => rfl
        | fault f => rfl
      have hcons : handleAll (x :: xs) s = (handle x s).andThen (handleAll xs) := rfl
      rw [hcons, hrest]
      cases hx : x.acts with
      | true =>
          rw [List.filter_cons_of_pos hx, ← handle_hush s hx]
          rfl
      | false =>
          rw [List.filter_cons_of_neg (Bool.not_eq_true _ ▸ hx), handle_ignored s hx]
          rfl

end Hush

/-- For a connection between two reads, with a socket and its handshake sent, two streams with the same
handshake and the same `CHOKE`, `UNCHOKE`, `BITFIELD` and `PIECE` messages lead to the same state,
whatever else is in them and however they are cut, if neither ends in the fault of a length that wraps
around. -/
theorem feedAll_eq_of_acts {cs' : List Chunk} (hr : Resting s) (hopen : s.conn.socket = true)
    (hst : s.conn.state ≠ .connecting) (hne : ∀ c ∈ cs, c.bytes ≠ []) (hne' : ∀ c ∈ cs', c.bytes ≠ [])
    (hf : s.feedAll cs ≠ .fault .recvBuffer) (hf' : s.feedAll cs' ≠ .fault .recvBuffer)
    (hacts : (Wire.framing.units s.conn.state.phase (s.conn.recvBuffer ++ stream cs)).1.filter
        Wire.Item.acts =
      (Wire.framing.units s.conn.state.phase (s.conn.recvBuffer ++ stream cs')).1.filter
        Wire.Item.acts) :
    (s.feedAll cs).map hush = (s.feedAll cs').map hush := by
  have key : ∀ ds : List Chunk, (∀ c ∈ ds, c.bytes ≠ []) → s.feedAll ds ≠ .fault .recvBuffer →
      (s.feedAll ds).map hush = (handleAll ((Wire.framing.units s.conn.state.phase
        (s.conn.recvBuffer ++ stream ds)).1.filter Wire.Item.acts) s.hush).catching close := by
    intro ds hds hfd
    have hforget : ∀ o : Outcome Exn Fault Session, (o.map forget).map hush = o.map hush := by
      intro o
      cases o <;> rfl
    have hclose : ∀ o : Outcome Exn Fault Session,
        (o.catching close).map hush = (o.map hush).catching close := by
      intro o
      cases o <;> rfl
    rw [← hforget, (feedAll_eq_handleAll hr hopen hst hds).resolve_left hfd, hclose, handleAll_hush]
    rfl
  rw [key cs hne hf, key cs' hne' hf', hacts]

theorem have_length_le : (Message.buildKeepAlive ++ Message.frame 4 [0, 0, 0, 1] ++
    Message.buildUnchoke).length ≤ 8192 := by decide

/-- A keep-alive, a `HAVE` and an `UNCHOKE`. -/
def haveUnchoke : List Chunk := [⟨_, have_length_le⟩]

/-- The `UNCHOKE` is all that counts. -/
theorem feedAll_eq_of_acts_haveUnchoke :
    (shookHands.feedAll cutUnchoke).map hush = (shookHands.feedAll haveUnchoke).map hush :=
  feedAll_eq_of_acts resting_shookHands rfl State.noConfusion (by decide) (by decide)
    (by decide +kernel) (by decide +kernel) (by decide +kernel)

end Session

end NodeLink
