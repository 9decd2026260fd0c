import NodeLink.Download.Connection

/-!
# The read loop

What one pass of the loop in `ProcessBuffer` does depends on what stands at the
front of `recv_buffer`.  `pass_cases` lists it in terms of the wire: nothing
complete, a handshake, a keep-alive, a frame, or a length whose sum with the
prefix wraps around.  `pass_handshake`, `pass_keepAlive` and `pass_frame` are
the other direction.

Every pass that goes on shortens the buffer, so the loop is a
`Stream.Consumer`, and `processBuffer` is its `drain`.  `onReadyWrite` and
`onReadyRead` are what the event loop calls.
-/

namespace NodeLink

open Cpp

namespace Session

variable {s s' : Session}

/-! ## The front of the buffer -/

/-- The length prefix, as an exact number. -/
def frameLen (s : Session) : Nat := (Message.readMessageLength s.conn.recvBuffer).toNat

/-- All bytes of the next unit are there: those of the handshake, or those of a prefix and of the
frame it announces. -/
def Complete (s : Session) : Prop :=
  if s.conn.state = .handshaking then 68 ≤ s.conn.recvBuffer.length
  else 4 ≤ s.conn.recvBuffer.length ∧ 4 + s.frameLen ≤ s.conn.recvBuffer.length

instance (s : Session) : Decidable s.Complete := by
  simp only [Complete]
  infer_instance

/-- The sum of the prefix and the length it announces is past `2 ^ 32`, and the frame is not there. -/
def LengthWraps (s : Session) : Prop :=
  s.conn.state ≠ .handshaking ∧ 4 ≤ s.conn.recvBuffer.length ∧ 2 ^ 32 ≤ 4 + s.frameLen ∧
    s.conn.recvBuffer.length < 4 + s.frameLen

instance (s : Session) : Decidable s.LengthWraps := inferInstanceAs (Decidable (_ ∧ _))

/-- The accesses of a frame that is there. -/
theorem takeFrame_frame (id : UInt8) (payload rest : Buffer) :
    takeFrame (Message.frame id payload ++ rest) (payload.length + 1) = .ok (id, payload, rest) := by
  have hL : (Message.frame id payload ++ rest).length = payload.length + 5 + rest.length := by
    rw [List.length_append, Message.frame_length]
  have hid : byteAt (Message.frame id payload ++ rest) 4 = .ok id := by
    rw [byteAt, if_pos (by omega)]
    rfl
  have hpayload : payloadOf (Message.frame id payload ++ rest) (payload.length + 1) =
      .ok payload := by
    simp only [payloadOf, bytesIn]
    by_cases hlen : payload.length + 1 > 1
    · rw [if_pos hlen, if_pos (by omega), List.take_append_of_le_length (by simp; omega),
        List.take_of_length_le (by simp; omega)]
      rfl
    · rw [if_neg hlen, List.eq_nil_of_length_eq_zero (l := payload) (by omega)]
  have herase : erased (Message.frame id payload ++ rest) (4 + (payload.length + 1)) = .ok rest := by
    rw [erased, if_pos (by omega), List.drop_append_of_le_length (by simp; omega),
      List.drop_of_length_le (by simp; omega)]
    rfl
  simp only [takeFrame]
  rw [hid, hpayload, herase]
  rfl

/-- The frame at the front of a buffer is announced, and taken. -/
theorem takeFrame_announced (id : UInt8) {payload : Buffer} (h : payload.length + 1 < 2 ^ 32)
    (rest : Buffer) : Message.readMessageLength (Message.frame id payload ++ rest) ≠ 0 ∧
      takeFrame (Message.frame id payload ++ rest)
        (Message.readMessageLength (Message.frame id payload ++ rest)).toNat =
          .ok (id, payload, rest) := by
  have hn : (Message.readMessageLength (Message.frame id payload ++ rest)).toNat =
      payload.length + 1 := Message.readMessageLength_frame h rest
  refine ⟨fun h0 => ?_, by rw [hn, takeFrame_frame]⟩
  rw [h0] at hn
  exact absurd hn (Nat.succ_ne_zero _).symm

/-- Some access of a frame that is not there is outside the buffer. -/
theorem takeFrame_short {b : Buffer} {n : Nat} (h : b.length < 4 + n) :
    takeFrame b n = .error .recvBuffer := by
  have herase : erased b (4 + n) = .error .recvBuffer := by
    rw [erased, if_neg (by omega)]
  simp only [takeFrame]
  rw [herase]
  by_cases h4 : 4 < b.length
  · rw [byteAt, if_pos h4, payloadOf, bytesIn]
    by_cases hlen : n > 1
    · rw [if_pos hlen, if_neg (by omega)]
      rfl
    · rw [if_neg hlen]
      rfl
  · rw [byteAt, if_neg h4]
    rfl

/-- A buffer that is long enough for the frame it announces starts with one. -/
theorem exists_frame {b : Buffer} (h4 : 4 ≤ b.length) (h0 : Message.readMessageLength b ≠ 0)
    (h : 4 + (Message.readMessageLength b).toNat ≤ b.length) :
    ∃ id payload rest, b = Message.frame id payload ++ rest ∧
      payload.length + 1 = (Message.readMessageLength b).toNat := by
  have hw : Message.readMessageLength b = wordAt b 0 := by
    rw [Message.readMessageLength, if_neg (by omega)]
  have hpos : (Message.readMessageLength b).toNat ≠ 0 := fun hz =>
    h0 (UInt32.toNat_inj.mp (hz.trans rfl))
  generalize hn : (Message.readMessageLength b).toNat = n at h hpos
  have hrest : (b.drop 4).length = b.length - 4 := List.length_drop
  obtain ⟨id, tail, htail⟩ : ∃ id tail, b.drop 4 = id :: tail := by
    cases hd : b.drop 4 with
    | nil => rw [hd, List.length_nil] at hrest; omega
    | cons id tail => exact ⟨id, tail, rfl⟩
  rw [htail, List.length_cons] at hrest
  have hlen : (tail.take (n - 1)).length = n - 1 := by
    rw [List.length_take]
    omega
  refine ⟨id, tail.take (n - 1), tail.drop (n - 1), ?_, by omega⟩
  have hofNat : UInt32.ofNat ((tail.take (n - 1)).length + 1) = wordAt b 0 := by
    rw [hlen, Nat.sub_add_cancel (by omega), ← hn, ← hw, UInt32.ofNat_toNat]
  rw [Message.frame, hofNat, bytesBE32_wordAt h4, List.append_assoc, List.cons_append,
    List.take_append_drop, ← htail, List.take_append_drop]

/-! ## One pass -/

theorem pass_handshake {hs rest : Buffer} (hst : s.conn.state = .handshaking)
    (hb : s.conn.recvBuffer = hs ++ rest) (hlen : hs.length = 68) :
    s.pass = some ((s.shaken hs rest).send Message.buildInterested) := by
  have h68 : ¬ (hs ++ rest).length < 68 := by
    rw [List.length_append]
    omega
  simp only [pass]
  rw [if_pos hst, hb, if_neg h68, erased, if_pos (by omega), ← hlen, List.take_left,
    List.drop_left, Outcome.checked_ok]

theorem pass_keepAlive {rest : Buffer} (hst : s.conn.state ≠ .handshaking)
    (hb : s.conn.recvBuffer = Message.buildKeepAlive ++ rest) :
    s.pass = some (.ok (s.kept rest)) := by
  have h4 : ¬ (Message.buildKeepAlive ++ rest).length < 4 := by
    rw [List.length_append]
    exact Nat.not_lt.mpr (Nat.le_add_right 4 _)
  unfold pass
  rw [if_neg hst, hb, if_neg h4]
  dsimp only
  rw [if_pos (Message.readMessageLength_keepAlive rest), erased, if_pos (by omega)]
  rfl

theorem pass_frame {id : UInt8} {payload rest : Buffer} (hst : s.conn.state ≠ .handshaking)
    (hb : s.conn.recvBuffer = Message.frame id payload ++ rest)
    (hlen : payload.length + 1 < 2 ^ 32) :
    s.pass = some ((s.framed id payload rest).dispatch id payload) := by
  have hL : (Message.frame id payload ++ rest).length = payload.length + 5 + rest.length := by
    rw [List.length_append, Message.frame_length]
  have hn : (Message.readMessageLength (Message.frame id payload ++ rest)).toNat =
      payload.length + 1 := Message.readMessageLength_frame hlen rest
  obtain ⟨h0, htake⟩ := takeFrame_announced id hlen rest
  have hguard : ¬ (Message.frame id payload ++ rest).length <
      (4 + Message.readMessageLength (Message.frame id payload ++ rest)).toNat := by
    rw [UInt32.toNat_add, hn, hL]
    have := Nat.mod_le ((4 : UInt32).toNat + (payload.length + 1)) (2 ^ 32)
    have h4 : (4 : UInt32).toNat = 4 := rfl
    omega
  unfold pass
  rw [if_neg hst, hb, if_neg (by omega)]
  dsimp only
  rw [if_neg h0, if_neg hguard, htake]
  rfl

/-- A length that wraps around passes the guard, and the accesses do not stay in the buffer. -/
theorem pass_wraps (h : s.LengthWraps) : s.pass = some (.fault .recvBuffer) := by
  obtain ⟨hst, h4, hwrap, hshort⟩ := h
  have hlt := (Message.readMessageLength s.conn.recvBuffer).toNat_lt
  simp only [frameLen] at hwrap hshort
  have h0 : Message.readMessageLength s.conn.recvBuffer ≠ 0 := by
    intro h0
    rw [h0] at hwrap
    exact absurd hwrap (by decide)
  have hguard : ¬ s.conn.recvBuffer.length <
      (4 + Message.readMessageLength s.conn.recvBuffer).toNat := by
    rw [UInt32.toNat_add]
    have h4 : (4 : UInt32).toNat = 4 := rfl
    omega
  unfold pass
  rw [if_neg hst, if_neg (by omega)]
  dsimp only
  rw [if_neg h0, if_neg hguard, takeFrame_short hshort]
  rfl

/-- A pass stops the loop exactly if the next unit is not complete and its length does not wrap. -/
theorem pass_eq_none (h : ¬ s.Complete) (hw : ¬ s.LengthWraps) : s.pass = none := by
  simp only [Complete] at h
  unfold pass
  by_cases hst : s.conn.state = .handshaking
  · rw [if_pos hst] at h
    rw [if_pos hst, if_pos (by omega)]
  · rw [if_neg hst] at h
    rw [if_neg hst]
    by_cases h4 : s.conn.recvBuffer.length < 4
    · rw [if_pos h4]
    · have hlt := (Message.readMessageLength s.conn.recvBuffer).toNat_lt
      unfold LengthWraps at hw
      unfold frameLen at h hw
      rw [if_neg h4]
      dsimp only
      have h0 : Message.readMessageLength s.conn.recvBuffer ≠ 0 := by
        intro h0
        rw [h0] at h
        exact h ⟨by omega, by rw [show (0 : UInt32).toNat = 0 from rfl]; omega⟩
      rw [if_neg h0, if_pos]
      rw [UInt32.toNat_add]
      have h4 : (4 : UInt32).toNat = 4 := rfl
      have hno : ¬ 2 ^ 32 ≤ 4 + (Message.readMessageLength s.conn.recvBuffer).toNat := fun hn =>
        hw ⟨hst, by omega, hn, by omega⟩
      omega

/-- An empty buffer holds no complete unit. -/
theorem pass_of_empty (h : s.conn.recvBuffer = []) : s.pass = none := by
  simp only [pass]
  rw [h]
  split <;> rfl

/-- Everything a pass can do, by what stands at the front of the buffer. -/
theorem pass_cases (s : Session) :
    (s.pass = none ∧ ¬ s.Complete ∧ ¬ s.LengthWraps) ∨
    (∃ hs rest, s.conn.state = .handshaking ∧ s.conn.recvBuffer = hs ++ rest ∧ hs.length = 68 ∧
      s.pass = some ((s.shaken hs rest).send Message.buildInterested)) ∨
    (∃ rest, s.conn.state ≠ .handshaking ∧ s.conn.recvBuffer = Message.buildKeepAlive ++ rest ∧
      s.pass = some (.ok (s.kept rest))) ∨
    (∃ id payload rest, s.conn.state ≠ .handshaking ∧
      s.conn.recvBuffer = Message.frame id payload ++ rest ∧ payload.length + 1 < 2 ^ 32 ∧
      s.pass = some ((s.framed id payload rest).dispatch id payload)) ∨
    (s.LengthWraps ∧ s.pass = some (.fault .recvBuffer)) := by
  by_cases hw : s.LengthWraps
  · exact .inr (.inr (.inr (.inr ⟨hw, pass_wraps hw⟩)))
  by_cases hc : s.Complete
  · refine .inr ?_
    simp only [Complete] at hc
    by_cases hst : s.conn.state = .handshaking
    · rw [if_pos hst] at hc
      have hb := (List.take_append_drop 68 s.conn.recvBuffer).symm
      have hlen : (s.conn.recvBuffer.take 68).length = 68 := by
        rw [List.length_take]
        omega
      exact .inl ⟨_, _, hst, hb, hlen, pass_handshake hst hb hlen⟩
    · rw [if_neg hst] at hc
      refine .inr ?_
      by_cases h0 : Message.readMessageLength s.conn.recvBuffer = 0
      · have hb : s.conn.recvBuffer = Message.buildKeepAlive ++ s.conn.recvBuffer.drop 4 := by
          have hw : wordAt s.conn.recvBuffer 0 = 0 := by
            rw [Message.readMessageLength, if_neg (by omega)] at h0
            exact h0
          have hz : Message.buildKeepAlive = s.conn.recvBuffer.take 4 := by
            rw [← bytesBE32_wordAt hc.1, hw]
            rfl
          rw [hz, List.take_append_drop]
        exact .inl ⟨_, hst, hb, pass_keepAlive hst hb⟩
      · obtain ⟨id, payload, rest, hb, hlen⟩ := exists_frame hc.1 h0 hc.2
        have hlt := (Message.readMessageLength s.conn.recvBuffer).toNat_lt
        exact .inr (.inl ⟨id, payload, rest, hst, hb, by omega, pass_frame hst hb (by omega)⟩)
  · exact .inl ⟨pass_eq_none hc hw, hc, hw⟩

/-- Every pass that goes on shortens the buffer. -/
theorem pass_recvBuffer_lt (h : s.pass = some (.ok s')) :
    s'.conn.recvBuffer.length < s.conn.recvBuffer.length := by
  rcases pass_cases s with
      ⟨hp, -⟩ | ⟨hs, rest, -, hb, hlen, hp⟩ | ⟨rest, -, hb, hp⟩ |
      ⟨id, payload, rest, -, hb, -, hp⟩ | ⟨-, hp⟩
  · rw [hp] at h
    cases h
  · rw [hp, Option.some.injEq] at h
    rw [send_recvBuffer (by rw [h]; rfl), shaken_conn, hb, List.length_append]
    simp only
    omega
  · rw [hp, Option.some.injEq] at h
    cases h
    rw [kept_conn, hb, List.length_append]
    simp [Message.buildKeepAlive]
  · rw [hp, Option.some.injEq] at h
    rw [dispatch_recvBuffer (by rw [h]; rfl), framed_conn, hb, List.length_append,
      Message.frame_length]
    simp only
    omega
  · rw [hp] at h
    cases h

/-! ## The loop and the events -/

/-- The loop of `ProcessBuffer`. -/
def consumer : Stream.Consumer Exn Fault Session where
  pass := pass
  size s := s.conn.recvBuffer.length
  size_lt := pass_recvBuffer_lt

/-- `ProcessBuffer`. -/
def processBuffer (s : Session) : Outcome Exn Fault Session := consumer.drain s

/-- `socket = nullptr`. -/
def close (s : Session) : Session := s.setConn Connection.close

/-- `OnReadyWrite`. -/
def onReadyWrite (s : Session) : Outcome Exn Fault Session :=
  if s.conn.socket ∧ s.conn.state = .connecting then
    Outcome.catching close
      ((s.send (Message.buildHandshake s.dl.torrent s.dl.myId)).andThen fun s =>
        .ok (s.setConn fun c => { c with state := .handshaking }))
  else .ok s

/-- What `Receive(8192)` can return. -/
structure Chunk where
  bytes : Buffer
  length_le : bytes.length ≤ 8192
deriving DecidableEq

/-- The state with more bytes in `recv_buffer`. -/
def append (s : Session) (chunk : Buffer) : Session := s.onBuffer (· ++ chunk)

/-- `OnReadyRead`, when `Receive` returns a chunk or throws (`none`).  An empty chunk is the end of
the stream. -/
def onReadyRead (s : Session) (received : Option Chunk) : Outcome Exn Fault Session :=
  if s.conn.socket then
    match received with
    | none => .ok s.close
    | some chunk =>
        if chunk.bytes = [] then .ok s.close
        else Outcome.catching close (s.append chunk.bytes).processBuffer
  else .ok s

end Session

end NodeLink
