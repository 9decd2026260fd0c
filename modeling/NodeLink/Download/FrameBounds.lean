import NodeLink.Download.ProcessBuffer
import NodeLink.Download.BlockBounds

/-!
# The bounds of a frame

The guard of `ProcessBuffer` adds the length prefix to 4 in `uint32_t`.  From
`2 ^ 32 - 4` on the sum wraps around and every buffer passes.  The accesses that
follow use the exact sum.

At one head of the loop, the accesses stay inside `recv_buffer` exactly if the
length does not wrap around on a frame that is not there (`frameSafe_iff`).
`forall_frameSafe_iff` lifts this to all heads of a call.
-/

namespace NodeLink

open Cpp Stream

namespace Session

variable {s s' : Session} {f : Fault}

/-! ## The messages do not access the buffer -/

theorem send_ne_fault {b : Buffer} : s.send b ≠ .fault f := by
  simp only [send]
  split <;> simp

theorem pieceLen_error {t : TorrentFile} {i : Int} (h : t.pieceLen i = .error f) : f = .division := by
  simp only [TorrentFile.pieceLen] at h
  split at h
  · split at h
    · cases h; rfl
    · split at h <;> cases h
  · cases h

/-- A request faults only in the remainder. -/
theorem requestBlock_fault (h : s.requestBlock = .fault f) : f = .division := by
  simp only [requestBlock] at h
  cases hl : s.dl.torrent.pieceLen s.conn.currentPiece.toInt with
  | error g =>
      rw [hl] at h
      cases h
      exact pieceLen_error hl
  | ok n =>
      rw [hl, Outcome.checked_ok, sendRequest] at h
      split at h
      · cases hs : s.send (s.request n) with
        | ok s1 => rw [hs] at h; cases h
        | throw e s1 => rw [hs] at h; cases h
        | fault g => exact absurd hs send_ne_fault
      · cases h

theorem requestNextBlock_fault (h : s.requestNextBlock = .fault f) : f = .division := by
  unfold requestNextBlock at h
  split at h
  · cases h
  · split at h
    · dsimp only at h
      split at h
      · exact requestBlock_fault h
      · cases h
    · exact requestBlock_fault h

theorem receive_ne_fault_recvBuffer {d : Downloader} {c : Downloader.Call} :
    Downloader.receive d c ≠ .fault .recvBuffer := by
  intro h
  rcases Downloader.receive_fault_cases h with h1 | ⟨d1, -, h2 | ⟨d2, -, h3⟩⟩
  · cases (Downloader.switchPiece_fault h1).1
  · cases (Downloader.copyBlock_fault h2).1
  · cases (Downloader.checkIntegrity_fault h3).1

theorem onPiece_ne_fault {payload : Buffer} : s.onPiece payload ≠ .fault .recvBuffer := by
  intro h
  simp only [onPiece] at h
  cases h0 : BufferUtils.readBE32 payload 0 with
  | error e => rw [h0] at h; cases h
  | ok index =>
      cases h4 : BufferUtils.readBE32 payload 4 with
      | error e => rw [h0, h4] at h; cases h
      | ok begin_ =>
          rw [h0, h4, Outcome.tryThen_ok, Outcome.tryThen_ok, deliver] at h
          cases hr : Downloader.receive s.dl
              ⟨s.results.headD true, index.toInt32, begin_.toInt32, payload.drop 8⟩ with
          | ok d =>
              rw [hr] at h
              cases requestNextBlock_fault h
          | throw e d => rw [hr] at h; cases h
          | fault g =>
              rw [hr] at h
              cases h
              exact receive_ne_fault_recvBuffer hr

theorem dispatch_ne_fault {id : UInt8} {payload : Buffer} :
    s.dispatch id payload ≠ .fault .recvBuffer := by
  intro h
  simp only [dispatch] at h
  split at h
  · cases requestNextBlock_fault h
  · split at h
    · cases h
    · split at h
      · cases h
      · split at h
        · exact onPiece_ne_fault h
        · cases h

/-! ## The bounds -/

/-- What a pass should do: no access is outside `recv_buffer`, and where the next unit is not
complete the loop stops with everything as it is. -/
def FrameSafe (s : Session) : Prop :=
  s.pass ≠ some (.fault .recvBuffer) ∧ (¬ s.Complete → s.processBuffer = .ok s)

/-- A pass leaves the buffer exactly if the length wraps around. -/
theorem pass_fault_iff (s : Session) : s.pass = some (.fault .recvBuffer) ↔ s.LengthWraps := by
  refine ⟨fun h => ?_, pass_wraps⟩
  rcases pass_cases s with
      ⟨hp, -⟩ | ⟨hs, rest, -, -, -, hp⟩ | ⟨rest, -, -, hp⟩ | ⟨id, payload, rest, -, -, -, hp⟩ |
      ⟨hw, -⟩
  · rw [hp] at h
    cases h
  · rw [hp] at h
    exact absurd (Option.some.inj h) send_ne_fault
  · rw [hp] at h
    cases h
  · rw [hp] at h
    exact absurd (Option.some.inj h) dispatch_ne_fault
  · exact hw

/-- At one head of the loop. -/
theorem frameSafe_iff (s : Session) : s.FrameSafe ↔ ¬ s.LengthWraps := by
  constructor
  · intro h hw
    exact h.1 (pass_wraps hw)
  · intro hw
    exact ⟨mt (pass_fault_iff s).mp hw, fun hc => Consumer.drain_of_none (pass_eq_none hc hw)⟩

/-- The loop leaves the buffer exactly if the length wraps around at one of its heads. -/
theorem processBuffer_fault_iff (s : Session) :
    s.processBuffer = .fault .recvBuffer ↔ ∃ s', consumer.Head s s' ∧ s'.LengthWraps :=
  Consumer.drain_fault_iff.trans
    (exists_congr fun s' => and_congr_right fun _ => pass_fault_iff s')

/-- At all heads the loop comes to from any state. -/
theorem forall_frameSafe_iff (s : Session) :
    (∀ s', consumer.Head s s' → s'.FrameSafe) ↔ ∀ s', consumer.Head s s' → ¬ s'.LengthWraps :=
  forall_congr' fun s' => imp_congr_right fun _ => frameSafe_iff s'

/-- A connection that has just taken a handshake of 68 zeros. -/
def shookHands : Session where
  conn := { Connection.init with
    state := .downloading
    handshakeDone := true
    log := [.sent (Message.buildHandshake Downloader.twoBytes []),
      .handshake (List.replicate 68 0), .sent Message.buildInterested] }
  dl := .init Downloader.twoBytes []
  results := []

/-- After a handshake, the four bytes of the length `2 ^ 32 - 1`: the sum is 3, the guard lets the
frame through, and the id is read behind the buffer. -/
theorem length_wraps_around :
    (onReadyWrite ⟨.init, .init Downloader.twoBytes [], []⟩).andThen
      (·.onReadyRead (some ⟨List.replicate 68 0, by decide⟩)) = .ok shookHands ∧
    shookHands.onReadyRead (some ⟨[0xFF, 0xFF, 0xFF, 0xFF], by decide⟩) = .fault .recvBuffer ∧
    ¬ (shookHands.append [0xFF, 0xFF, 0xFF, 0xFF]).Complete ∧
    ¬ ∀ s', consumer.Head (shookHands.append [0xFF, 0xFF, 0xFF, 0xFF]) s' → s'.FrameSafe := by
  refine ⟨rfl, by decide +kernel, by decide +kernel, fun h => ?_⟩
  have hw : (shookHands.append [0xFF, 0xFF, 0xFF, 0xFF]).LengthWraps := by decide +kernel
  exact (h _ .entry).1 (pass_wraps hw)

end Session

end NodeLink
