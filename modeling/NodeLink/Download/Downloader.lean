import Mathlib.Tactic.Simps.Basic
import NodeLink.Cpp.Int
import NodeLink.Cpp.Outcome
import NodeLink.Parsing.Sha1
import NodeLink.Parsing.TorrentFile
import NodeLink.Download.Worker

/-!
# The downloader

`Downloader` is the state all connections share: one piece buffer with its
counter and index, the request counter, and the queue of the writer.
`onBlockReceivedIn` is `Downloader::OnBlockReceived`, cut into the three parts of
the source: a change of piece, the copy, and the integrity check.  Each part that
allocates is told whether the memory is there.  `onBlockReceived` is the case in
which only a change of piece may run out of it, and that is the one `receive` and
the connections take.

Containers hold fewer than `2 ^ 63` elements, so a comparison of an `int` with a
container's `size()` is made on exact integers here: converted to `size_t`, a
negative `int` is above every size.  The sums the source forms in `size_t` and
in `int` are kept as it forms them.

Each part has an inversion lemma that says everything it can do
(`switchPiece_cases`, `copyBlock_cases`, `checkIntegrity_cases`).  Facts about
runs are derived from these.
-/

namespace NodeLink

open Cpp

/-- The undefined behaviour the code can run into. -/
inductive Fault where
  /-- An access outside `recv_buffer`. -/
  | recvBuffer
  /-- A copy outside `piece_buffer`. -/
  | pieceBuffer
  /-- A read outside `piece_hashes`. -/
  | pieceHashes
  /-- A division by zero, or the one that overflows. -/
  | division
deriving DecidableEq, Repr

/-! ## Pieces of a torrent -/

namespace TorrentFile

/-- `index == piece_hashes.size() - 1`. -/
def IsLast (t : TorrentFile) (i : Int) : Prop := i = (t.pieceHashes.length : Int) - 1

instance (t : TorrentFile) (i : Int) : Decidable (t.IsLast i) :=
  inferInstanceAs (Decidable (_ = _))

/-- The length of a piece, as `OnBlockReceived` and `RequestNextBlock` compute it: the remainder
for a short last piece. -/
def pieceLen (t : TorrentFile) (i : Int) : Except Fault Int64 :=
  if t.IsLast i then
    if t.pieceLength = 0 ∨ (t.length = Int64.minValue ∧ t.pieceLength = -1) then .error .division
    else if t.length % t.pieceLength ≠ 0 then .ok (t.length % t.pieceLength)
    else .ok t.pieceLength
  else .ok t.pieceLength

/-- `piece_hashes[i]`, where there is one. -/
def hashAt (t : TorrentFile) (i : Int) : Option Str :=
  if 0 ≤ i then t.pieceHashes[i.toNat]? else none

/-- The indices of the torrent's pieces. -/
def InRange (t : TorrentFile) (i : Int) : Prop := 0 ≤ i ∧ i < t.pieceHashes.length

instance (t : TorrentFile) (i : Int) : Decidable (t.InRange i) :=
  inferInstanceAs (Decidable (_ ∧ _))

theorem hashAt_eq_none_iff (t : TorrentFile) (i : Int) : t.hashAt i = none ↔ ¬ t.InRange i := by
  simp only [hashAt, InRange]
  split
  · rw [List.getElem?_eq_none_iff]
    omega
  · simp only [true_iff]
    omega

theorem inRange_of_hashAt {t : TorrentFile} {i : Int} {s : Str} (h : t.hashAt i = some s) :
    t.InRange i := by
  by_contra hn
  rw [(t.hashAt_eq_none_iff i).mpr hn] at h
  cases h

end TorrentFile

/-! ## The state -/

/-- The state the connections of a download share. -/
structure Downloader where
  torrent : TorrentFile
  myId : Str
  fileWriter : Writer
  s : Speed
  nextReqIndex : Int32
  downloadedBytes : Int64
  pieceBuffer : Buffer
  pieceBytesReceived : Int32
  currentPieceIndex : Int32
deriving DecidableEq, Repr

namespace Downloader

/-- The constructor. -/
def init (tf : TorrentFile) (id : Str) : Downloader where
  torrent := tf
  myId := id
  fileWriter := ⟨[]⟩
  s := ⟨0, 0⟩
  nextReqIndex := 0
  downloadedBytes := 0
  pieceBuffer := []
  pieceBytesReceived := 0
  currentPieceIndex := -1

/-- `IsComplete`. -/
def isComplete (d : Downloader) : Bool := d.downloadedBytes.toInt ≥ d.torrent.length.toInt

/-- `GetNextPieceToRequest`.  The counter is a `std::atomic<int>` and wraps around. -/
def getNextPieceToRequest (d : Downloader) : Int32 × Downloader :=
  let idx := d.nextReqIndex
  let d := { d with nextReqIndex := d.nextReqIndex + 1 }
  if d.torrent.InRange idx.toInt then (idx, d) else (-1, d)

/-! ## `OnBlockReceived` -/

/-- The state with a buffer of zeros. -/
@[simps] def cleared (d : Downloader) (count : Nat) : Downloader :=
  { d with pieceBuffer := List.replicate count 0 }

/-- The state with a new current piece, none of it received. -/
@[simps] def switched (d : Downloader) (pieceIndex : Int32) : Downloader :=
  { d with currentPieceIndex := pieceIndex, pieceBytesReceived := 0 }

/-- `piece_buffer.assign(piece_len, 0)`.  `alloc` says whether the memory is there. -/
def assign (alloc : Bool) (d : Downloader) (pieceLen : Int64) : Outcome Exn Fault Downloader :=
  let count := toSizeT pieceLen.toInt
  if count > maxSize then .throw .lengthError d
  else if !alloc then .throw .badAlloc d
  else .ok (d.cleared count)

/-- Part 1: the buffer of a new piece. -/
def switchPiece (alloc : Bool) (d : Downloader) (pieceIndex : Int32) :
    Outcome Exn Fault Downloader :=
  if pieceIndex ≠ d.currentPieceIndex then
    match d.torrent.pieceLen pieceIndex.toInt with
    | .error f => .fault f
    | .ok pieceLen => assign alloc (d.switched pieceIndex) pieceLen
  else .ok d

/-- The guard `offset + data.size() <= piece_buffer.size()`, a sum of `size_t`. -/
def CopyGuard (d : Downloader) (offset : Int32) (data : Buffer) : Prop :=
  (toSizeT offset.toInt + data.length) % 2 ^ 64 ≤ d.pieceBuffer.length

instance (d : Downloader) (offset : Int32) (data : Buffer) : Decidable (d.CopyGuard offset data) :=
  inferInstanceAs (Decidable (_ ≤ _))

/-- The destination `[offset, offset + data.size())` of the copy lies inside the buffer. -/
def CopyInside (d : Downloader) (offset : Int32) (data : Buffer) : Prop :=
  0 ≤ offset.toInt ∧ offset.toInt + data.length ≤ d.pieceBuffer.length

instance (d : Downloader) (offset : Int32) (data : Buffer) :
    Decidable (d.CopyInside offset data) :=
  inferInstanceAs (Decidable (_ ∧ _))

/-- The state after a copy that stays inside the buffer. -/
@[simps] def copied (d : Downloader) (offset : Int32) (data : Buffer) : Downloader :=
  { d with
    pieceBuffer := Splice.overwrite d.pieceBuffer offset.toInt.toNat data
    pieceBytesReceived := Int32.ofInt (d.pieceBytesReceived.toInt + data.length) }

/-- Part 2: the `memcpy`, and the counter.  A destination outside the buffer is a fault. -/
def copyBlock (d : Downloader) (offset : Int32) (data : Buffer) : Outcome Exn Fault Downloader :=
  if d.CopyGuard offset data then
    if d.CopyInside offset data then .ok (d.copied offset data) else .fault .pieceBuffer
  else .ok d

/-- The test `piece_bytes_received == piece_buffer.size()`. -/
def Full (d : Downloader) : Prop := d.pieceBytesReceived.toInt = d.pieceBuffer.length

instance (d : Downloader) : Decidable d.Full := inferInstanceAs (Decidable (_ = _))

/-- `(int64_t)piece_index * torrent.piece_length`. -/
def globalOffset (d : Downloader) (pieceIndex : Int32) : Int64 :=
  Int64.ofInt (pieceIndex.toInt * d.torrent.pieceLength.toInt)

/-- The state after a piece passed the check.  The counter is advanced by the size of the buffer
that the call to `add` left behind. -/
@[simps] def written (d : Downloader) (pieceIndex : Int32) : Downloader :=
  { d with
    fileWriter := (d.fileWriter.add d.pieceBuffer (d.globalOffset pieceIndex)).1
    pieceBuffer := (d.fileWriter.add d.pieceBuffer (d.globalOffset pieceIndex)).2
    downloadedBytes := Int64.ofInt (d.downloadedBytes.toInt +
      (d.fileWriter.add d.pieceBuffer (d.globalOffset pieceIndex)).2.length) }

/-- The memory a check asks for: whether it is there for the copy and the text `Sha1::Calculate`
makes, for the copy of the expected digest, and for the job in the queue. -/
structure Room where
  digest : Bool
  expected : Bool
  job : Bool
deriving DecidableEq, Repr

/-- All of it is there. -/
def Room.ample : Room := ⟨true, true, true⟩

/-- The state after the queue could not grow: `add` has taken the buffer, and the job is gone. -/
@[simps] def dropped (d : Downloader) : Downloader := { d with pieceBuffer := [] }

/-- Part 4: the integrity check of a full piece. -/
def checkIntegrityIn (m : Room) (d : Downloader) (pieceIndex : Int32) :
    Outcome Exn Fault Downloader :=
  if d.Full then
    if !m.digest then .throw .badAlloc d
    else match d.torrent.hashAt pieceIndex.toInt with
      | none => .fault .pieceHashes
      | some expectedHash =>
          if !m.expected then .throw .badAlloc d
          else if Sha1.calculate d.pieceBuffer = expectedHash then
            if !m.job then .throw .badAlloc d.dropped else .ok (d.written pieceIndex)
          else .ok d
  else .ok d

/-- The check where the memory is there. -/
def checkIntegrity (d : Downloader) (pieceIndex : Int32) : Outcome Exn Fault Downloader :=
  checkIntegrityIn .ample d pieceIndex

/-- Part 3: `s.add(data.size())`. -/
@[simps] def addSpeed (d : Downloader) (n : Nat) : Downloader := { d with s := d.s.add n }

/-- `OnBlockReceived`. -/
def onBlockReceivedIn (alloc : Bool) (m : Room) (d : Downloader) (pieceIndex offset : Int32)
    (data : Buffer) : Outcome Exn Fault Downloader :=
  (switchPiece alloc d pieceIndex).andThen fun d =>
    (copyBlock d offset data).andThen fun d =>
      checkIntegrityIn m (d.addSpeed data.length) pieceIndex

/-- `OnBlockReceived` where only a change of piece can run out of memory. -/
def onBlockReceived (alloc : Bool) (d : Downloader) (pieceIndex offset : Int32) (data : Buffer) :
    Outcome Exn Fault Downloader :=
  onBlockReceivedIn alloc .ample d pieceIndex offset data

/-- The arguments of one call, and whether the memory a change of piece asks for is there. -/
structure Call where
  alloc : Bool
  pieceIndex : Int32
  offset : Int32
  data : Buffer
deriving DecidableEq, Repr

/-- One call, with memory for its check. -/
def receive (d : Downloader) (c : Call) : Outcome Exn Fault Downloader :=
  onBlockReceived c.alloc d c.pieceIndex c.offset c.data

/-! ## What the parts can do -/

variable {alloc : Bool} {d d' : Downloader} {i offset : Int32} {data : Buffer} {e : Exn}

/-- A change of piece that succeeds: none was needed, or the buffer holds zeros for the new one. -/
theorem switchPiece_cases (h : switchPiece alloc d i = .ok d') :
    (i = d.currentPieceIndex ∧ d' = d) ∨
    (i ≠ d.currentPieceIndex ∧ ∃ n, d.torrent.pieceLen i.toInt = .ok n ∧ toSizeT n.toInt ≤ maxSize ∧
      alloc = true ∧ d' = (d.switched i).cleared (toSizeT n.toInt)) := by
  simp only [switchPiece] at h
  split at h
  next hne =>
    refine .inr ⟨hne, ?_⟩
    cases hl : d.torrent.pieceLen i.toInt with
    | error f => rw [hl] at h; cases h
    | ok n =>
        rw [hl] at h
        simp only [assign] at h
        split at h
        · cases h
        · split at h
          · cases h
          · cases h
            exact ⟨n, rfl, by omega, by simpa using ‹¬(!alloc) = true›, rfl⟩
  next heq =>
    cases h
    exact .inl ⟨by simpa using heq, rfl⟩

/-- A change of piece that throws has switched the index and the counter, and kept the buffer. -/
theorem switchPiece_throw (h : switchPiece alloc d i = .throw e d') :
    i ≠ d.currentPieceIndex ∧ d' = d.switched i := by
  simp only [switchPiece] at h
  split at h
  next hne =>
    refine ⟨hne, ?_⟩
    cases hl : d.torrent.pieceLen i.toInt with
    | error f => rw [hl] at h; cases h
    | ok n =>
        rw [hl] at h
        simp only [assign] at h
        split at h
        · cases h; rfl
        · split at h <;> cases h
          rfl
  next heq => cases h

theorem switchPiece_same (h : i = d.currentPieceIndex) : switchPiece alloc d i = .ok d := by
  rw [switchPiece, if_neg (not_not.mpr h)]

/-- The change to a piece whose length is below `2 ^ 31`, where the memory is there. -/
theorem switchPiece_of_pieceLen {n : Int64} {m : Nat} (hne : i ≠ d.currentPieceIndex)
    (hn : d.torrent.pieceLen i.toInt = .ok n) (hm : n.toInt = m) (hlt : m < 2 ^ 31) :
    switchPiece true d i = .ok ((d.switched i).cleared m) := by
  have hmax : ¬ m > maxSize := by
    simp only [maxSize]
    omega
  rw [switchPiece, if_pos hne, hn]
  simp only [assign]
  rw [hm, toSizeT_natCast (by omega), if_neg hmax]
  rfl

/-- A copy that returns: the block is in the buffer, or it was too long and is skipped. -/
theorem copyBlock_cases (h : copyBlock d offset data = .ok d') :
    (d.CopyGuard offset data ∧ d.CopyInside offset data ∧ d' = d.copied offset data) ∨
    (¬ d.CopyGuard offset data ∧ d' = d) := by
  simp only [copyBlock] at h
  split at h
  next hg =>
    split at h <;> cases h
    exact .inl ⟨hg, ‹_›, rfl⟩
  next hg =>
    cases h
    exact .inr ⟨hg, rfl⟩

/-- The check where the memory is there, in one piece. -/
theorem checkIntegrity_eq (d : Downloader) (i : Int32) :
    checkIntegrity d i =
      if d.Full then
        match d.torrent.hashAt i.toInt with
        | none => .fault .pieceHashes
        | some s => if Sha1.calculate d.pieceBuffer = s then .ok (d.written i) else .ok d
      else .ok d := rfl

theorem onBlockReceived_eq (alloc : Bool) (d : Downloader) (i offset : Int32) (data : Buffer) :
    onBlockReceived alloc d i offset data =
      (switchPiece alloc d i).andThen fun d =>
        (copyBlock d offset data).andThen fun d => checkIntegrity (d.addSpeed data.length) i := rfl

theorem copyBlock_ne_throw : copyBlock d offset data ≠ .throw e d' := by
  simp only [copyBlock]
  split
  · split <;> simp
  · simp

/-- A check that returns: the piece is verified and written, or nothing happens. -/
theorem checkIntegrity_cases (h : checkIntegrity d i = .ok d') :
    (d.Full ∧ d.torrent.hashAt i.toInt = some (Sha1.calculate d.pieceBuffer) ∧ d' = d.written i) ∨
    ((d.Full → ∃ s, d.torrent.hashAt i.toInt = some s ∧ Sha1.calculate d.pieceBuffer ≠ s) ∧ d' = d) := by
  rw [checkIntegrity_eq] at h
  split at h
  next hf =>
    cases hh : d.torrent.hashAt i.toInt with
    | none => rw [hh] at h; cases h
    | some s =>
        rw [hh] at h
        dsimp only at h
        split at h
        · next heq => cases h; exact .inl ⟨hf, by rw [heq], rfl⟩
        · next hne => cases h; exact .inr ⟨fun _ => ⟨s, rfl, hne⟩, rfl⟩
  next hf =>
    cases h
    exact .inr ⟨fun hf' => absurd hf' hf, rfl⟩

theorem checkIntegrity_ne_throw : checkIntegrity d i ≠ .throw e d' := by
  rw [checkIntegrity_eq]
  split
  · split
    · simp
    · split <;> simp
  · simp

/-- A change of piece faults only in the remainder. -/
theorem switchPiece_fault {f : Fault} (h : switchPiece alloc d i = .fault f) :
    f = .division ∧ d.torrent.pieceLen i.toInt = .error .division := by
  simp only [switchPiece] at h
  split at h
  · cases hl : d.torrent.pieceLen i.toInt with
    | error g =>
        rw [hl] at h
        cases h
        simp only [TorrentFile.pieceLen] at hl
        split at hl
        · split at hl
          · cases hl; exact ⟨rfl, rfl⟩
          · split at hl <;> cases hl
        · cases hl
    | ok n =>
        rw [hl] at h
        simp only [assign] at h
        split at h
        · cases h
        · split at h <;> cases h
  · cases h

/-- A copy faults only outside the buffer. -/
theorem copyBlock_fault {f : Fault} (h : copyBlock d offset data = .fault f) :
    f = .pieceBuffer ∧ d.CopyGuard offset data ∧ ¬ d.CopyInside offset data := by
  simp only [copyBlock] at h
  split at h
  · split at h <;> cases h
    exact ⟨rfl, ‹_›, ‹_›⟩
  · cases h

/-- A check faults only outside the digests. -/
theorem checkIntegrity_fault {f : Fault} (h : checkIntegrity d i = .fault f) :
    f = .pieceHashes ∧ d.Full ∧ ¬ d.torrent.InRange i.toInt := by
  rw [checkIntegrity_eq] at h
  split at h
  next hf =>
    split at h
    next hh => cases h; exact ⟨rfl, hf, (d.torrent.hashAt_eq_none_iff _).mp hh⟩
    next => split at h <;> cases h
  next => cases h

/-- Everything a call that does not fault can do: the change of piece threw, or the three parts
ran one after another. -/
theorem receive_cases {c : Call} (h : (receive d c).state? = some d') :
    (∃ e, receive d c = .throw e d' ∧ switchPiece c.alloc d c.pieceIndex = .throw e d' ∧
      d' = d.switched c.pieceIndex) ∨
    (∃ d1 d2, receive d c = .ok d' ∧ switchPiece c.alloc d c.pieceIndex = .ok d1 ∧
      copyBlock d1 c.offset c.data = .ok d2 ∧
      checkIntegrity (d2.addSpeed c.data.length) c.pieceIndex = .ok d') := by
  cases h1 : switchPiece c.alloc d c.pieceIndex with
  | fault f => simp [receive, onBlockReceived_eq, h1] at h
  | throw e d1 =>
      have hr : receive d c = .throw e d1 := by simp [receive, onBlockReceived_eq, h1]
      rw [hr] at h
      cases Option.some.inj h
      exact .inl ⟨e, hr, rfl, (switchPiece_throw h1).2⟩
  | ok d1 =>
      cases h2 : copyBlock d1 c.offset c.data with
      | fault f => simp [receive, onBlockReceived_eq, h1, h2] at h
      | throw e d2 => exact absurd h2 copyBlock_ne_throw
      | ok d2 =>
          have hr : receive d c = checkIntegrity (d2.addSpeed c.data.length) c.pieceIndex := by
            simp [receive, onBlockReceived_eq, h1, h2]
          cases h3 : checkIntegrity (d2.addSpeed c.data.length) c.pieceIndex with
          | fault f => rw [hr, h3] at h; cases h
          | throw e d3 => exact absurd h3 checkIntegrity_ne_throw
          | ok d3 =>
              rw [hr, h3] at h
              cases Option.some.inj h
              exact .inr ⟨d1, d2, by rw [hr, h3], rfl, h2, h3⟩

/-- Where a call can fault: in the change of piece, in the copy, or in the check. -/
theorem receive_fault_cases {c : Call} {f : Fault} (h : receive d c = .fault f) :
    switchPiece c.alloc d c.pieceIndex = .fault f ∨
    ∃ d1, switchPiece c.alloc d c.pieceIndex = .ok d1 ∧
      (copyBlock d1 c.offset c.data = .fault f ∨
      ∃ d2, copyBlock d1 c.offset c.data = .ok d2 ∧
        checkIntegrity (d2.addSpeed c.data.length) c.pieceIndex = .fault f) := by
  simp only [receive, onBlockReceived_eq] at h
  cases h1 : switchPiece c.alloc d c.pieceIndex with
  | throw e d1 => rw [h1] at h; cases h
  | fault g => rw [h1] at h; exact .inl h
  | ok d1 =>
      rw [h1, Outcome.andThen_ok] at h
      refine .inr ⟨d1, rfl, ?_⟩
      cases h2 : copyBlock d1 c.offset c.data with
      | throw e d2 => exact absurd h2 copyBlock_ne_throw
      | fault g => rw [h2] at h; exact .inl h
      | ok d2 => rw [h2] at h; exact .inr ⟨d2, rfl, h⟩

/-- A call whose first two parts return is decided by the check. -/
theorem receive_eq_check {c : Call} {d1 d2 : Downloader}
    (h1 : switchPiece c.alloc d c.pieceIndex = .ok d1)
    (h2 : copyBlock d1 c.offset c.data = .ok d2) :
    receive d c = checkIntegrity (d2.addSpeed c.data.length) c.pieceIndex := by
  simp [receive, onBlockReceived_eq, h1, h2]

/-! ## What no call touches -/

/-- Two states with the same torrent, identity and request counter. -/
def SameFixed (d d' : Downloader) : Prop :=
  d'.torrent = d.torrent ∧ d'.myId = d.myId ∧ d'.nextReqIndex = d.nextReqIndex

theorem switchPiece_sameFixed (h : switchPiece alloc d i = .ok d') : SameFixed d d' := by
  rcases switchPiece_cases h with ⟨-, rfl⟩ | ⟨-, n, -, -, -, rfl⟩ <;> exact ⟨rfl, rfl, rfl⟩

theorem copyBlock_sameFixed (h : copyBlock d offset data = .ok d') : SameFixed d d' := by
  rcases copyBlock_cases h with ⟨-, -, rfl⟩ | ⟨-, rfl⟩ <;> exact ⟨rfl, rfl, rfl⟩

theorem checkIntegrity_sameFixed (h : checkIntegrity d i = .ok d') : SameFixed d d' := by
  rcases checkIntegrity_cases h with ⟨-, -, rfl⟩ | ⟨-, rfl⟩ <;> exact ⟨rfl, rfl, rfl⟩

theorem receive_sameFixed {c : Call} (h : (receive d c).state? = some d') : SameFixed d d' := by
  rcases receive_cases h with ⟨e, -, -, rfl⟩ | ⟨d1, d2, -, h1, h2, h3⟩
  · exact ⟨rfl, rfl, rfl⟩
  · obtain ⟨t1, i1, n1⟩ := switchPiece_sameFixed h1
    obtain ⟨t2, i2, n2⟩ := copyBlock_sameFixed h2
    obtain ⟨t3, i3, n3⟩ := checkIntegrity_sameFixed h3
    exact ⟨t3.trans (t2.trans t1), i3.trans (i2.trans i1), n3.trans (n2.trans n1)⟩

/-- The first two parts hand nothing over and count nothing. -/
theorem switchPiece_fileWriter (h : switchPiece alloc d i = .ok d') :
    d'.fileWriter = d.fileWriter ∧ d'.downloadedBytes = d.downloadedBytes := by
  rcases switchPiece_cases h with ⟨-, rfl⟩ | ⟨-, n, -, -, -, rfl⟩ <;> exact ⟨rfl, rfl⟩

theorem copyBlock_fileWriter (h : copyBlock d offset data = .ok d') :
    d'.fileWriter = d.fileWriter ∧ d'.downloadedBytes = d.downloadedBytes := by
  rcases copyBlock_cases h with ⟨-, -, rfl⟩ | ⟨-, rfl⟩ <;> exact ⟨rfl, rfl⟩

theorem exec_torrent {cs : List Call} (h : exec receive d cs = some d') :
    d'.torrent = d.torrent :=
  exec_invariant (P := fun s => s.torrent = d.torrent)
    (fun _ _ _ _ hs hr => (receive_sameFixed hr).1.trans hs) rfl h

end Downloader

end NodeLink
