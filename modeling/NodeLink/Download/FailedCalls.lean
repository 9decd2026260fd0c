import NodeLink.Download.Completeness

/-!
# Calls that fail

`OnBlockReceived` can run out of memory in a change of piece, and in the check of
a full piece.  When `assign` throws, the index of the new piece is stored and the
counter is zero already.  When the check throws, the block is in the buffer and
counted, and if the queue could not grow `add` has taken the buffer.

So a call that throws leaves the state as it was only if it keeps its piece, adds
nothing to it, and fails before anything is moved.  `steps_atomic_iff` says when a
call leaves the state as it was if it throws.
-/

namespace NodeLink

open Cpp

namespace Downloader

/-- A call, and the memory there is for its check. -/
structure CallIn extends Call where
  room : Room
deriving DecidableEq, Repr

/-- One call, in any memory. -/
def receiveIn (d : Downloader) (a : CallIn) : Outcome Exn Fault Downloader :=
  onBlockReceivedIn a.alloc a.room d a.pieceIndex a.offset a.data

theorem receiveIn_ample (d : Downloader) (c : Call) : receiveIn d ⟨c, .ample⟩ = receive d c := rfl

variable {d d' : Downloader} {a : CallIn} {c : Call} {e : Exn} {m : Room} {i : Int32}

/-- What an exception must leave alone. -/
structure Unchanged (d d' : Downloader) : Prop where
  currentPieceIndex : d'.currentPieceIndex = d.currentPieceIndex
  pieceBytesReceived : d'.pieceBytesReceived = d.pieceBytesReceived
  pieceBuffer : d'.pieceBuffer = d.pieceBuffer
  downloadedBytes : d'.downloadedBytes = d.downloadedBytes
  fileWriter : d'.fileWriter = d.fileWriter

/-- The call leaves the state as it was if it throws. -/
def Atomic (d : Downloader) (a : CallIn) : Prop :=
  ∀ e d', receiveIn d a = .throw e d' → Unchanged d d'

/-! ## When a call throws -/

/-- The buffer of the piece can be allocated, if the call changes the piece: its length is not
negative, and the memory is there. -/
def Allocates (d : Downloader) (c : Call) : Prop :=
  c.pieceIndex ≠ d.currentPieceIndex → ∀ n, d.torrent.pieceLen c.pieceIndex.toInt = .ok n →
    0 ≤ n.toInt ∧ c.alloc = true

/-- If the check runs, on a content `b`, there is memory for the digest of `b`, for a copy of the
expected one if the index is in range, and for the job if the two are the same. -/
def RoomFor (d : Downloader) (a : CallIn) : Prop :=
  ∀ b, ChecksContent d a.toCall b → a.room.digest = true ∧
    ∀ s, d.torrent.hashAt a.pieceIndex.toInt = some s → a.room.expected = true ∧
      (Sha1.calculate b = s → a.room.job = true)

/-- The call keeps its piece and adds nothing to it: the block is empty, or too long for the buffer. -/
def AddsNothing (d : Downloader) (c : Call) : Prop :=
  c.pieceIndex = d.currentPieceIndex ∧ (c.data = [] ∨ ¬d.CopyGuard c.offset c.data)

/-- Memory is short before the queue has to grow, or the buffer is empty. -/
def KeepsBuffer (d : Downloader) (m : Room) : Prop :=
  m.digest = false ∨ m.expected = false ∨ d.pieceBuffer = []

/-- The call does not throw, or it has changed nothing by then. -/
def Harmless (d : Downloader) (a : CallIn) : Prop :=
  Allocates d a.toCall ∧ (RoomFor d a ∨ (AddsNothing d a.toCall ∧ KeepsBuffer d a.room))

/-- A length of type `int64_t` that is not negative is a size a vector can have. -/
theorem toSizeT_le_maxSize_iff (n : Int64) : toSizeT n.toInt ≤ maxSize ↔ 0 ≤ n.toInt := by
  have hlo := n.le_toInt
  have hhi := n.toInt_lt
  simp only [toSizeT, maxSize]
  omega

/-- A change of piece throws exactly if its buffer cannot be allocated. -/
theorem switchPiece_throws_iff :
    (∃ e, switchPiece c.alloc d c.pieceIndex = .throw e (d.switched c.pieceIndex)) ↔
      ¬Allocates d c := by
  constructor
  · rintro ⟨e, hsw⟩ hall
    have hne := (switchPiece_throw hsw).1
    simp only [switchPiece] at hsw
    rw [if_pos hne] at hsw
    cases hl : d.torrent.pieceLen c.pieceIndex.toInt with
    | error f => rw [hl] at hsw; cases hsw
    | ok n =>
        obtain ⟨hn, halloc⟩ := hall hne n hl
        rw [hl] at hsw
        simp only [assign] at hsw
        rw [if_neg (Nat.not_lt.mpr ((toSizeT_le_maxSize_iff n).mpr hn)), halloc] at hsw
        cases hsw
  · intro h
    simp only [Allocates, not_forall] at h
    obtain ⟨hne, n, hl, hn⟩ := h
    simp only [switchPiece]
    rw [if_pos hne, hl]
    simp only [assign]
    by_cases hfit : toSizeT n.toInt > maxSize
    · exact ⟨.lengthError, if_pos hfit⟩
    · have halloc : c.alloc = false := by
        rw [← Bool.not_eq_true]
        exact fun ha => hn ⟨(toSizeT_le_maxSize_iff n).mp (Nat.not_lt.mp hfit), ha⟩
      exact ⟨.badAlloc, by rw [if_neg hfit, halloc]; rfl⟩

/-- A check that throws is that of a full piece, and memory was short before or when the queue had to
grow. -/
theorem checkIntegrityIn_throw (h : checkIntegrityIn m d i = .throw e d') :
    d.Full ∧ ((m.digest = false ∧ d' = d) ∨
      ∃ s, m.digest = true ∧ d.torrent.hashAt i.toInt = some s ∧ ((m.expected = false ∧ d' = d) ∨
        (m.expected = true ∧ Sha1.calculate d.pieceBuffer = s ∧ m.job = false ∧ d' = d.dropped))) := by
  simp only [checkIntegrityIn] at h
  by_cases hf : d.Full
  · rw [if_pos hf] at h
    refine ⟨hf, ?_⟩
    cases hd : m.digest with
    | false =>
        rw [hd, Bool.not_false, if_pos rfl] at h
        cases h
        exact .inl ⟨rfl, rfl⟩
    | true =>
        rw [hd, Bool.not_true, if_neg Bool.false_ne_true] at h
        cases hs : d.torrent.hashAt i.toInt with
        | none => rw [hs] at h; cases h
        | some s =>
            rw [hs] at h
            dsimp only at h
            refine .inr ⟨s, rfl, rfl, ?_⟩
            cases hx : m.expected with
            | false =>
                rw [hx, Bool.not_false, if_pos rfl] at h
                cases h
                exact .inl ⟨rfl, rfl⟩
            | true =>
                rw [hx, Bool.not_true, if_neg Bool.false_ne_true] at h
                by_cases heq : Sha1.calculate d.pieceBuffer = s
                · rw [if_pos heq] at h
                  cases hj : m.job with
                  | false =>
                      rw [hj, Bool.not_false, if_pos rfl] at h
                      cases h
                      exact .inr ⟨rfl, heq, rfl, rfl⟩
                  | true => rw [hj, Bool.not_true, if_neg Bool.false_ne_true] at h; cases h
                · rw [if_neg heq] at h
                  cases h
  · rw [if_neg hf] at h
    cases h

/-- A call throws in its change of piece or in its check. -/
theorem receiveIn_throw (h : receiveIn d a = .throw e d') :
    switchPiece a.alloc d a.pieceIndex = .throw e d' ∨
    ∃ d1 d2, switchPiece a.alloc d a.pieceIndex = .ok d1 ∧ copyBlock d1 a.offset a.data = .ok d2 ∧
      checkIntegrityIn a.room (d2.addSpeed a.data.length) a.pieceIndex = .throw e d' := by
  simp only [receiveIn, onBlockReceivedIn] at h
  cases h1 : switchPiece a.alloc d a.pieceIndex with
  | fault f => rw [h1] at h; cases h
  | throw e1 d1 =>
      rw [h1] at h
      exact .inl h
  | ok d1 =>
      rw [h1, Outcome.andThen_ok] at h
      cases h2 : copyBlock d1 a.offset a.data with
      | fault f => rw [h2] at h; cases h
      | throw e2 d2 => exact absurd h2 copyBlock_ne_throw
      | ok d2 =>
          rw [h2] at h
          exact .inr ⟨d1, d2, rfl, h2, h⟩

theorem receiveIn_eq_check {d1 d2 : Downloader} (h1 : switchPiece a.alloc d a.pieceIndex = .ok d1)
    (h2 : copyBlock d1 a.offset a.data = .ok d2) :
    receiveIn d a = checkIntegrityIn a.room (d2.addSpeed a.data.length) a.pieceIndex := by
  simp only [receiveIn, onBlockReceivedIn]
  rw [h1, Outcome.andThen_ok, h2, Outcome.andThen_ok]

/-- Where there is no room for the check, the call throws, with the block added to its piece, and
with or without the buffer. -/
theorem throws_of_not_roomFor (h : ¬RoomFor d a) :
    ∃ d1 d2 d', switchPiece a.alloc d a.pieceIndex = .ok d1 ∧
      copyBlock d1 a.offset a.data = .ok d2 ∧ d2.Full ∧ receiveIn d a = .throw .badAlloc d' ∧
      ((d' = d2.addSpeed a.data.length ∧ (a.room.digest = false ∨ a.room.expected = false)) ∨
        d' = (d2.addSpeed a.data.length).dropped) := by
  simp only [RoomFor, not_forall] at h
  obtain ⟨b, ⟨d1, d2, h1, h2, hfull, rfl⟩, hshort⟩ := h
  have ht : (d2.addSpeed a.data.length).torrent = d.torrent :=
    (copyBlock_sameFixed h2).1.trans (switchPiece_sameFixed h1).1
  have hfull' : (d2.addSpeed a.data.length).Full := hfull
  have hrun := receiveIn_eq_check h1 h2
  simp only [checkIntegrityIn] at hrun
  rw [if_pos hfull', ht] at hrun
  cases hd : a.room.digest with
  | false =>
      rw [hd] at hrun
      exact ⟨d1, d2, _, h1, h2, hfull, hrun, .inl ⟨rfl, .inl rfl⟩⟩
  | true =>
      simp only [hd, true_and, not_forall] at hshort
      obtain ⟨s, hs, hshort⟩ := hshort
      rw [hd, hs] at hrun
      cases hx : a.room.expected with
      | false =>
          rw [hx] at hrun
          exact ⟨d1, d2, _, h1, h2, hfull, hrun, .inl ⟨rfl, .inr rfl⟩⟩
      | true =>
          simp only [hx, true_and, not_forall] at hshort
          obtain ⟨heq, hjob⟩ := hshort
          have hjob : a.room.job = false := by simpa using hjob
          rw [hx, hjob] at hrun
          refine ⟨d1, d2, _, h1, h2, hfull, hrun.trans ?_, .inr rfl⟩
          exact if_pos heq

/-! ## When nothing has changed by then -/

/-- A block that is not added leaves the buffer and the counter. -/
theorem copyBlock_of_skipped {offset : Int32} {data : Buffer}
    (h : data = [] ∨ ¬d.CopyGuard offset data) (h2 : copyBlock d offset data = .ok d') :
    d'.pieceBuffer = d.pieceBuffer ∧ d'.pieceBytesReceived = d.pieceBytesReceived := by
  rcases copyBlock_cases h2 with ⟨hg, -, rfl⟩ | ⟨-, rfl⟩
  · have hnil : data = [] := h.resolve_right (not_not.mpr hg)
    rw [copied_pieceBuffer, copied_pieceBytesReceived, hnil, Splice.overwrite_nil, List.length_nil,
      Int.natCast_zero, Int.add_zero, Int32.ofInt_toInt]
    exact ⟨rfl, rfl⟩
  · exact ⟨rfl, rfl⟩

/-- In a full buffer, a block that left the counter was not added: the counter is the size of the
buffer, which is too small for it to come round. -/
theorem skipped_of_copyBlock {offset : Int32} {data : Buffer}
    (h2 : copyBlock d offset data = .ok d') (hfull : d'.Full)
    (hcount : d'.pieceBytesReceived = d.pieceBytesReceived) :
    data = [] ∨ ¬d.CopyGuard offset data := by
  rcases copyBlock_cases h2 with ⟨-, ⟨h0, hle⟩, rfl⟩ | ⟨hg, -⟩
  · refine .inl (List.length_eq_zero_iff.mp ?_)
    have hsum := congrArg Int32.toInt hcount
    have hlt := d.pieceBytesReceived.toInt_lt
    rw [Full, hcount, copied_pieceBuffer, Splice.overwrite_length (by omega)] at hfull
    rw [copied_pieceBytesReceived, toInt_ofInt32] at hsum
    omega
  · exact .inr hg

theorem copyBlock_currentPieceIndex {offset : Int32} {data : Buffer}
    (h2 : copyBlock d offset data = .ok d') : d'.currentPieceIndex = d.currentPieceIndex := by
  rcases copyBlock_cases h2 with ⟨-, -, rfl⟩ | ⟨-, rfl⟩ <;> rfl

/-- A call is atomic exactly if it is harmless. -/
theorem atomic_iff (d : Downloader) (a : CallIn) : Atomic d a ↔ Harmless d a := by
  constructor
  · intro h
    refine ⟨?_, or_iff_not_imp_left.mpr fun hroom => ?_⟩
    · by_contra hall
      obtain ⟨e, he⟩ := switchPiece_throws_iff.mpr hall
      have hr : receiveIn d a = .throw e (d.switched a.pieceIndex) := by
        simp only [receiveIn, onBlockReceivedIn]
        rw [he]
        rfl
      exact (switchPiece_throw he).1 (h e _ hr).currentPieceIndex
    · obtain ⟨d1, d2, d', h1, h2, hfull, hr, hd'⟩ := throws_of_not_roomFor hroom
      have hsame := h _ _ hr
      have hfields : d'.currentPieceIndex = d2.currentPieceIndex ∧
          d'.pieceBytesReceived = d2.pieceBytesReceived := by
        rcases hd' with ⟨rfl, -⟩ | rfl <;> exact ⟨rfl, rfl⟩
      -- the index is that of the call by now, so the call kept its piece
      have hkeep : a.pieceIndex = d.currentPieceIndex := by
        rw [← switchPiece_currentPieceIndex h1, ← copyBlock_currentPieceIndex h2, ← hfields.1]
        exact hsame.currentPieceIndex
      rw [switchPiece_same hkeep] at h1
      cases h1
      refine ⟨⟨hkeep, skipped_of_copyBlock h2 hfull
        (hfields.2.symm.trans hsame.pieceBytesReceived)⟩, ?_⟩
      rcases hd' with ⟨-, hd | hx⟩ | rfl
      · exact .inl hd
      · exact .inr (.inl hx)
      · exact .inr (.inr hsame.pieceBuffer.symm)
  · rintro ⟨hall, hharm⟩ e d' hr
    rcases receiveIn_throw hr with hsw | ⟨d1, d2, h1, h2, hthrow⟩
    · exact absurd hall (switchPiece_throws_iff.mp ⟨e, (switchPiece_throw hsw).2 ▸ hsw⟩)
    have ht : (d2.addSpeed a.data.length).torrent = d.torrent :=
      (copyBlock_sameFixed h2).1.trans (switchPiece_sameFixed h1).1
    obtain ⟨hfull, hshort⟩ := checkIntegrityIn_throw hthrow
    rw [ht] at hshort
    have hchecks : ChecksContent d a.toCall d2.pieceBuffer := ⟨d1, d2, h1, h2, hfull, rfl⟩
    rcases hharm with hroom | ⟨⟨hkeep, hskip⟩, hbuf⟩
    · obtain ⟨hdigest, hrest⟩ := hroom _ hchecks
      rcases hshort with ⟨hd, -⟩ | ⟨s, -, hs, ⟨hx, -⟩ | ⟨-, heq, hj, -⟩⟩
      · exact absurd (hd.symm.trans hdigest) Bool.false_ne_true
      · exact absurd (hx.symm.trans (hrest s hs).1) Bool.false_ne_true
      · exact absurd (hj.symm.trans ((hrest s hs).2 heq)) Bool.false_ne_true
    · rw [switchPiece_same hkeep] at h1
      cases h1
      obtain ⟨hb, hc⟩ := copyBlock_of_skipped hskip h2
      obtain ⟨hw, hbytes⟩ := copyBlock_fileWriter h2
      have hcur := copyBlock_currentPieceIndex h2
      rcases hshort with ⟨-, rfl⟩ | ⟨s, hd, -, ⟨-, rfl⟩ | ⟨hx, -, -, rfl⟩⟩
      · exact ⟨hcur, hc, hb, hbytes, hw⟩
      · exact ⟨hcur, hc, hb, hbytes, hw⟩
      · have hnil : d.pieceBuffer = [] := by
          rcases hbuf with hd' | hx' | hnil
          · exact absurd (hd'.symm.trans hd) Bool.false_ne_true
          · exact absurd (hx'.symm.trans hx) Bool.false_ne_true
          · exact hnil
        exact ⟨hcur, hc, hnil.symm, hbytes, hw⟩

/-- In every run, in any memory, a call is atomic exactly if it is harmless. -/
theorem steps_atomic_iff (t : TorrentFile) (id : Str) (as : List CallIn) :
    ∀ p ∈ steps receiveIn (init t id) as, Atomic p.1 p.2 ↔ Harmless p.1 p.2 :=
  fun p _ => atomic_iff p.1 p.2

/-! ### A torrent with a negative piece length -/

/-- The bytes of a torrent file with a piece length of minus one. -/
def fileOfNegative : Buffer :=
  bytes "d8:announce3:abc4:infod6:lengthi1e4:name1:a12:piece lengthi-1e6:pieces20:" ++ digestOfA ++
    bytes "ee"

/-- The record `load` makes of it. -/
def torrentOfNegative : TorrentFile where
  announce := bytes "abc"
  name := bytes "a"
  length := 1
  pieceLength := -1
  pieceHashes := [digestOfA]
  infoHash :=
    [0xef, 0xed, 0xd3, 0xcd, 0x54, 0xac, 0x6f, 0x70, 0x9b, 0xad,
     0x1f, 0xb9, 0xf3, 0xbe, 0xb7, 0x47, 0xd2, 0x9c, 0x47, 0xb4]

theorem load_fileOfNegative :
    TorrentFile.load openssl "a.torrent" (some fileOfNegative) = .ok torrentOfNegative := by
  decide +kernel

/-- The first block of a torrent of one byte, with memory for the check. -/
def callInOfA : CallIn := ⟨callOfA, .ample⟩

/-- The first block throws and leaves its index behind. -/
theorem not_atomic_of_negative :
    TorrentFile.load openssl "a.torrent" (some fileOfNegative) = .ok torrentOfNegative ∧
    receiveIn (init torrentOfNegative []) callInOfA =
      .throw .lengthError ((init torrentOfNegative []).switched 0) ∧
    ¬Unchanged (init torrentOfNegative []) ((init torrentOfNegative []).switched 0) := by
  refine ⟨load_fileOfNegative, rfl, ?_⟩
  intro h
  exact absurd h.currentPieceIndex (by decide)

/-- The law at the first block of a torrent of one byte. -/
theorem steps_atomic_iff_ofA :
    (init torrentOfA [], callInOfA) ∈ steps receiveIn (init torrentOfA []) [callInOfA] ∧
    (Atomic (init torrentOfA []) callInOfA ↔ Harmless (init torrentOfA []) callInOfA) := by
  have hmem : (init torrentOfA [], callInOfA) ∈
      steps receiveIn (init torrentOfA []) [callInOfA] :=
    mem_steps_cons (init torrentOfA []) callInOfA []
  exact ⟨hmem, steps_atomic_iff torrentOfA [] [callInOfA] (init torrentOfA [], callInOfA) hmem⟩

end Downloader

end NodeLink
