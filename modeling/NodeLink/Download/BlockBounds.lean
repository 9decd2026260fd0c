import Mathlib.Data.List.Induction
import NodeLink.Download.Geometry

/-!
# Where a block is copied

The begin of a PIECE message is a `uint32_t`.  `OnBlockReceived` takes it as an
`int` and adds the size of the data in `size_t`.  From `2 ^ 31` on the `int` is
negative, and the sum wraps around to a small number when the block is long
enough.  `blockSafe_iff` says exactly when.

The index of a PIECE message is not checked at all.  `indexSafe_iff_inRange`
says that the first block with an index outside the torrent does the damage.
-/

namespace NodeLink

open Cpp

namespace Downloader

variable {d d' : Downloader} {c : Call} {cs : List Call} {t : TorrentFile} {id : Str}

/-! ## The size of the buffer -/

theorem switchPiece_pieceBuffer_le {alloc : Bool} {i : Int32} {d1 : Downloader}
    (h : d.pieceBuffer.length ≤ maxSize) (h1 : switchPiece alloc d i = .ok d1) :
    d1.pieceBuffer.length ≤ maxSize := by
  rcases switchPiece_cases h1 with ⟨-, rfl⟩ | ⟨-, n, -, hn, -, rfl⟩
  · exact h
  · rw [cleared_pieceBuffer, List.length_replicate]
    exact hn

/-- The buffer is a vector. -/
theorem receive_pieceBuffer_le (hr : (receive d c).state? = some d')
    (h : d.pieceBuffer.length ≤ maxSize) : d'.pieceBuffer.length ≤ maxSize := by
  rcases receive_cases hr with ⟨e, -, -, rfl⟩ | ⟨d1, d2, -, h1, h2, h3⟩
  · exact h
  have e1 := switchPiece_pieceBuffer_le h h1
  have e2 : d2.pieceBuffer.length ≤ maxSize := by
    rcases copyBlock_cases h2 with ⟨-, hin, rfl⟩ | ⟨-, rfl⟩
    · rw [copied_pieceBuffer, Splice.overwrite_length]
      · exact e1
      · obtain ⟨h0, hle⟩ := hin
        omega
    · exact e1
  rcases checkIntegrity_cases h3 with ⟨-, -, rfl⟩ | ⟨-, rfl⟩
  · exact Nat.zero_le _
  · exact e2

theorem exec_pieceBuffer_le (h : exec receive (init t id) cs = some d) :
    d.pieceBuffer.length ≤ maxSize :=
  exec_invariant (P := fun s => s.pieceBuffer.length ≤ maxSize)
    (fun _ _ _ _ h0 hr => receive_pieceBuffer_le hr h0) (Nat.zero_le _) h

/-! ## The destination of a copy -/

/-- What the copy of a block with wire offset `begin_` should do: it goes to
`[begin_, begin_ + data.size())` if at all, this range lies inside the buffer, and a block whose
range does not fit is neither copied nor counted. -/
def BlockSafe (d : Downloader) (begin_ : UInt32) (data : Buffer) : Prop :=
  (d.CopyGuard begin_.toInt32 data →
    begin_.toInt32.toInt = begin_.toNat ∧ begin_.toNat + data.length ≤ d.pieceBuffer.length) ∧
  (d.pieceBuffer.length < begin_.toNat + data.length →
    copyBlock d begin_.toInt32 data = .ok d)

/-- Below `2 ^ 31` the guard is the exact one. -/
theorem copyGuard_of_lt {begin_ : UInt32} {data : Buffer} (hd : data.length < 2 ^ 32)
    (hb : begin_.toNat < 2 ^ 31) :
    d.CopyGuard begin_.toInt32 data ↔ begin_.toNat + data.length ≤ d.pieceBuffer.length := by
  simp only [CopyGuard]
  rw [toInt_toInt32_of_lt hb, toSizeT_natCast (by omega), Nat.mod_eq_of_lt (by omega)]

/-- From `2 ^ 31` on the guard lets a block through exactly if the sum wraps around to a position
inside the buffer. -/
theorem copyGuard_of_ge {begin_ : UInt32} {data : Buffer} (hd : data.length < 2 ^ 32)
    (hbuf : d.pieceBuffer.length ≤ maxSize) (hb : 2 ^ 31 ≤ begin_.toNat) :
    d.CopyGuard begin_.toInt32 data ↔ 2 ^ 32 ≤ begin_.toNat + data.length ∧
      begin_.toNat + data.length ≤ d.pieceBuffer.length + 2 ^ 32 := by
  have hlt := begin_.toNat_lt
  have hs : toSizeT begin_.toInt32.toInt = begin_.toNat + (2 ^ 64 - 2 ^ 32) := by
    have h := toSizeT_of_neg (z := begin_.toInt32.toInt)
    rw [toInt_toInt32_of_ge hb] at h ⊢
    have := h (by omega) (by omega)
    omega
  simp only [CopyGuard, maxSize] at *
  rw [hs]
  omega

/-- In every reachable state and for every PIECE payload, the copy of the block is in bounds if and
only if the begin is below `2 ^ 31`, or the block ends before `2 ^ 32`, or it ends more than
`2 ^ 32` behind the end of the buffer. -/
theorem blockSafe_iff (hrun : exec receive (init t id) cs = some d) {payload : Buffer}
    (h8 : 8 ≤ payload.length) (h32 : payload.length < 2 ^ 32) {alloc : Bool} {d1 : Downloader}
    (h1 : switchPiece alloc d (wordAt payload 0).toInt32 = .ok d1) :
    BlockSafe d1 (wordAt payload 4) (payload.drop 8) ↔
      (wordAt payload 4).toNat < 2 ^ 31 ∨
      (wordAt payload 4).toNat + (payload.length - 8) < 2 ^ 32 ∨
      d1.pieceBuffer.length + 2 ^ 32 < (wordAt payload 4).toNat + (payload.length - 8) := by
  have hbuf := switchPiece_pieceBuffer_le (exec_pieceBuffer_le hrun) h1
  have hlen : (payload.drop 8).length = payload.length - 8 := List.length_drop ..
  have hd : (payload.drop 8).length < 2 ^ 32 := by omega
  rw [← hlen]
  generalize wordAt payload 4 = b at *
  generalize payload.drop 8 = data at *
  by_cases hb : b.toNat < 2 ^ 31
  · refine iff_of_true ⟨fun hg => ?_, fun hfit => ?_⟩ (.inl hb)
    · exact ⟨toInt_toInt32_of_lt hb, (copyGuard_of_lt hd hb).mp hg⟩
    · rw [copyBlock, if_neg]
      rw [copyGuard_of_lt hd hb]
      omega
  · have hge : 2 ^ 31 ≤ b.toNat := by omega
    have hguard := copyGuard_of_ge (d := d1) hd hbuf hge
    constructor
    · rintro ⟨hsafe, -⟩
      by_contra hno
      have hg : d1.CopyGuard b.toInt32 data := hguard.mpr (by omega)
      have := (hsafe hg).1
      rw [toInt_toInt32_of_ge hge] at this
      omega
    · intro hcond
      have hg : ¬ d1.CopyGuard b.toInt32 data := by
        rw [hguard]
        omega
      exact ⟨fun hg' => absurd hg' hg, fun _ => by rw [copyBlock, if_neg hg]⟩

/-- A torrent of two one-byte pieces. -/
def twoBytes : TorrentFile where
  announce := []
  name := bytes "b"
  length := 2
  pieceLength := 1
  pieceHashes := [Sha1.calculate (bytes "a"), Sha1.calculate (bytes "b")]
  infoHash := []

/-- The payload of a PIECE message: index 0, begin `2 ^ 32 - 1`, one byte. -/
def underflowPayload : Buffer := [0, 0, 0, 0, 0xFF, 0xFF, 0xFF, 0xFF, 0x61]

/-- One byte at begin `2 ^ 32 - 1` passes the guard of a one-byte buffer, and is copied to the
address before the buffer. -/
theorem underflow_is_copied :
    ∃ d1, switchPiece true (init twoBytes []) (wordAt underflowPayload 0).toInt32 = .ok d1 ∧
      ¬ BlockSafe d1 (wordAt underflowPayload 4) (underflowPayload.drop 8) ∧
      receive (init twoBytes []) ⟨true, (wordAt underflowPayload 0).toInt32,
        (wordAt underflowPayload 4).toInt32, underflowPayload.drop 8⟩ = .fault .pieceBuffer := by
  refine ⟨_, rfl, fun h => ?_, by decide +kernel⟩
  exact absurd (h.1 (by decide +kernel)).2 (by decide +kernel)

/-- The law at the first message of a download, begin 0. -/
theorem blockSafe_iff_first :
    BlockSafe ((init twoBytes []).switched 0 |>.cleared 1) 0 (bytes "a") := by
  have hrun : exec receive (init twoBytes []) [] = some (init twoBytes []) := rfl
  have hsw : switchPiece true (init twoBytes [])
      (wordAt [0, 0, 0, 0, 0, 0, 0, 0, 0x61] 0).toInt32 =
      .ok ((init twoBytes []).switched 0 |>.cleared 1) := rfl
  exact (blockSafe_iff hrun (by decide) (by decide) hsw).mpr (.inl (by decide))

/-! ## The index of a block -/

/-- The index of the last call is the current piece, whatever else the call did. -/
theorem receive_currentPieceIndex (hr : (receive d c).state? = some d') :
    d'.currentPieceIndex = c.pieceIndex := by
  rcases receive_cases hr with ⟨e, -, -, rfl⟩ | ⟨d1, d2, -, h1, h2, h3⟩
  · rfl
  have e1 : d1.currentPieceIndex = c.pieceIndex := by
    rcases switchPiece_cases h1 with ⟨hi, rfl⟩ | ⟨-, n, -, -, -, rfl⟩
    · exact hi.symm
    · rfl
  have e2 : d2.currentPieceIndex = d1.currentPieceIndex := by
    rcases copyBlock_cases h2 with ⟨-, -, rfl⟩ | ⟨-, rfl⟩ <;> rfl
  rcases checkIntegrity_cases h3 with ⟨-, -, rfl⟩ | ⟨-, rfl⟩
  · rw [written_currentPieceIndex, addSpeed_currentPieceIndex, e2, e1]
  · rw [addSpeed_currentPieceIndex, e2, e1]

/-- The check reads outside the digests only for an index outside the torrent. -/
theorem receive_ne_fault_of_inRange (h : d.torrent.InRange c.pieceIndex.toInt) :
    receive d c ≠ .fault .pieceHashes := by
  intro hr
  rcases receive_fault_cases hr with h1 | ⟨d1, h1, h2 | ⟨d2, h2, h3⟩⟩
  · cases (switchPiece_fault h1).1
  · cases (copyBlock_fault h2).1
  · refine (checkIntegrity_fault h3).2.2 ?_
    rw [addSpeed_torrent, (copyBlock_sameFixed h2).1, (switchPiece_sameFixed h1).1]
    exact h

/-- What a block should do to the state: the check never reads outside the digests, and a block
with an index outside the torrent changes nothing of the piece under construction. -/
def IndexSafe (d : Downloader) (c : Call) : Prop :=
  receive d c ≠ .fault .pieceHashes ∧
  (¬ d.torrent.InRange c.pieceIndex.toInt → ∃ d', (receive d c).state? = some d' ∧
    d'.pieceBuffer = d.pieceBuffer ∧ d'.pieceBytesReceived = d.pieceBytesReceived ∧
    d'.currentPieceIndex = d.currentPieceIndex)

/-- The state before the first block, or one whose current piece is a piece of the torrent. -/
def OnPiece (d : Downloader) : Prop :=
  (d.currentPieceIndex = -1 ∧ d.pieceBuffer = [] ∧ d.pieceBytesReceived = 0) ∨
    d.torrent.InRange d.currentPieceIndex.toInt

/-- The check runs on the initial, empty buffer whatever the first block is. -/
theorem receive_fault_of_initial (hi : c.pieceIndex = -1) (hc : d.currentPieceIndex = -1)
    (hb : d.pieceBuffer = []) (h0 : d.pieceBytesReceived = 0)
    (hr : (receive d c).state? = some d') : False := by
  rcases receive_cases hr with ⟨e, -, hthrow, -⟩ | ⟨d1, d2, -, h1, h2, h3⟩
  · exact (switchPiece_throw hthrow).1 (hi.trans hc.symm)
  rw [switchPiece_same (hi.trans hc.symm)] at h1
  cases h1
  have hfull : d2.Full := by
    rcases copyBlock_cases h2 with ⟨-, hin, rfl⟩ | ⟨-, rfl⟩
    · have hd : c.data = [] := by
        obtain ⟨hge, hle⟩ := hin
        rw [hb, List.length_nil] at hle
        exact List.eq_nil_of_length_eq_zero (by omega)
      simp only [Full]
      rw [copied_pieceBuffer, copied_pieceBytesReceived, hd, Splice.overwrite_nil, hb, h0]
      decide
    · simp only [Full]
      rw [hb, h0]
      decide
  have ht := (copyBlock_sameFixed h2).1
  have hnone : (d2.addSpeed c.data.length).torrent.hashAt c.pieceIndex.toInt = none := by
    rw [addSpeed_torrent, hi, TorrentFile.hashAt_eq_none_iff]
    exact fun h => absurd h.1 (by decide)
  rw [checkIntegrity_eq, if_pos (show (d2.addSpeed c.data.length).Full from hfull), hnone] at h3
  cases h3

/-- From a state on a piece, a block is safe exactly if its index is one of the torrent's. -/
theorem indexSafe_iff (hon : OnPiece d) : IndexSafe d c ↔ d.torrent.InRange c.pieceIndex.toInt := by
  constructor
  · rintro ⟨-, hsame⟩
    by_contra hout
    obtain ⟨d', hr, -, -, hcur⟩ := hsame hout
    have hidx : c.pieceIndex = d.currentPieceIndex :=
      (receive_currentPieceIndex hr).symm.trans hcur
    rcases hon with ⟨hc, hb, h0⟩ | hin
    · exact receive_fault_of_initial (hidx.trans hc) hc hb h0 hr
    · exact hout (hidx ▸ hin)
  · exact fun hin => ⟨receive_ne_fault_of_inRange hin, fun hout => absurd hin hout⟩

/-- Blocks with indices of the torrent keep the state on a piece. -/
theorem receive_onPiece (hin : d.torrent.InRange c.pieceIndex.toInt)
    (hr : (receive d c).state? = some d') : OnPiece d' := by
  refine .inr ?_
  rw [receive_currentPieceIndex hr, (receive_sameFixed hr).1]
  exact hin

/-- Through a run of calls, every block is safe if and only if every block that is processed has an
index of the torrent. -/
theorem indexSafe_iff_inRange (t : TorrentFile) (id : Str) (cs : List Call) :
    (∀ pre c, pre ++ [c] <+: cs → ∀ d, exec receive (init t id) pre = some d → IndexSafe d c) ↔
    (∀ pre c, pre ++ [c] <+: cs → ∀ d, exec receive (init t id) pre = some d →
      t.InRange c.pieceIndex.toInt) := by
  -- along a run whose blocks so far had indices of the torrent, the state is on a piece
  have hon : ∀ pre, (∀ p c, p ++ [c] <+: pre → ∀ d, exec receive (init t id) p = some d →
      t.InRange c.pieceIndex.toInt) → ∀ d, exec receive (init t id) pre = some d → OnPiece d := by
    intro pre hpre d hd
    induction pre using List.reverseRecOn generalizing d with
    | nil =>
        cases Option.some.inj hd
        exact .inl ⟨rfl, rfl, rfl⟩
    | append_singleton pre c _ =>
        obtain ⟨d1, hd1, hr⟩ := exec_concat_eq_some hd
        refine receive_onPiece ?_ hr
        rw [exec_torrent hd1]
        exact hpre pre c (List.prefix_rfl) d1 hd1
  constructor
  · intro hsafe pre
    -- induction on the number of blocks before this one
    induction hn : pre.length using Nat.strong_induction_on generalizing pre with
    | _ n ih =>
        intro c hpre d hd
        have hd_on : OnPiece d := by
          refine hon pre (fun p c' hp d' hd' => ?_) d hd
          have hlt : p.length < n := by
            have := hp.length_le
            rw [List.length_append, List.length_singleton] at this
            omega
          exact ih p.length hlt p rfl c' (hp.trans ((List.prefix_append _ _).trans hpre)) d' hd'
        have := (indexSafe_iff hd_on).mp (hsafe pre c hpre d hd)
        rwa [exec_torrent hd] at this
  · intro hin pre c hpre d hd
    refine (indexSafe_iff (hon pre (fun p c' hp => hin p c' ?_) d hd)).mpr ?_
    · exact hp.trans ((List.prefix_append _ _).trans hpre)
    · rw [exec_torrent hd]
      exact hin pre c hpre d hd

/-- Index 2 of a torrent of two pieces: the block becomes the current piece, fills a buffer, and the
check reads past the digests.  As a first message, index `2 ^ 32 - 1` is enough without any data. -/
theorem index_outside_reaches_check :
    receive (init twoBytes []) ⟨true, (2 : UInt32).toInt32, 0, bytes "c"⟩ = .fault .pieceHashes ∧
    receive (init twoBytes []) ⟨true, (0xFFFFFFFF : UInt32).toInt32, 0, []⟩ =
      .fault .pieceHashes ∧
    ¬ IndexSafe (init twoBytes []) ⟨true, (2 : UInt32).toInt32, 0, bytes "c"⟩ := by
  have h2 : receive (init twoBytes []) ⟨true, (2 : UInt32).toInt32, 0, bytes "c"⟩ =
      .fault .pieceHashes := by decide +kernel
  exact ⟨h2, by decide +kernel, fun h => h.1 h2⟩

end Downloader

end NodeLink
