import NodeLink.Download.Blocks
import NodeLink.Download.Geometry
import NodeLink.Download.BlockBounds

/-!
# Putting a piece together

What `OnBlockReceived` does with a run of consecutive blocks of one piece, each
with its true bytes.  `Filling d k a c` is the state before block `c` of a run
that began with block `a`: the counter holds the length of the run, and the
buffer, if the run began at the start, holds the bytes so far and zeros behind
them.  `Filled d k a c` is the state after a run of the blocks from `a` to
`c - 1`.

One more block takes the run one further (`receive_next`), a block of another
piece starts a run of its own (`receive_switch`).  A piece is handed to the
writer exactly by the run of all its blocks.
-/

namespace NodeLink

open Cpp

/-- A torrent of `content`: consistent, with pieces below `2 ^ 31` bytes and the digests as
`Sha1::Calculate` renders them. -/
structure Describes (t : TorrentFile) (content : Buffer) : Prop where
  consistent : t.Consistent
  pieceLength_lt : t.pieceLength.toInt < 2 ^ 31
  length_eq : content.length = t.size
  hashes : ∀ k < t.pieceHashes.length,
    t.pieceHashes[k]? = some (Sha1.calculate (Tiling.tile content t.pieceUnit k))

/-- The bytes of piece `k`. -/
def pieceData (t : TorrentFile) (content : Buffer) (k : Nat) : Buffer :=
  Tiling.tile content t.pieceUnit k

/-- The bytes of block `c` of piece `k`. -/
def blockData (t : TorrentFile) (content : Buffer) (k c : Nat) : Buffer :=
  Tiling.tile (pieceData t content k) blockUnit c

/-- The job of piece `k`. -/
def pieceJob (t : TorrentFile) (content : Buffer) (k : Nat) : Job :=
  ⟨pieceData t content k, Int64.ofNat (k * t.pieceUnit)⟩

/-- A number as it arrives: a `uint32_t` converted to `int`. -/
def wireInt (x : Nat) : Int32 := (UInt32.ofNat x).toInt32

/-- The call that delivers block `c` of piece `k`. -/
def blockCall (t : TorrentFile) (content : Buffer) (k c : Nat) : Downloader.Call :=
  ⟨true, wireInt k, wireInt (blockBegin c), blockData t content k c⟩

theorem toInt_wireInt {x : Nat} (h : x < 2 ^ 31) : (wireInt x).toInt = x := by
  have hx : (UInt32.ofNat x).toNat = x := UInt32.toNat_ofNat_of_lt (by
    have : UInt32.size = 2 ^ 32 := rfl
    omega)
  rw [wireInt, toInt_toInt32_of_lt (by rw [hx]; exact h), hx]

theorem wireInt_inj {x y : Nat} (hx : x < 2 ^ 31) (hy : y < 2 ^ 31) (h : wireInt x = wireInt y) :
    x = y := by
  have := congrArg Int32.toInt h
  rw [toInt_wireInt hx, toInt_wireInt hy] at this
  omega

namespace Describes

variable {t : TorrentFile} {content : Buffer} (h : Describes t content) {k c : Nat}

include h

theorem pieceData_length (hk : k < t.pieceHashes.length) :
    (pieceData t content k).length = t.lengthOfPiece k := by
  rw [pieceData, Tiling.tile_length, h.length_eq, h.consistent.lengthOfPiece_eq hk]

theorem lengthOfPiece_lt (hk : k < t.pieceHashes.length) : t.lengthOfPiece k < 2 ^ 31 := by
  have h1 := Tiling.size_le (n := t.size) (p := t.pieceUnit) (i := k)
  have h2 := h.consistent.pieceUnit_eq
  have h3 := h.pieceLength_lt
  rw [h.consistent.lengthOfPiece_eq hk]
  omega

theorem lengthOfPiece_pos (hk : k < t.pieceHashes.length) : 0 < t.lengthOfPiece k := by
  rw [h.consistent.lengthOfPiece_eq hk, ← h.consistent.pieceSize_eq hk]
  exact h.consistent.pieceSize_pos hk

theorem blockCount_pos (hk : k < t.pieceHashes.length) : 0 < blockCount (t.lengthOfPiece k) :=
  (Tiling.count_pos_iff blockUnit_pos).mpr (h.lengthOfPiece_pos hk)

theorem blockData_length (hk : k < t.pieceHashes.length) :
    (blockData t content k c).length = blockLen (t.lengthOfPiece k) c := by
  rw [blockData, Tiling.tile_length, h.pieceData_length hk, blockLen]

/-- The length the code computes. -/
theorem pieceLen (hk : k < t.pieceHashes.length) :
    ∃ n, t.pieceLen k = .ok n ∧ n.toInt = t.lengthOfPiece k := by
  obtain ⟨n, hn, hv⟩ := h.consistent.pieceLen_eq hk
  exact ⟨n, hn, by rw [hv, h.consistent.lengthOfPiece_eq hk]⟩

end Describes

namespace Downloader

variable {t : TorrentFile} {content : Buffer} {d d' : Downloader} {k k' a c : Nat}

/-- The state before block `c` of a run of blocks of piece `k` that began with block `a`. -/
structure Filling (t : TorrentFile) (content : Buffer) (d : Downloader) (k a c : Nat) : Prop where
  torrent : d.torrent = t
  start_le : a ≤ c
  current : d.currentPieceIndex = wireInt k
  received : d.pieceBytesReceived.toInt = (blockBegin c : Int) - blockBegin a
  length : d.pieceBuffer.length = t.lengthOfPiece k
  bytes : a = 0 → d.pieceBuffer = (pieceData t content k).take (blockBegin c) ++
    List.replicate (t.lengthOfPiece k - blockBegin c) 0

/-- The run from block `a` to the block before `c` is the whole piece. -/
def Whole (t : TorrentFile) (k a c : Nat) : Prop :=
  a = 0 ∧ c = blockCount (t.lengthOfPiece k)

instance (t : TorrentFile) (k a c : Nat) : Decidable (Whole t k a c) :=
  inferInstanceAs (Decidable (_ ∧ _))

/-- The state after a run of the blocks of piece `k` from `a` to the one before `c`.  A run of the whole
piece has left an empty buffer. -/
structure Filled (t : TorrentFile) (content : Buffer) (d : Downloader) (k a c : Nat) : Prop where
  torrent : d.torrent = t
  current : d.currentPieceIndex = wireInt k
  going : c < blockCount (t.lengthOfPiece k) → Filling t content d k a c

/-- The queue after the run. -/
def queued (t : TorrentFile) (content : Buffer) (q : List Job) (k a c : Nat) : List Job :=
  if Whole t k a c then q ++ [pieceJob t content k] else q

/-- The job of a verified piece is its true content at its true place. -/
theorem globalOffset_eq (h : Describes t content) (hk31 : k < 2 ^ 31) (ht : d.torrent = t) :
    d.globalOffset (wireInt k) = Int64.ofNat (k * t.pieceUnit) := by
  rw [globalOffset, toInt_wireInt hk31, ht, ← h.consistent.pieceUnit_eq]
  exact congrArg Int64.ofInt (Int.natCast_mul k t.pieceUnit).symm

/-- The state after the copy of block `c` of such a run, before the check. -/
structure CopiedBlock (t : TorrentFile) (content : Buffer) (d : Downloader) (k a c : Nat) : Prop where
  torrent : d.torrent = t
  start_le : a ≤ c
  current : d.currentPieceIndex = wireInt k
  received : d.pieceBytesReceived.toInt =
    (blockBegin c : Int) + blockLen (t.lengthOfPiece k) c - blockBegin a
  length : d.pieceBuffer.length = t.lengthOfPiece k
  bytes : a = 0 → d.pieceBuffer = (pieceData t content k).take (blockBegin (c + 1)) ++
    List.replicate (t.lengthOfPiece k - (blockBegin c + blockLen (t.lengthOfPiece k) c)) 0

/-- Block `c` fits into the buffer and is copied behind the blocks before it. -/
theorem copyBlock_filling (h : Describes t content) (hk : k < t.pieceHashes.length)
    (hc : c < blockCount (t.lengthOfPiece k)) (hf : Filling t content d k a c) :
    ∃ d', copyBlock d (wireInt (blockBegin c)) (blockData t content k c) = .ok d' ∧
      CopiedBlock t content d' k a c ∧ d'.fileWriter = d.fileWriter := by
  have hm := h.lengthOfPiece_lt hk
  have hbegin := blockBegin_lt_iff.mpr hc
  have hend := blockEnd_le hbegin
  have hlen := h.blockData_length (c := c) hk
  have hoff : (wireInt (blockBegin c)).toInt = blockBegin c := toInt_wireInt (by omega)
  have hba : blockBegin a ≤ blockBegin c := Nat.mul_le_mul_right _ hf.start_le
  have hinside : d.CopyInside (wireInt (blockBegin c)) (blockData t content k c) := by
    refine ⟨by rw [hoff]; exact Int.natCast_nonneg _, ?_⟩
    rw [hoff, hlen, hf.length]
    exact_mod_cast hend
  have hguard : d.CopyGuard (wireInt (blockBegin c)) (blockData t content k c) := by
    simp only [CopyGuard]
    rw [hoff, toSizeT_natCast (by omega), hlen, hf.length, Nat.mod_eq_of_lt (by omega)]
    exact hend
  refine ⟨d.copied (wireInt (blockBegin c)) (blockData t content k c), ?_,
    ⟨hf.torrent, hf.start_le, hf.current, ?_, ?_, fun ha => ?_⟩, rfl⟩
  · rw [copyBlock, if_pos hguard, if_pos hinside]
  · rw [copied_pieceBytesReceived, toInt_ofInt32, hf.received, hlen]
    omega
  · rw [copied_pieceBuffer, hoff, Int.toNat_natCast,
      Splice.overwrite_length (by rw [hlen, hf.length]; exact hend), hf.length]
  · have htake : ((pieceData t content k).take (blockBegin c)).length = blockBegin c := by
      rw [List.length_take, h.pieceData_length hk]
      omega
    have hover := Splice.overwrite_append_replicate ((pieceData t content k).take (blockBegin c))
      (blockData t content k c) 0 (t.lengthOfPiece k - blockBegin c)
    rw [htake] at hover
    rw [copied_pieceBuffer, hoff, Int.toNat_natCast, hf.bytes ha, hover, hlen, Nat.sub_sub]
    exact congrArg (· ++ _) (Tiling.take_append_tile _ blockUnit c)

namespace CopiedBlock

variable (hd : CopiedBlock t content d k a c)

include hd

/-- The check finds the piece full exactly if the run is the whole of it. -/
theorem full_iff (hc : c < blockCount (t.lengthOfPiece k)) : d.Full ↔ Whole t k a (c + 1) := by
  have hbegin := blockBegin_lt_iff.mpr hc
  have hend := blockEnd_le hbegin
  have hcase := blockEnd_eq hbegin
  simp only [Full]
  rw [hd.received, hd.length]
  constructor
  · intro hfull
    have hb0 : blockBegin a = 0 := by omega
    refine ⟨by unfold blockBegin blockUnit at hb0; omega, ?_⟩
    by_contra hn
    rw [if_neg hn] at hcase
    have := blockBegin_lt_iff.mpr (show c + 1 < blockCount (t.lengthOfPiece k) by omega)
    omega
  · rintro ⟨rfl, hlast⟩
    rw [if_pos hlast] at hcase
    have hb0 : blockBegin 0 = 0 := rfl
    omega

/-- The buffer of a whole piece holds its content. -/
theorem pieceBuffer_of_whole (h : Describes t content) (hk : k < t.pieceHashes.length)
    (hc : c < blockCount (t.lengthOfPiece k)) (hw : Whole t k a (c + 1)) :
    d.pieceBuffer = pieceData t content k := by
  obtain ⟨ha, hlast⟩ := hw
  have hcase := blockEnd_eq (blockBegin_lt_iff.mpr hc)
  rw [if_pos hlast] at hcase
  have hge : (pieceData t content k).length ≤ blockBegin (c + 1) := by
    rw [h.pieceData_length hk]
    by_contra hn
    have := blockBegin_lt_iff.mp (Nat.not_le.mp hn)
    omega
  rw [hd.bytes ha, hcase, Nat.sub_self, List.replicate_zero, List.append_nil,
    List.take_of_length_le hge]

/-- The whole piece is there: it is verified and moves into the queue. -/
theorem check_whole (h : Describes t content) (hk : k < t.pieceHashes.length) (hk31 : k < 2 ^ 31)
    (hc : c < blockCount (t.lengthOfPiece k)) (hw : Whole t k a (c + 1)) (n : Nat) :
    ∃ d', checkIntegrity (d.addSpeed n) (wireInt k) = .ok d' ∧ Filled t content d' k a (c + 1) ∧
      d'.fileWriter.q = d.fileWriter.q ++ [pieceJob t content k] := by
  have hall := hd.pieceBuffer_of_whole h hk hc hw
  have hfull : (d.addSpeed n).Full := (hd.full_iff hc).mpr hw
  have hhash : (d.addSpeed n).torrent.hashAt (wireInt k).toInt =
      some (Sha1.calculate d.pieceBuffer) := by
    rw [addSpeed_torrent, hd.torrent, toInt_wireInt hk31, TorrentFile.hashAt,
      if_pos (Int.natCast_nonneg k), Int.toNat_natCast, h.hashes k hk, hall]
    rfl
  refine ⟨(d.addSpeed n).written (wireInt k), ?_, ⟨hd.torrent, hd.current, ?_⟩, ?_⟩
  · rw [checkIntegrity_eq, if_pos hfull, hhash]
    exact if_pos rfl
  · exact fun hlt => absurd hw.2 (by omega)
  · rw [written_fileWriter, Writer.add_q, addSpeed_pieceBuffer, hall,
      globalOffset_eq (d := d.addSpeed n) h hk31 hd.torrent]
    rfl

/-- Some block of the piece is missing: the check does not run. -/
theorem check_partial (hc : c < blockCount (t.lengthOfPiece k)) (hw : ¬ Whole t k a (c + 1))
    (n : Nat) :
    checkIntegrity (d.addSpeed n) (wireInt k) = .ok (d.addSpeed n) ∧
      Filled t content (d.addSpeed n) k a (c + 1) := by
  have hnot : ¬ (d.addSpeed n).Full := mt (hd.full_iff hc).mp hw
  have hcase := blockEnd_eq (blockBegin_lt_iff.mpr hc)
  refine ⟨by rw [checkIntegrity_eq, if_neg hnot], hd.torrent, hd.current, fun hlt => ?_⟩
  rw [if_neg (by omega)] at hcase
  refine ⟨hd.torrent, Nat.le_succ_of_le hd.start_le, hd.current, ?_, hd.length, fun ha => ?_⟩
  · rw [addSpeed_pieceBytesReceived, hd.received]
    omega
  · rw [addSpeed_pieceBuffer, hd.bytes ha, hcase]

end CopiedBlock

/-- Block `c` of a run: it is copied, and the check hands the piece over if the run is the whole. -/
theorem receive_filling (h : Describes t content) (hk : k < t.pieceHashes.length)
    (hk31 : k < 2 ^ 31) (hc : c < blockCount (t.lengthOfPiece k))
    (hsw : switchPiece true d (wireInt k) = .ok d') (hf : Filling t content d' k a c) :
    ∃ d'', receive d (blockCall t content k c) = .ok d'' ∧ Filled t content d'' k a (c + 1) ∧
      d''.fileWriter.q = queued t content d'.fileWriter.q k a (c + 1) := by
  obtain ⟨d2, hcopy, hd2, hq2⟩ := copyBlock_filling h hk hc hf
  have hrec := receive_eq_check (c := blockCall t content k c) hsw hcopy
  rw [hrec, queued, ← hq2]
  by_cases hw : Whole t k a (c + 1)
  · rw [if_pos hw]
    exact hd2.check_whole h hk hk31 hc hw _
  · rw [if_neg hw]
    obtain ⟨hcheck, hfilled⟩ := hd2.check_partial hc hw (blockCall t content k c).data.length
    exact ⟨_, hcheck, hfilled, rfl⟩

/-- The next block of a run. -/
theorem receive_next (h : Describes t content) (hk : k < t.pieceHashes.length)
    (hk31 : k < 2 ^ 31) (hc : c < blockCount (t.lengthOfPiece k))
    (hf : Filled t content d k a c) :
    ∃ d', receive d (blockCall t content k c) = .ok d' ∧ Filled t content d' k a (c + 1) ∧
      d'.fileWriter.q = queued t content d.fileWriter.q k a (c + 1) :=
  receive_filling h hk hk31 hc (switchPiece_same hf.current.symm) (hf.going hc)

/-- A block of another piece starts a run. -/
theorem receive_switch (h : Describes t content) (hk : k < t.pieceHashes.length)
    (hk31 : k < 2 ^ 31) (hc : c < blockCount (t.lengthOfPiece k)) (ht : d.torrent = t)
    (hcur : d.currentPieceIndex ≠ wireInt k) :
    ∃ d', receive d (blockCall t content k c) = .ok d' ∧ Filled t content d' k c (c + 1) ∧
      d'.fileWriter.q = queued t content d.fileWriter.q k c (c + 1) := by
  obtain ⟨n, hn, hv⟩ := h.pieceLen hk
  have hm := h.lengthOfPiece_lt hk
  have hsw : switchPiece true d (wireInt k) =
      .ok ((d.switched (wireInt k)).cleared (t.lengthOfPiece k)) := by
    refine switchPiece_of_pieceLen (Ne.symm hcur) ?_ hv hm
    rw [ht, toInt_wireInt hk31, hn]
  have hf : Filling t content ((d.switched (wireInt k)).cleared (t.lengthOfPiece k)) k c c := by
    refine ⟨ht, le_refl c, rfl, (Int.sub_self _).symm, ?_, ?_⟩
    · rw [cleared_pieceBuffer, List.length_replicate]
    · rintro rfl
      have h0 : blockBegin 0 = 0 := rfl
      rw [cleared_pieceBuffer, h0, List.take_zero, List.nil_append, Nat.sub_zero]
  obtain ⟨d', hd', hfilled, hq⟩ := receive_filling h hk hk31 hc hsw hf
  exact ⟨d', hd', hfilled, hq⟩

end Downloader

end NodeLink
