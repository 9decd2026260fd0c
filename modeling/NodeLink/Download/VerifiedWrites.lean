import NodeLink.Download.Accounting
import NodeLink.Download.BlockBounds

/-!
# What reaches the disk

Whatever blocks arrive, a job in the writer's queue is a verified piece at its
own place (`written_jobs_verified`).  The invariant (`WritesInv`) ties the size
of the buffer to the current piece.  The buffer has the size of the piece, or it
is the empty one the move into the queue left, and then the counter is not zero,
so the check does not run on it.
-/

namespace NodeLink

open Cpp

namespace Downloader

variable {d d' : Downloader} {c : Call} {cs : List Call} {t : TorrentFile} {id : Str}

/-- A job is a piece of the torrent, verified, of the right length and at the right place. -/
def JobOf (t : TorrentFile) (j : Job) : Prop :=
  ∃ k < t.pieceHashes.length, j.offset.toInt = k * t.pieceLength.toInt ∧
    j.b.length = t.lengthOfPiece k ∧ t.pieceHashes[k]? = some (Sha1.calculate j.b) ∧
    0 ≤ j.offset.toInt ∧ j.offset.toInt + j.b.length ≤ t.length.toInt

/-- The size of the buffer follows the current piece. -/
def BufferInv (d : Downloader) : Prop :=
  (d.currentPieceIndex = -1 ∧ d.pieceBuffer = []) ∨
  d.pieceBuffer.length = d.torrent.pieceSize d.currentPieceIndex.toInt ∨
  (d.pieceBuffer = [] ∧ d.pieceBytesReceived.toInt ≠ 0)

/-- The invariant of a run with a consistent torrent. -/
structure WritesInv (t : TorrentFile) (d : Downloader) : Prop where
  torrent_eq : d.torrent = t
  buffer : BufferInv d
  jobs : ∀ j ∈ d.fileWriter.q, JobOf t j

theorem writesInv_init (t : TorrentFile) (id : Str) : WritesInv t (init t id) where
  torrent_eq := rfl
  buffer := .inl ⟨rfl, rfl⟩
  jobs := fun _ hj => absurd hj (List.not_mem_nil)

/-- With memory, a change of piece never throws. -/
theorem switchPiece_ne_throw {i : Int32} {e : Exn} (hc : d.torrent.Consistent) :
    switchPiece true d i ≠ .throw e d' := by
  intro h
  obtain ⟨n, hn, h0, -⟩ := hc.pieceLen_ok i.toInt
  have hlt := n.toInt_lt
  have hcount : ¬ toSizeT n.toInt > maxSize := by
    simp only [toSizeT, maxSize]
    omega
  simp only [switchPiece] at h
  split at h
  · rw [hn] at h
    simp [assign, hcount] at h
  · cases h

theorem bufferInv_switchPiece {alloc : Bool} {i : Int32} (h : BufferInv d)
    (h1 : switchPiece alloc d i = .ok d') : BufferInv d' := by
  rcases switchPiece_cases h1 with ⟨-, rfl⟩ | ⟨-, n, hn, -, -, rfl⟩
  · exact h
  · refine .inr (.inl ?_)
    rw [cleared_pieceBuffer, List.length_replicate]
    exact (TorrentFile.pieceSize_of_pieceLen hn).symm

theorem bufferInv_copyBlock {offset : Int32} {data : Buffer} (h : BufferInv d)
    (h2 : copyBlock d offset data = .ok d') : BufferInv d' := by
  rcases copyBlock_cases h2 with ⟨-, ⟨h0, hle⟩, rfl⟩ | ⟨-, rfl⟩
  · -- a copy into the empty buffer is empty, and counts nothing
    have hempty : d.pieceBuffer = [] → data = [] := by
      intro hb
      rw [hb, List.length_nil] at hle
      exact List.eq_nil_of_length_eq_zero (by omega)
    rcases h with ⟨hi, hb⟩ | hlen | ⟨hb, hne⟩
    · refine .inl ⟨hi, ?_⟩
      rw [copied_pieceBuffer, hempty hb, Splice.overwrite_nil, hb]
    · refine .inr (.inl ?_)
      rw [copied_pieceBuffer, Splice.overwrite_length (by omega)]
      exact hlen
    · refine .inr (.inr ⟨?_, ?_⟩)
      · rw [copied_pieceBuffer, hempty hb, Splice.overwrite_nil, hb]
      · rw [copied_pieceBytesReceived, hempty hb, List.length_nil, Int.natCast_zero, Int.add_zero,
          Int32.ofInt_toInt]
        exact hne
  · exact h

/-- A check that writes: the index is a piece of the torrent, and the buffer has its size. -/
theorem full_pieceBuffer_length {i : Int32} (h : BufferInv d) (hi : d.currentPieceIndex = i)
    (hf : d.Full) (hr : d.torrent.InRange i.toInt) :
    d.pieceBuffer.length = d.torrent.pieceSize i.toInt := by
  rcases h with ⟨hm, -⟩ | hlen | ⟨hb, hne⟩
  · rw [← hi, hm] at hr
    exact absurd hr.1 (by decide)
  · rw [hlen, hi]
  · simp only [Full] at hf
    rw [hb] at hf
    exact absurd hf hne

/-- The job a check makes of a full buffer. -/
theorem jobOf_written {i : Int32} (hc : d.torrent.Consistent) (hr : d.torrent.InRange i.toInt)
    (hh : d.torrent.hashAt i.toInt = some (Sha1.calculate d.pieceBuffer))
    (hlen : d.pieceBuffer.length = d.torrent.pieceSize i.toInt) :
    JobOf d.torrent ⟨d.pieceBuffer, d.globalOffset i⟩ := by
  obtain ⟨k, hk⟩ := Int.eq_ofNat_of_zero_le hr.1
  have hkN : k < d.torrent.pieceHashes.length := by
    have := hr.2
    omega
  have hend := hc.offset_add_pieceSize_le hkN
  have hsz := hc.size_lt
  rw [hk] at hlen
  have hoff : (d.globalOffset i).toInt = (k * d.torrent.pieceUnit : Nat) := by
    have hprod : i.toInt * d.torrent.pieceLength.toInt = (k * d.torrent.pieceUnit : Nat) := by
      rw [hk, ← hc.pieceUnit_eq]
      push_cast
      rfl
    rw [globalOffset, hprod, toInt_ofInt64]
    omega
  refine ⟨k, hkN, ?_, ?_, ?_, ?_, ?_⟩
  · rw [hoff, ← hc.pieceUnit_eq]
    push_cast
    rfl
  · change d.pieceBuffer.length = _
    rw [hlen, hc.pieceSize_eq hkN, hc.lengthOfPiece_eq hkN]
  · rw [TorrentFile.hashAt, if_pos hr.1, hk] at hh
    exact hh
  · rw [hoff]
    exact Int.natCast_nonneg _
  · change (d.globalOffset i).toInt + d.pieceBuffer.length ≤ _
    rw [hoff, hlen, ← hc.size_eq]
    exact_mod_cast hend

theorem WritesInv.switchPiece {alloc : Bool} {i : Int32} (h : WritesInv t d)
    (h1 : switchPiece alloc d i = .ok d') : WritesInv t d' where
  torrent_eq := (switchPiece_sameFixed h1).1.trans h.torrent_eq
  buffer := bufferInv_switchPiece h.buffer h1
  jobs := by
    rw [(switchPiece_fileWriter h1).1]
    exact h.jobs

theorem WritesInv.copyBlock {offset : Int32} {data : Buffer} (h : WritesInv t d)
    (h2 : copyBlock d offset data = .ok d') : WritesInv t d' where
  torrent_eq := (copyBlock_sameFixed h2).1.trans h.torrent_eq
  buffer := bufferInv_copyBlock h.buffer h2
  jobs := by
    rw [(copyBlock_fileWriter h2).1]
    exact h.jobs

/-- A write moves the buffer away, and the counter keeps the length of a piece. -/
theorem WritesInv.written {i : Int32} (hc : t.Consistent) (h : WritesInv t d)
    (hi : d.currentPieceIndex = i) (hf : d.Full)
    (hh : d.torrent.hashAt i.toInt = some (Sha1.calculate d.pieceBuffer)) :
    WritesInv t (d.written i) := by
  have hin := TorrentFile.inRange_of_hashAt hh
  have hlen := full_pieceBuffer_length h.buffer hi hf hin
  obtain ⟨rfl, -, hjobs⟩ := h
  refine ⟨rfl, .inr (.inr ⟨rfl, ?_⟩), ?_⟩
  · change d.pieceBytesReceived.toInt ≠ 0
    simp only [Full] at hf
    obtain ⟨k, hk⟩ := Int.eq_ofNat_of_zero_le hin.1
    have hkN := hin.2
    have hpos := hc.pieceSize_pos (k := k) (by omega)
    rw [hf, hlen, hk]
    omega
  · intro j hj
    rw [written_fileWriter, Writer.add_q] at hj
    cases List.mem_append.mp hj with
    | inl hj => exact hjobs j hj
    | inr hj =>
        cases List.mem_singleton.mp hj
        exact jobOf_written hc hin hh hlen

/-- One call keeps the invariant. -/
theorem writesInv_receive (hc : t.Consistent) (h : WritesInv t d) (ha : c.alloc = true)
    (hr : (receive d c).state? = some d') : WritesInv t d' := by
  rcases receive_cases hr with ⟨e, -, hthrow, -⟩ | ⟨d1, d2, -, h1, h2, h3⟩
  · rw [ha] at hthrow
    exact absurd hthrow (switchPiece_ne_throw (h.torrent_eq ▸ hc))
  have hcur : d2.currentPieceIndex = c.pieceIndex := by
    have hd' := receive_currentPieceIndex hr
    rcases checkIntegrity_cases h3 with ⟨-, -, rfl⟩ | ⟨-, rfl⟩ <;> exact hd'
  have hcopied := (h.switchPiece h1).copyBlock h2
  have hcounted : WritesInv t (d2.addSpeed c.data.length) := ⟨hcopied.1, hcopied.2, hcopied.3⟩
  rcases checkIntegrity_cases h3 with ⟨hf, hh, rfl⟩ | ⟨-, rfl⟩
  · exact hcounted.written hc hcur hf hh
  · exact hcounted

/-- Every job a run without faults and with enough memory hands to the writer is a verified piece of
the torrent, of the piece's length and at its place inside the file. -/
theorem written_jobs_verified (hc : t.Consistent) (halloc : ∀ c ∈ cs, c.alloc = true)
    (hrun : exec receive (init t id) cs = some d) : ∀ j ∈ d.fileWriter.q, JobOf t j :=
  (exec_invariant (P := WritesInv t) (fun _ c _ hm h hr => writesInv_receive hc h (halloc c hm) hr)
    (writesInv_init t id) hrun).jobs

/-- The law at the torrent of two bytes, whose second piece arrives after a wrong one. -/
theorem written_jobs_verified_twoBytes :
    ∃ d, exec receive (init twoBytes []) [⟨true, 1, 0, bytes "x"⟩, ⟨true, 0, 0, bytes "a"⟩,
        ⟨true, 1, 0, bytes "b"⟩] = some d ∧
      d.fileWriter.q = [⟨bytes "a", 0⟩, ⟨bytes "b", 1⟩] ∧ ∀ j ∈ d.fileWriter.q, JobOf twoBytes j := by
  have hrun : (exec receive (init twoBytes []) [⟨true, 1, 0, bytes "x"⟩, ⟨true, 0, 0, bytes "a"⟩,
      ⟨true, 1, 0, bytes "b"⟩]).map (fun d => d.fileWriter.q) =
      some [⟨bytes "a", 0⟩, ⟨bytes "b", 1⟩] := by decide +kernel
  obtain ⟨d, hd, hq⟩ := Option.map_eq_some_iff.mp hrun
  exact ⟨d, hd, hq, written_jobs_verified ⟨by decide, by decide, by decide⟩ (by decide) hd⟩

end Downloader

end NodeLink
