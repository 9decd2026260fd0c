import Mathlib.Data.List.Dedup
import Mathlib.Data.List.Induction
import Mathlib.Algebra.Order.BigOperators.Group.List
import NodeLink.Download.Geometry

/-!
# The byte counter

`downloaded_bytes` is meant to be the total length of the pieces written so far.
`OnBlockReceived` advances it by `piece_buffer.size()` after `Writer::add` has
moved the buffer away, so it is advanced by zero (`exec_downloadedBytes`).

`handedPieces` reads the pieces a run handed to the writer off the growth of the
queue.  `Accounted` is the law the counter should obey, and
`accounted_iff_no_piece_written` says it holds through a run exactly if the run
writes no piece that has a byte in it.
-/

namespace NodeLink

open Cpp

namespace Downloader

variable {d d' : Downloader} {c : Call} {cs : List Call} {t : TorrentFile} {id : Str}

/-! ## What a run hands over -/

/-- The call runs the check and the hashes agree: the branch that hands the piece over. -/
def verifies (d : Downloader) (c : Call) : Bool :=
  match switchPiece c.alloc d c.pieceIndex with
  | .ok d1 =>
      match copyBlock d1 c.offset c.data with
      | .ok d2 =>
          decide d2.Full &&
            d2.torrent.hashAt c.pieceIndex.toInt == some (Sha1.calculate d2.pieceBuffer)
      | _ => false
  | _ => false

/-- The pieces a run hands to the writer, one entry for each time the queue grows. -/
def handedPieces : Downloader → List Call → List Int
  | _, [] => []
  | d, c :: cs =>
      match (receive d c).state? with
      | none => []
      | some d' =>
          (if d.fileWriter.q.length < d'.fileWriter.q.length then [c.pieceIndex.toInt] else []) ++
            handedPieces d' cs

/-- A call that verifies its piece puts one job in the queue. -/
theorem receive_of_verifies (h : verifies d c = true) :
    ∃ d' b off, receive d c = .ok d' ∧ d'.fileWriter.q = d.fileWriter.q ++ [⟨b, off⟩] := by
  simp only [verifies] at h
  split at h
  next d1 h1 =>
    split at h
    next d2 h2 =>
      obtain ⟨hf, hh⟩ := Bool.and_eq_true_iff.mp h
      have hh := eq_of_beq hh
      refine ⟨(d2.addSpeed c.data.length).written c.pieceIndex, d2.pieceBuffer,
        (d2.addSpeed c.data.length).globalOffset c.pieceIndex, (receive_eq_check h1 h2).trans ?_, ?_⟩
      · rw [checkIntegrity_eq, if_pos (show (d2.addSpeed c.data.length).Full from of_decide_eq_true hf),
          addSpeed_torrent, hh]
        exact if_pos rfl
      · rw [written_fileWriter, Writer.add_q, addSpeed_fileWriter, (copyBlock_fileWriter h2).1,
          (switchPiece_fileWriter h1).1]
        rfl
    next => cases h
  next => cases h

/-- A call that does not verify its piece leaves the queue as it is. -/
theorem receive_q_of_not_verifies (h : verifies d c = false) (hr : (receive d c).state? = some d') :
    d'.fileWriter.q = d.fileWriter.q := by
  rcases receive_cases hr with ⟨e, -, -, rfl⟩ | ⟨d1, d2, -, h1, h2, h3⟩
  · rfl
  have hq1 := (switchPiece_fileWriter h1).1
  have hq2 := (copyBlock_fileWriter h2).1
  rcases checkIntegrity_cases h3 with ⟨hf, hh, -⟩ | ⟨-, rfl⟩
  · simp only [verifies, h1, h2] at h
    have hf' : d2.Full := hf
    rw [addSpeed_torrent, addSpeed_pieceBuffer] at hh
    simp [hf', hh] at h
  · rw [addSpeed_fileWriter, hq2, hq1]

/-- The queue grows exactly in the calls that verify their piece. -/
theorem q_grows_iff (hr : (receive d c).state? = some d') :
    d.fileWriter.q.length < d'.fileWriter.q.length ↔ verifies d c = true := by
  constructor
  · intro hlt
    by_contra hv
    rw [receive_q_of_not_verifies (by simpa using hv) hr] at hlt
    omega
  · intro hv
    obtain ⟨d'', b, off, hr', hq⟩ := receive_of_verifies hv
    rw [hr'] at hr
    cases Option.some.inj hr
    rw [hq, List.length_append, List.length_singleton]
    omega

/-- The pieces of a run with one more call. -/
theorem handedPieces_concat {d0 : Downloader} (h : exec receive d0 cs = some d)
    (hr : (receive d c).state? = some d') :
    handedPieces d0 (cs ++ [c]) =
      handedPieces d0 cs ++ (if verifies d c = true then [c.pieceIndex.toInt] else []) := by
  induction cs generalizing d0 with
  | nil =>
      cases Option.some.inj h
      simp only [List.nil_append, handedPieces, hr, q_grows_iff hr, List.append_nil]
  | cons a as ih =>
      rw [exec_cons] at h
      obtain ⟨d1, hd1, hrest⟩ := Option.bind_eq_some_iff.mp h
      simp only [List.cons_append, handedPieces, hd1, ih hrest, List.append_assoc]

/-! ## The counter -/

/-- No call moves the counter. -/
theorem receive_downloadedBytes (hr : (receive d c).state? = some d') :
    d'.downloadedBytes = d.downloadedBytes := by
  rcases receive_cases hr with ⟨e, -, -, rfl⟩ | ⟨d1, d2, -, h1, h2, h3⟩
  · rfl
  have e1 := (switchPiece_fileWriter h1).2
  have e2 := (copyBlock_fileWriter h2).2
  rcases checkIntegrity_cases h3 with ⟨-, -, rfl⟩ | ⟨-, rfl⟩
  · -- `add` has emptied the buffer before its size is read
    rw [written_downloadedBytes, Writer.add_buffer, List.length_nil, Int.natCast_zero, Int.add_zero,
      Int64.ofInt_toInt, addSpeed_downloadedBytes, e2, e1]
  · rw [addSpeed_downloadedBytes, e2, e1]

/-- The counter is zero in every reachable state. -/
theorem exec_downloadedBytes (h : exec receive (init t id) cs = some d) :
    d.downloadedBytes = 0 :=
  exec_invariant (P := fun s => s.downloadedBytes = 0)
    (fun _ _ _ _ h0 hr => (receive_downloadedBytes hr).trans h0) rfl h

end Downloader

/-- Every piece has a length, and the lengths sum to that of the file. -/
def TorrentFile.SizesSumToLength (t : TorrentFile) : Prop :=
  (∀ k < t.pieceHashes.length, ∃ n, t.pieceLen (k : Nat) = .ok n) ∧
    (((List.range t.pieceHashes.length).map fun k : Nat => t.pieceSize k).sum : Nat) = t.length.toInt

/-- The pieces of a consistent torrent sum to the length of its file. -/
theorem TorrentFile.Consistent.sizesSumToLength {t : TorrentFile} (h : t.Consistent) :
    t.SizesSumToLength := by
  refine ⟨fun k _ => ?_, ?_⟩
  · obtain ⟨n, hn, -⟩ := h.pieceLen_ok k
    exact ⟨n, hn⟩
  · have hsizes : (List.range t.pieceHashes.length).map (fun k : Nat => t.pieceSize k) =
        (List.range t.pieceHashes.length).map (Tiling.size t.size t.pieceUnit) :=
      List.map_congr_left fun k hk => h.pieceSize_eq (List.mem_range.mp hk)
    rw [hsizes, h.count_eq, Tiling.sum_size h.pieceUnit_pos, h.size_eq]

namespace Downloader

variable {d d' : Downloader} {c : Call} {cs : List Call} {t : TorrentFile} {id : Str}

/-- What the counter should say in a state whose run has handed over the pieces of a list. -/
structure Accounted (d : Downloader) (handed : List Int) : Prop where
  /-- The counter is the sum of the lengths of the distinct pieces. -/
  counter : d.downloadedBytes.toInt = ((handed.dedup.map d.torrent.pieceSize).sum : Nat)
  /-- It never passes the length of the file. -/
  bounded : d.torrent.SizesSumToLength → d.downloadedBytes.toInt ≤ d.torrent.length.toInt
  /-- The download is complete exactly when every piece has been handed over. -/
  complete : d.torrent.SizesSumToLength →
    (d.isComplete = true ↔ ∀ k < d.torrent.pieceHashes.length, (k : Int) ∈ handed)

/-- The law holds in a state whose counter is zero and whose pieces are empty. -/
theorem accounted_of_empty_pieces {handed : List Int} (h0 : d.downloadedBytes = 0)
    (hz : ∀ i ∈ handed, d.torrent.pieceSize i = 0) : Accounted d handed := by
  have hsum : (handed.dedup.map d.torrent.pieceSize).sum = 0 := by
    apply List.sum_eq_zero
    intro n hn
    obtain ⟨i, hi, rfl⟩ := List.mem_map.mp hn
    exact hz i (List.mem_dedup.mp hi)
  have hv : d.downloadedBytes.toInt = 0 := by rw [h0]; exact Int64.toInt_zero
  refine ⟨by rw [hv, hsum]; rfl, fun hs => ?_, fun hs => ?_⟩
  · rw [hv, ← hs.2]
    exact Int.natCast_nonneg _
  · obtain ⟨hdef, hlen⟩ := hs
    rw [isComplete, decide_eq_true_iff, hv, ← hlen]
    by_cases hN : d.torrent.pieceHashes.length = 0
    · simp [hN]
    · -- the last piece is not empty, so neither side holds
      obtain ⟨n, hn⟩ := hdef (d.torrent.pieceHashes.length - 1) (by omega)
      have hlast : d.torrent.IsLast ((d.torrent.pieceHashes.length - 1 : Nat) : Int) := by
        simp only [TorrentFile.IsLast]
        omega
      have hne := TorrentFile.pieceSize_last_ne_zero hlast hn
      have hle := List.single_le_sum (l := (List.range d.torrent.pieceHashes.length).map
        fun k : Nat => d.torrent.pieceSize k) (fun _ _ => Nat.zero_le _) _
        (List.mem_map_of_mem (List.mem_range.mpr (show
          d.torrent.pieceHashes.length - 1 < d.torrent.pieceHashes.length by omega)))
      constructor
      · intro hge
        exfalso
        have : (0 : Int) ≥ (((List.range d.torrent.pieceHashes.length).map
          fun k : Nat => d.torrent.pieceSize k).sum : Nat) := hge
        omega
      · intro hall
        exact absurd (hz _ (hall (d.torrent.pieceHashes.length - 1) (by omega))) hne

/-- The law fails once a piece with a byte in it has been handed over. -/
theorem not_accounted_of_mem {handed : List Int} {i : Int} (h0 : d.downloadedBytes = 0)
    (hi : i ∈ handed) (hz : d.torrent.pieceSize i ≠ 0) : ¬ Accounted d handed := by
  intro ha
  have hc := ha.counter
  have hle := List.single_le_sum (l := handed.dedup.map d.torrent.pieceSize)
    (fun _ _ => Nat.zero_le _) _ (List.mem_map_of_mem (List.mem_dedup.mpr hi))
  rw [h0, Int64.toInt_zero] at hc
  omega

/-- Through a run of calls, the counter, its bound and `IsComplete` are right in every state reached
if and only if no call of the run verifies a piece of non-zero length. -/
theorem accounted_iff_no_piece_written (t : TorrentFile) (id : Str) (cs : List Call) :
    (∀ pre, pre <+: cs → ∀ d, exec receive (init t id) pre = some d →
      Accounted d (handedPieces (init t id) pre)) ↔
    (∀ pre c, pre ++ [c] <+: cs → ∀ d, exec receive (init t id) pre = some d →
      ¬ (verifies d c = true ∧ t.pieceSize c.pieceIndex.toInt ≠ 0)) := by
  constructor
  · rintro hall pre c hpre d hd ⟨hv, hz⟩
    obtain ⟨d', b, off, hr, -⟩ := receive_of_verifies hv
    have hr' : (receive d c).state? = some d' := by rw [hr]; rfl
    have hrun : exec receive (init t id) (pre ++ [c]) = some d' := by rw [exec_concat hd, hr']
    have hmem : c.pieceIndex.toInt ∈ handedPieces (init t id) (pre ++ [c]) := by
      rw [handedPieces_concat hd hr', if_pos hv]
      exact List.mem_append_right _ (List.mem_singleton_self _)
    have ht : d'.torrent = t := exec_torrent hrun
    exact not_accounted_of_mem (exec_downloadedBytes hrun) hmem (by rw [ht]; exact hz)
      (hall _ hpre _ hrun)
  · intro hall pre hpre d hd
    refine accounted_of_empty_pieces (exec_downloadedBytes hd) ?_
    rw [exec_torrent hd]
    change ∀ i ∈ handedPieces (init t id) pre, t.pieceSize i = 0
    -- induction on the run: a piece is only handed over by a call that verifies it
    induction pre using List.reverseRecOn generalizing d with
    | nil => intro i hi; cases hi
    | append_singleton pre c ih =>
        obtain ⟨d1, hd1, hr⟩ := exec_concat_eq_some hd
        rw [handedPieces_concat hd1 hr]
        intro i hi
        cases List.mem_append.mp hi with
        | inl hi => exact ih ((List.prefix_append _ _).trans hpre) d1 hd1 i hi
        | inr hi =>
            by_cases hv : verifies d1 c = true
            · rw [if_pos hv, List.mem_singleton] at hi
              subst hi
              by_contra hz
              exact hall pre c hpre d1 hd1 ⟨hv, hz⟩
            · rw [if_neg hv] at hi
              cases hi

/-- A torrent of the one byte `a`, its digest written the way the check writes it. -/
def hexTorrentOfA : TorrentFile where
  announce := bytes "abc"
  name := bytes "a"
  length := 1
  pieceLength := 1
  pieceHashes := [Sha1.calculate (bytes "a")]
  infoHash := []

/-- The only piece has been handed over, the counter still says zero, and the download is not
complete. -/
theorem counter_misses_the_piece :
    hexTorrentOfA.SizesSumToLength ∧
    ∃ d, exec receive (init hexTorrentOfA []) [⟨true, 0, 0, bytes "a"⟩] = some d ∧
      handedPieces (init hexTorrentOfA []) [⟨true, 0, 0, bytes "a"⟩] = [0] ∧
      d.fileWriter.q = [⟨bytes "a", 0⟩] ∧ d.downloadedBytes = 0 ∧ d.isComplete = false ∧
      ¬ Accounted d [0] := by
  have hsum : hexTorrentOfA.SizesSumToLength := by
    refine ⟨fun k hk => ⟨1, ?_⟩, by decide +kernel⟩
    obtain rfl : k = 0 := by
      have : hexTorrentOfA.pieceHashes.length = 1 := rfl
      omega
    decide +kernel
  have hrun : (exec receive (init hexTorrentOfA []) [⟨true, 0, 0, bytes "a"⟩]).map
      (fun d => (d.fileWriter.q, d.downloadedBytes, d.isComplete, d.torrent.pieceSize 0)) =
      some ([⟨bytes "a", 0⟩], 0, false, 1) := by decide +kernel
  obtain ⟨d, hd, hf⟩ := Option.map_eq_some_iff.mp hrun
  simp only [Prod.mk.injEq] at hf
  obtain ⟨hq, hb, hc, hp⟩ := hf
  refine ⟨hsum, d, hd, by decide +kernel, hq, hb, hc, ?_⟩
  exact not_accounted_of_mem hb (List.mem_singleton_self 0) (by rw [hp]; decide)

end Downloader

end NodeLink
