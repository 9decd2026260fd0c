import NodeLink.Lib.Tiling
import NodeLink.Download.Downloader

/-!
# The geometry of a torrent

`Consistent` says that the number of digests is the number of pieces the length
is cut into.  The code computes a piece's length with a remainder
(`TorrentFile.pieceLen`), and `Consistent.pieceLen_eq` says that this is the
size of the tile.
-/

namespace NodeLink

open Cpp

namespace TorrentFile

/-- The number of bytes `OnBlockReceived` allocates for a piece. -/
def pieceSize (t : TorrentFile) (i : Int) : Nat :=
  match t.pieceLen i with
  | .ok n => toSizeT n.toInt
  | .error _ => 0

theorem pieceSize_of_pieceLen {t : TorrentFile} {i : Int} {n : Int64} (h : t.pieceLen i = .ok n) :
    t.pieceSize i = toSizeT n.toInt := by
  rw [pieceSize, h]

theorem int64_toInt_ne_zero {n : Int64} (h : n ≠ 0) : n.toInt ≠ 0 := fun h0 =>
  h (Int64.toInt_inj.mp (h0.trans Int64.toInt_zero.symm))

/-- The last piece is never empty. -/
theorem pieceSize_last_ne_zero {t : TorrentFile} {n : Int64} {i : Int} (hl : t.IsLast i)
    (h : t.pieceLen i = .ok n) : t.pieceSize i ≠ 0 := by
  have hn : n.toInt ≠ 0 := by
    apply int64_toInt_ne_zero
    rw [pieceLen, if_pos hl] at h
    split at h
    · cases h
    · next hd =>
      split at h
      · next hr => cases h; exact hr
      · cases h; exact fun h0 => hd (Or.inl h0)
  have h1 := n.toInt_lt
  have h2 := n.le_toInt
  rw [pieceSize_of_pieceLen h, toSizeT]
  omega

/-- The length of the file as a number of bytes. -/
def size (t : TorrentFile) : Nat := t.length.toInt.toNat

/-- The length of a full piece as a number of bytes. -/
def pieceUnit (t : TorrentFile) : Nat := t.pieceLength.toInt.toNat

/-- The length of piece `k`: that of a full piece, or the remainder for a short last one. -/
def lengthOfPiece (t : TorrentFile) (k : Nat) : Nat :=
  if k + 1 = t.pieceHashes.length ∧ t.size % t.pieceUnit ≠ 0 then t.size % t.pieceUnit
  else t.pieceUnit

/-- The digests are as many as the pieces the length is cut into. -/
structure Consistent (t : TorrentFile) : Prop where
  pieceLength_pos : 0 < t.pieceLength.toInt
  length_nonneg : 0 ≤ t.length.toInt
  count_eq : t.pieceHashes.length = Tiling.count t.size t.pieceUnit

namespace Consistent

variable {t : TorrentFile} (h : t.Consistent)

include h

theorem pieceUnit_eq : (t.pieceUnit : Int) = t.pieceLength.toInt := by
  have := h.pieceLength_pos
  simp only [pieceUnit]
  omega

theorem pieceUnit_pos : 0 < t.pieceUnit := by
  have := h.pieceLength_pos
  simp only [pieceUnit]
  omega

theorem size_eq : (t.size : Int) = t.length.toInt := by
  have := h.length_nonneg
  simp only [size]
  omega

theorem size_lt : t.size < 2 ^ 63 := by
  have := h.size_eq
  have := t.length.toInt_lt
  omega

/-- No division of the code is undefined. -/
theorem division_defined :
    ¬ (t.pieceLength = 0 ∨ (t.length = Int64.minValue ∧ t.pieceLength = -1)) := by
  have hp := h.pieceLength_pos
  rintro (h0 | ⟨-, h1⟩)
  · rw [h0] at hp
    exact absurd hp (by decide)
  · rw [h1] at hp
    exact absurd hp (by decide)

theorem rem_toInt : (t.length % t.pieceLength).toInt = (t.size % t.pieceUnit : Nat) := by
  rw [Int64.toInt_mod, Int.tmod_eq_emod_of_nonneg h.length_nonneg, ← h.size_eq, ← h.pieceUnit_eq]
  exact (Int.natCast_emod _ _).symm

/-- Whatever the index, a piece has a length, positive and at most that of a full piece. -/
theorem pieceLen_ok (i : Int) :
    ∃ n, t.pieceLen i = .ok n ∧ 0 < n.toInt ∧ n.toInt ≤ t.pieceLength.toInt := by
  have hp := h.pieceLength_pos
  simp only [pieceLen]
  split
  · rw [if_neg h.division_defined]
    split
    · next hr =>
      refine ⟨_, rfl, ?_, ?_⟩
      · have hne := int64_toInt_ne_zero hr
        rw [h.rem_toInt] at hne ⊢
        omega
      · rw [h.rem_toInt, ← h.pieceUnit_eq]
        exact_mod_cast (Nat.mod_lt _ h.pieceUnit_pos).le
    · exact ⟨_, rfl, hp, le_refl _⟩
  · exact ⟨_, rfl, hp, le_refl _⟩

/-- The length the code computes for a piece of the torrent is the size of the tile. -/
theorem pieceLen_eq {k : Nat} (hk : k < t.pieceHashes.length) :
    ∃ n, t.pieceLen k = .ok n ∧ n.toInt = Tiling.size t.size t.pieceUnit k := by
  have hp := h.pieceUnit_pos
  have hc := h.count_eq
  simp only [pieceLen]
  split
  next hl =>
    have hlast : k + 1 = Tiling.count t.size t.pieceUnit := by
      simp only [IsLast] at hl
      omega
    rw [Tiling.size_last hp hlast, if_neg h.division_defined]
    split
    · next hr =>
      have hne := int64_toInt_ne_zero hr
      rw [h.rem_toInt] at hne
      exact ⟨_, rfl, by rw [h.rem_toInt, if_neg (by exact_mod_cast hne)]⟩
    · next hr =>
      have h0 : (t.length % t.pieceLength).toInt = 0 := by
        rw [not_not.mp hr]
        rfl
      rw [h.rem_toInt] at h0
      exact ⟨_, rfl, by rw [if_pos (by exact_mod_cast h0), h.pieceUnit_eq]⟩
  next hl =>
    have hlt : k + 1 < Tiling.count t.size t.pieceUnit := by
      simp only [IsLast] at hl
      omega
    refine ⟨_, rfl, ?_⟩
    rw [Tiling.size_of_succ_lt hp hlt, h.pieceUnit_eq]

/-- The length of a piece of the torrent is the size of the tile. -/
theorem lengthOfPiece_eq {k : Nat} (hk : k < t.pieceHashes.length) :
    t.lengthOfPiece k = Tiling.size t.size t.pieceUnit k := by
  have hc := h.count_eq
  simp only [lengthOfPiece]
  by_cases hlast : k + 1 = t.pieceHashes.length
  · rw [Tiling.size_last h.pieceUnit_pos (by omega)]
    by_cases h0 : t.size % t.pieceUnit = 0
    · rw [if_neg (fun hn => hn.2 h0), if_pos h0]
    · rw [if_pos ⟨hlast, h0⟩, if_neg h0]
  · rw [if_neg (fun hn => hlast hn.1), Tiling.size_of_succ_lt h.pieceUnit_pos (by omega)]

/-- What is allocated for a piece of the torrent is the size of the tile. -/
theorem pieceSize_eq {k : Nat} (hk : k < t.pieceHashes.length) :
    t.pieceSize k = Tiling.size t.size t.pieceUnit k := by
  obtain ⟨n, hn, hv⟩ := h.pieceLen_eq hk
  have hsz := h.size_lt
  have hle := Tiling.offset_add_size_le h.pieceUnit_pos (h.count_eq ▸ hk)
  rw [pieceSize_of_pieceLen hn, hv, toSizeT_natCast (by omega)]

/-- Every piece of the torrent ends inside the file. -/
theorem offset_add_pieceSize_le {k : Nat} (hk : k < t.pieceHashes.length) :
    k * t.pieceUnit + t.pieceSize k ≤ t.size := by
  rw [h.pieceSize_eq hk]
  exact Tiling.offset_add_size_le h.pieceUnit_pos (h.count_eq ▸ hk)

theorem pieceSize_pos {k : Nat} (hk : k < t.pieceHashes.length) : 0 < t.pieceSize k := by
  rw [h.pieceSize_eq hk]
  exact Tiling.size_pos h.pieceUnit_pos (h.count_eq ▸ hk)

end Consistent

end TorrentFile

end NodeLink
