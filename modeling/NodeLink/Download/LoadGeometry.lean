import NodeLink.Parsing.InfoHash
import NodeLink.Download.Accounting
import NodeLink.Download.FrameBounds
import NodeLink.Download.Handlers

/-!
# The geometry `Load` accepts

Of the three fields a torrent's geometry comes from, `Load` checks one: the size
of `pieces` has to be a multiple of twenty.  `load_sound_iff` says for which files
that is enough.  They are those whose own three fields fit together, since `Load`
takes all three as they are.
-/

namespace NodeLink

open Cpp

namespace TorrentFile

/-- What a file says about its geometry: `length`, `piece length` and the size of `pieces`. -/
def geometryInFile (data : Buffer) : Option (Int64 × Int64 × Nat) :=
  match Bnode.decode data with
  | .ok (.dict root) =>
      match Dict.find? root (bytes "info") with
      | some (.dict info) =>
          match Dict.find? info (bytes "length"), Dict.find? info (bytes "piece length"),
            Dict.find? info (bytes "pieces") with
          | some (.int length), some (.int pieceLength), some (.str blob) =>
              some (length, pieceLength, blob.length)
          | _, _, _ => none
      | _ => none
  | _ => none

theorem geometryInFile_of_source {SHA1 : Buffer → Vector UInt8 20} {data : Buffer}
    {t : TorrentFile} (s : Source data t SHA1) :
    geometryInFile data = some (t.length, t.pieceLength, s.blob.length) := by
  simp only [geometryInFile]
  rw [s.decode_eq]
  simp only
  rw [s.info_eq]
  simp only
  rw [s.length_eq, s.pieceLength_eq, s.pieces_eq]

/-- A geometry the download can work with. -/
structure Sound (t : TorrentFile) : Prop where
  consistent : t.Consistent
  /-- Every piece has a positive length. -/
  pieceLen_pos : ∀ k < t.pieceHashes.length, ∃ n, t.pieceLen (k : Nat) = .ok n ∧ 0 < n.toInt
  /-- The lengths of the pieces sum to that of the file. -/
  sum_eq : t.SizesSumToLength
  /-- `RequestNextBlock` does not run into an undefined remainder. -/
  request_defined : ∀ s : Session, s.dl.torrent = t → s.requestNextBlock ≠ .fault .division
  /-- `OnBlockReceived` does not run into an undefined remainder. -/
  receive_defined : ∀ (d : Downloader) (c : Downloader.Call), d.torrent = t →
    Downloader.receive d c ≠ .fault .division

namespace Consistent

variable {t : TorrentFile} (h : t.Consistent)

include h

theorem pieceLen_ne_error (i : Int) (f : Fault) : t.pieceLen i ≠ .error f := by
  obtain ⟨n, hn, -⟩ := h.pieceLen_ok i
  rw [hn]
  nofun

theorem requestBlock_ne_fault {s : Session} (hs : s.dl.torrent = t) (f : Fault) :
    s.requestBlock ≠ .fault f := by
  obtain ⟨n, hn, -⟩ := h.pieceLen_ok s.conn.currentPiece.toInt
  intro hf
  simp only [Session.requestBlock] at hf
  rw [hs, hn, Outcome.checked_ok, Session.sendRequest] at hf
  split at hf
  · rcases Session.send_cases s (s.request n) with hok | ⟨e, hthrow⟩
    · rw [hok] at hf
      cases hf
    · rw [hthrow] at hf
      cases hf
  · cases hf

/-- The search for a piece changes the counter, not the torrent. -/
theorem requestNextBlock_ne_fault {s : Session} (hs : s.dl.torrent = t) (f : Fault) :
    s.requestNextBlock ≠ .fault f := by
  intro hf
  simp only [Session.requestNextBlock] at hf
  split at hf
  · cases hf
  split at hf
  · split at hf
    · refine h.requestBlock_ne_fault ?_ f hf
      have hsearch := Session.findPiece_search s.dl.torrent.pieceHashes.length s
      rcases hfind : Session.findPiece s.dl.torrent.pieceHashes.length s with ⟨found, s1⟩
      rw [hfind] at hsearch
      exact (congrArg Downloader.torrent (Session.search_frame hsearch).dl).trans hs
    · cases hf
  · exact h.requestBlock_ne_fault hs f hf

theorem receive_ne_fault {d : Downloader} {c : Downloader.Call} (hd : d.torrent = t) :
    Downloader.receive d c ≠ .fault .division := by
  intro hf
  rcases Downloader.receive_fault_cases hf with h1 | ⟨d1, -, h2 | ⟨d2, -, h3⟩⟩
  · have hl := (Downloader.switchPiece_fault h1).2
    rw [hd] at hl
    exact h.pieceLen_ne_error _ _ hl
  · cases (Downloader.copyBlock_fault h2).1
  · cases (Downloader.checkIntegrity_fault h3).1

/-- A torrent whose digests are as many as its pieces is one the download can work with. -/
theorem sound : t.Sound where
  consistent := h
  pieceLen_pos k _ := by
    obtain ⟨n, hn, hpos, -⟩ := h.pieceLen_ok k
    exact ⟨n, hn, hpos⟩
  sum_eq := h.sizesSumToLength
  request_defined _ hs := h.requestNextBlock_ne_fault hs _
  receive_defined _ _ hd := h.receive_ne_fault hd

end Consistent

/-- An accepted file has a sound geometry if and only if its own fields fit together. -/
theorem load_sound_iff {SHA1 : Buffer → Vector UInt8 20} {filepath : String} {data : Buffer}
    {t : TorrentFile} (h : load SHA1 filepath (some data) = .ok t) :
    ∃ length pieceLength blobSize,
      geometryInFile data = some (length, pieceLength, blobSize) ∧
      (t.Sound ↔ 0 < pieceLength.toInt ∧ 0 ≤ length.toInt ∧
        blobSize = 20 * Tiling.count length.toInt.toNat pieceLength.toInt.toNat) := by
  obtain ⟨s⟩ := load_source h
  refine ⟨_, _, _, geometryInFile_of_source s, ?_⟩
  have hcount : t.pieceHashes.length = s.blob.length / 20 := by
    rw [s.pieceHashes_eq, splitPieces_length]
  have hmod := s.blob_mod
  constructor
  · intro hs
    refine ⟨hs.consistent.pieceLength_pos, hs.consistent.length_nonneg, ?_⟩
    have hc := hs.consistent.count_eq
    simp only [size, pieceUnit] at hc
    omega
  · rintro ⟨hp, hl, hblob⟩
    refine Consistent.sound ⟨hp, hl, ?_⟩
    simp only [size, pieceUnit]
    omega

/-- The file of one piece of one byte. -/
theorem load_sound_iff_onePiece :
    ∃ t, load (fun _ => Vector.replicate 20 0) "a.torrent" (some (torrentOf onePiece)) = .ok t ∧
      ∃ length pieceLength blobSize,
        geometryInFile (torrentOf onePiece) = some (length, pieceLength, blobSize) ∧
        (t.Sound ↔ 0 < pieceLength.toInt ∧ 0 ≤ length.toInt ∧
          blobSize = 20 * Tiling.count length.toInt.toNat pieceLength.toInt.toNat) := by
  obtain ⟨t, ht⟩ := exists_of_toBool (x := load (fun _ => Vector.replicate 20 0) "a.torrent"
    (some (torrentOf onePiece))) (by decide +kernel)
  exact ⟨t, ht, load_sound_iff ht⟩

/-- A file whose pieces are empty is accepted. -/
theorem load_not_sound :
    ¬∀ (SHA1 : Buffer → Vector UInt8 20) (filepath : String) (data : Buffer) (t : TorrentFile),
      load SHA1 filepath (some data) = .ok t → t.Sound := by
  intro h
  obtain ⟨t, ht⟩ := exists_of_toBool (x := load (fun _ => Vector.replicate 20 0) "a.torrent"
    (some (torrentOf ["6:lengthi1e", "4:name1:x", "12:piece lengthi0e",
      "6:pieces20:AAAAAAAAAAAAAAAAAAAA"]))) (by decide +kernel)
  obtain ⟨s⟩ := load_source ht
  have hgeo := geometryInFile_of_source s
  have h0 : geometryInFile (torrentOf ["6:lengthi1e", "4:name1:x", "12:piece lengthi0e",
      "6:pieces20:AAAAAAAAAAAAAAAAAAAA"]) = some (1, 0, 20) := by decide +kernel
  rw [h0] at hgeo
  have hp := (h _ _ _ t ht).consistent.pieceLength_pos
  simp only [Option.some.injEq, Prod.mk.injEq] at hgeo
  rw [← hgeo.2.1] at hp
  exact absurd hp (by decide)

end TorrentFile

end NodeLink
