import NodeLink.Lib.Fips180
import NodeLink.Download.Downloader

/-!
# The integrity check against the file's digests

`Load` keeps the twenty raw bytes of each digest, and `Sha1::Calculate` renders
forty hexadecimal characters.  The two are compared as strings, so the check of
a piece of a loaded torrent never succeeds (`loaded_hash_ne_calculate`), whether
the content is right or not.
-/

namespace NodeLink

namespace Downloader

open Cpp

/-- The check of this call runs, and runs on the content `b` of the buffer. -/
def ChecksContent (d : Downloader) (c : Call) (b : Buffer) : Prop :=
  ∃ d1 d2, switchPiece c.alloc d c.pieceIndex = .ok d1 ∧
    copyBlock d1 c.offset c.data = .ok d2 ∧ d2.Full ∧ d2.pieceBuffer = b

/-- The call hands the content `b` to the writer. -/
def Accepts (d : Downloader) (c : Call) (b : Buffer) : Prop :=
  ∃ d' off, receive d c = .ok d' ∧ d'.fileWriter.q = d.fileWriter.q ++ [⟨b, off⟩]

/-- The digest `load` keeps for a piece is the slice of twenty bytes of the `pieces` string. -/
theorem loaded_hashAt {SHA1 : Buffer → Vector UInt8 20} {data : Buffer} {t : TorrentFile}
    (s : TorrentFile.Source data t SHA1) {i : Int} {h : Str} (hh : t.hashAt i = some h) :
    h = (s.blob.drop (20 * i.toNat)).take 20 ∧ h.length = 20 := by
  obtain ⟨h0, h1⟩ := TorrentFile.inRange_of_hashAt hh
  rw [TorrentFile.hashAt, if_pos h0, s.pieceHashes_eq] at hh
  rw [s.pieceHashes_eq] at h1
  have hlt : i.toNat < (TorrentFile.splitPieces s.blob).length := by omega
  rw [TorrentFile.splitPieces_getElem? hlt] at hh
  cases Option.some.inj hh
  exact ⟨rfl, TorrentFile.splitPieces_chunk_length s.blob_mod hlt⟩

/-- No digest of a loaded torrent is a rendering of `Sha1::Calculate`. -/
theorem loaded_hash_ne_calculate {SHA1 : Buffer → Vector UInt8 20} {data : Buffer}
    {t : TorrentFile} (s : TorrentFile.Source data t SHA1) (i : Int) (b : Buffer) :
    t.hashAt i ≠ some (Sha1.calculate b) := by
  intro hh
  have hlen := (loaded_hashAt s hh).2
  rw [Sha1.calculate_length] at hlen
  omega

/-- What is in the queue after a check: a job more if the hashes agree, else the same. -/
theorem receive_q_of_ne {d d' : Downloader} {c : Call} (h : receive d c = .ok d')
    (hne : ∀ b, d.torrent.hashAt c.pieceIndex.toInt ≠ some (Sha1.calculate b)) :
    d'.fileWriter.q = d.fileWriter.q := by
  rcases receive_cases (congrArg Outcome.state? h) with ⟨e, he, -⟩ | ⟨d1, d2, -, h1, h2, h3⟩
  · rw [h] at he; cases he
  have ht : d2.torrent = d.torrent :=
    (copyBlock_sameFixed h2).1.trans (switchPiece_sameFixed h1).1
  have hq1 := (switchPiece_fileWriter h1).1
  have hq2 := (copyBlock_fileWriter h2).1
  rcases checkIntegrity_cases h3 with ⟨-, hh, -⟩ | ⟨-, rfl⟩
  · rw [addSpeed_torrent, ht] at hh
    exact absurd hh (hne _)
  · rw [addSpeed_fileWriter, hq2, hq1]

/-- A check that runs on an index of the torrent returns. -/
theorem receive_returns_of_checksContent {d : Downloader} {c : Call} {b : Buffer}
    (hrange : d.torrent.InRange c.pieceIndex.toInt) (h : ChecksContent d c b) :
    ∃ d', receive d c = .ok d' := by
  obtain ⟨d1, d2, h1, h2, -, -⟩ := h
  have ht : d2.torrent = d.torrent :=
    (copyBlock_sameFixed h2).1.trans (switchPiece_sameFixed h1).1
  rw [receive_eq_check h1 h2]
  rw [checkIntegrity_eq]
  split
  · cases hh : (d2.addSpeed c.data.length).torrent.hashAt c.pieceIndex.toInt with
    | none =>
        rw [addSpeed_torrent, ht] at hh
        exact absurd hrange ((d.torrent.hashAt_eq_none_iff _).mp hh)
    | some s =>
        dsimp only
        split <;> exact ⟨_, rfl⟩
  · exact ⟨_, rfl⟩

/-- When the check of a loaded torrent's piece runs on a content, the call returns, and it accepts
the content if and only if the digest is the one in the file, exactly when the digest is not the
one in the file. -/
theorem accepts_iff_digest_eq_iff {SHA1 : Buffer → Vector UInt8 20} {filepath : String}
    {data : Buffer} {d : Downloader} {c : Call} {b : Buffer}
    (hload : TorrentFile.load SHA1 filepath (some data) = .ok d.torrent)
    (hrange : d.torrent.InRange c.pieceIndex.toInt) (hcheck : ChecksContent d c b) :
    (∃ d', receive d c = .ok d') ∧
    ((Accepts d c b ↔
        TorrentFile.digestInFile data c.pieceIndex.toInt.toNat = some (Fips180.sha1 b)) ↔
      TorrentFile.digestInFile data c.pieceIndex.toInt.toNat ≠ some (Fips180.sha1 b)) := by
  obtain ⟨s⟩ := TorrentFile.load_source hload
  have hno : ¬ Accepts d c b := by
    rintro ⟨d', off, hr, hq⟩
    rw [receive_q_of_ne hr (loaded_hash_ne_calculate s c.pieceIndex.toInt)] at hq
    have hl := congrArg List.length hq
    rw [List.length_append, List.length_singleton] at hl
    omega
  exact ⟨receive_returns_of_checksContent hrange hcheck,
    fun h he => hno (h.mpr he), fun hne => ⟨fun ha => absurd ha hno, fun he => absurd he hne⟩⟩

/-! ### A torrent of one byte

The file describes the one-byte content `a`, and its `pieces` string is the SHA-1 digest of it. -/

/-- OpenSSL's `SHA1`, as the standard defines it. -/
def openssl (m : Buffer) : Vector UInt8 20 := ⟨(Fips180.sha1 m).toArray, by simp⟩

/-- The SHA-1 digest of the byte `a`. -/
def digestOfA : Buffer :=
  [0x86, 0xf7, 0xe4, 0x37, 0xfa, 0xa5, 0xa7, 0xfc, 0xe1, 0x5d,
   0x1d, 0xdc, 0xb9, 0xea, 0xea, 0xea, 0x37, 0x76, 0x67, 0xb8]

/-- The bytes of the torrent file. -/
def fileOfA : Buffer :=
  bytes "d8:announce3:abc4:infod6:lengthi1e4:name1:a12:piece lengthi1e6:pieces20:" ++ digestOfA ++
    bytes "ee"

/-- The record `load` makes of it. -/
def torrentOfA : TorrentFile where
  announce := bytes "abc"
  name := bytes "a"
  length := 1
  pieceLength := 1
  pieceHashes := [digestOfA]
  infoHash :=
    [0x1b, 0x01, 0x43, 0xca, 0xf9, 0x9c, 0x0f, 0xa9, 0x00, 0xbc,
     0xbb, 0x6c, 0x7d, 0xc6, 0xa0, 0xdf, 0x3c, 0x08, 0xfd, 0x88]

theorem load_fileOfA : TorrentFile.load openssl "a.torrent" (some fileOfA) = .ok torrentOfA := by
  decide +kernel

theorem digestInFile_fileOfA :
    TorrentFile.digestInFile fileOfA 0 = some (Fips180.sha1 (bytes "a")) := by
  decide +kernel

/-- The one block of the one piece. -/
def callOfA : Call := ⟨true, 0, 0, bytes "a"⟩

theorem checksContent_callOfA : ChecksContent (init torrentOfA []) callOfA (bytes "a") :=
  ⟨_, _, rfl, rfl, by decide, by decide⟩

/-- The true content of the piece is delivered, its digest is the one in the file, and it is not
accepted. -/
theorem true_content_not_accepted :
    TorrentFile.load openssl "a.torrent" (some fileOfA) = .ok torrentOfA ∧
    ChecksContent (init torrentOfA []) callOfA (bytes "a") ∧
    TorrentFile.digestInFile fileOfA 0 = some (Fips180.sha1 (bytes "a")) ∧
    ¬ Accepts (init torrentOfA []) callOfA (bytes "a") := by
  refine ⟨load_fileOfA, checksContent_callOfA, digestInFile_fileOfA, ?_⟩
  rintro ⟨d', off, hr, hq⟩
  obtain ⟨s⟩ := TorrentFile.load_source load_fileOfA
  rw [receive_q_of_ne hr (loaded_hash_ne_calculate s 0)] at hq
  cases hq

/-- The law at the torrent of one byte. -/
theorem accepts_iff_digest_eq_iff_fileOfA :
    (Accepts (init torrentOfA []) callOfA (bytes "a") ↔
        TorrentFile.digestInFile fileOfA 0 = some (Fips180.sha1 (bytes "a"))) ↔
      TorrentFile.digestInFile fileOfA 0 ≠ some (Fips180.sha1 (bytes "a")) :=
  (accepts_iff_digest_eq_iff (d := init torrentOfA []) (c := callOfA) load_fileOfA (by decide)
    checksContent_callOfA).2

end Downloader

end NodeLink
