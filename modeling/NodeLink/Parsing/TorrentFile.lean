import NodeLink.Parsing.Bnode

/-!
# Torrent files

`TorrentFile.load` is `TorrentFile::Load`.  OpenSSL's `SHA1` is a parameter: the
source hands it the re-encoded `info` value and keeps the twenty bytes it
writes.  A file that cannot be opened is `none`.

`piecesString` is what a file says its `pieces` string is.  `load_pieceHashes`
relates it to the list `load` cuts from it.
-/

namespace NodeLink

/-- The record `Load` fills. -/
structure TorrentFile where
  announce : Str
  name : Str
  length : Int64
  pieceLength : Int64
  pieceHashes : List Str
  infoHash : Buffer
deriving DecidableEq, Repr

namespace TorrentFile

open Bnode (lift raise)

/-- The loop that cuts the blob into chunks of twenty bytes. -/
def splitPieces (blob : Buffer) : List Str :=
  (List.range (blob.length / 20)).map fun k => (blob.drop (20 * k)).take 20

/-- `TorrentFile::Load` on a path and the contents of the file there. -/
def load (SHA1 : Buffer → Vector UInt8 20) (filepath : String) :
    Option Buffer → Except Halt TorrentFile
  | none => raise (.runtimeError ("Cannot open file: " ++ filepath))
  | some data => do
      let root ← Bnode.decode data
      let rootDict ← lift root.getDict
      let announce ← lift (Dict.at_ rootDict (bytes "announce"))
      let announce ← lift announce.toStr
      if Dict.count rootDict (bytes "info") = 0 then
        raise (.runtimeError "Invalid Torrent: Missing info")
      else
        let infoNode ← lift (Dict.at_ rootDict (bytes "info"))
        let infoDict ← lift infoNode.getDict
        let name ← lift (Dict.at_ infoDict (bytes "name"))
        let name ← lift name.toStr
        let pieceLength ← lift (Dict.at_ infoDict (bytes "piece length"))
        let pieceLength ← lift pieceLength.getInt
        if Dict.count infoDict (bytes "length") = 0 then
          raise (.runtimeError "Multi-file torrents not supported yet")
        else
          let length ← lift (Dict.at_ infoDict (bytes "length"))
          let length ← lift length.getInt
          let pieces ← lift (Dict.at_ infoDict (bytes "pieces"))
          let piecesBlob ← lift pieces.getString
          if piecesBlob.length % 20 ≠ 0 then raise (.runtimeError "Invalid pieces length")
          else
            return {
              announce, name, length, pieceLength
              pieceHashes := splitPieces piecesBlob
              infoHash := (SHA1 infoNode.encode).toList }

/-- The `pieces` string a file holds: the string at `pieces` of the dictionary at `info`. -/
def piecesString (data : Buffer) : Option Buffer :=
  match Bnode.decode data with
  | .ok (.dict root) =>
      match Dict.find? root (bytes "info") with
      | some (.dict info) =>
          match Dict.find? info (bytes "pieces") with
          | some (.str blob) => some blob
          | _ => none
      | _ => none
  | _ => none

/-- The twenty bytes `[20 * i, 20 * i + 20)` of the `pieces` string of a file. -/
def digestInFile (data : Buffer) (i : Nat) : Option Buffer :=
  (piecesString data).map fun blob => (blob.drop (20 * i)).take 20

/-! ## What an accepted file holds -/

/-- The parts of an accepted file that the fields of the record come from. -/
structure Source (data : Buffer) (t : TorrentFile) (SHA1 : Buffer → Vector UInt8 20) where
  /-- The entries of the file. -/
  root : List (Str × Bnode)
  /-- The entries of the `info` dictionary. -/
  info : List (Str × Bnode)
  /-- The `pieces` string. -/
  blob : Buffer
  decode_eq : Bnode.decode data = .ok (.dict root)
  info_eq : Dict.find? root (bytes "info") = some (.dict info)
  pieces_eq : Dict.find? info (bytes "pieces") = some (.str blob)
  length_eq : Dict.find? info (bytes "length") = some (.int t.length)
  pieceLength_eq : Dict.find? info (bytes "piece length") = some (.int t.pieceLength)
  blob_mod : blob.length % 20 = 0
  pieceHashes_eq : t.pieceHashes = splitPieces blob
  infoHash_eq : t.infoHash = (SHA1 (Bnode.dict info).encode).toList

/-- Every accepted file has all the parts, and the record holds what they say. -/
theorem load_source {SHA1 : Buffer → Vector UInt8 20} {filepath : String} {data : Buffer}
    {t : TorrentFile} (h : load SHA1 filepath (some data) = .ok t) :
    Nonempty (Source data t SHA1) := by
  simp only [load] at h
  obtain ⟨root, hroot, h⟩ := Bnode.bind_eq_ok h
  obtain ⟨rootDict, hrd, h⟩ := Bnode.bind_eq_ok h
  obtain ⟨announce, -, h⟩ := Bnode.bind_eq_ok h
  obtain ⟨announceStr, -, h⟩ := Bnode.bind_eq_ok h
  split at h
  · cases h
  obtain ⟨infoNode, hinfo, h⟩ := Bnode.bind_eq_ok h
  obtain ⟨infoDict, hid, h⟩ := Bnode.bind_eq_ok h
  obtain ⟨name, -, h⟩ := Bnode.bind_eq_ok h
  obtain ⟨nameStr, -, h⟩ := Bnode.bind_eq_ok h
  obtain ⟨plNode, hpl, h⟩ := Bnode.bind_eq_ok h
  obtain ⟨pl, hplv, h⟩ := Bnode.bind_eq_ok h
  split at h
  · cases h
  obtain ⟨lenNode, hlen, h⟩ := Bnode.bind_eq_ok h
  obtain ⟨len, hlenv, h⟩ := Bnode.bind_eq_ok h
  obtain ⟨pcNode, hpc, h⟩ := Bnode.bind_eq_ok h
  obtain ⟨blob, hblob, h⟩ := Bnode.bind_eq_ok h
  split at h
  · cases h
  rename_i hmod
  cases h
  have e1 := Bnode.getDict_eq_ok (Bnode.lift_eq_ok hrd)
  have e2 := Bnode.getDict_eq_ok (Bnode.lift_eq_ok hid)
  have e3 := Bnode.getInt_eq_ok (Bnode.lift_eq_ok hplv)
  have e4 := Bnode.getInt_eq_ok (Bnode.lift_eq_ok hlenv)
  have e5 := Bnode.getString_eq_ok (Bnode.lift_eq_ok hblob)
  subst e1 e2 e3 e4 e5
  exact ⟨{
    root := rootDict, info := infoDict, blob := blob
    decode_eq := hroot
    info_eq := Dict.at_eq_ok (Bnode.lift_eq_ok hinfo)
    pieces_eq := Dict.at_eq_ok (Bnode.lift_eq_ok hpc)
    length_eq := Dict.at_eq_ok (Bnode.lift_eq_ok hlen)
    pieceLength_eq := Dict.at_eq_ok (Bnode.lift_eq_ok hpl)
    blob_mod := not_not.mp hmod
    pieceHashes_eq := rfl
    infoHash_eq := rfl }⟩

/-! ## The chunks of the blob -/

@[simp] theorem splitPieces_length (blob : Buffer) :
    (splitPieces blob).length = blob.length / 20 := by
  simp [splitPieces]

/-- Chunk `i` is the slice `[20 * i, 20 * i + 20)`. -/
theorem splitPieces_getElem? {blob : Buffer} {i : Nat} (h : i < (splitPieces blob).length) :
    (splitPieces blob)[i]? = some ((blob.drop (20 * i)).take 20) := by
  rw [splitPieces_length] at h
  simp [splitPieces, h]

/-- Every chunk of a whole number of chunks has twenty bytes. -/
theorem splitPieces_chunk_length {blob : Buffer} (hm : blob.length % 20 = 0) {i : Nat}
    (h : i < (splitPieces blob).length) : ((blob.drop (20 * i)).take 20).length = 20 := by
  rw [splitPieces_length] at h
  rw [List.length_take, List.length_drop]
  omega

end TorrentFile

end NodeLink
