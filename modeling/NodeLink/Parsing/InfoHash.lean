import NodeLink.Parsing.Strict
import NodeLink.Parsing.TorrentFile

/-!
# The info hash

`infoBytes` is the buffer `Load` hashes, the `info` value encoded again.
`infoSlice` is the text of that value in the file.  It walks the entries of the
file as the decoder does, and where a file has several values at `info` it takes
the last, which is the one the map keeps.

`infoBytes_eq_infoSlice_iff` says when the two agree: if and only if the text of
the value is strict bencode.
-/

namespace NodeLink

namespace Dict

variable {α : Type}

theorem find?_cons (k : Str) (v : α) (d : List (Str × α)) (key : Str) :
    find? ((k, v) :: d) key = if k = key then some v else find? d key := by
  simp only [find?, List.find?_cons]
  split
  · rename_i h
    rw [if_pos (beq_iff_eq.mp h)]
    rfl
  · rename_i h
    rw [if_neg (beq_eq_false_iff_ne.mp h)]

/-- A map that was set at a key holds the value at that key and what it held elsewhere. -/
theorem find?_set {key k : Str} {val : α} : ∀ {d : List (Str × α)},
    find? (set k val d) key = if k = key then some val else find? d key
  | [] => find?_cons k val [] key
  | (k', v') :: d => by
      simp only [set]
      split
      · rename_i heq
        subst heq
        rw [find?_cons, find?_cons]
        split <;> rfl
      rename_i hne
      split
      · exact find?_cons k val _ key
      · rw [find?_cons, find?_cons, find?_set]
        split
        · rename_i h
          rw [if_neg fun e => hne (e.trans h.symm)]
        · rfl

end Dict

namespace TorrentFile

open Bnode

/-- The buffer `infoBytes` of `Load` for the contents of a file. -/
def infoBytes (data : Buffer) : Option Buffer :=
  match decode data with
  | .ok (.dict root) => (Dict.find? root (bytes "info")).map encode
  | _ => none

/-- The span of the last value at a key, in the entries of a dictionary from a cursor on. -/
def lastSpan (data : Buffer) (key : Str) : Nat → Nat → Option (Nat × Nat) → Option (Nat × Nat)
  | 0, _, _ => none
  | fuel + 1, index, last =>
      match data[index]? with
      | none => none
      | some c =>
          if c = 101 then last
          else
            match decodeElement data fuel index with
            | .ok (.str k, i) =>
                match decodeElement data fuel i with
                | .ok (_, j) => lastSpan data key fuel j (if k = key then some (i, j) else last)
                | .error _ => none
            | _ => none

/-- The text of the `info` value of a file. -/
def infoSlice (data : Buffer) : Option Buffer :=
  (lastSpan data (bytes "info") (fuelFor data - 1) 1 none).map fun s =>
    (data.drop s.1).take (s.2 - s.1)

/-! ## The span is the text of the value the map holds -/

/-- What a map holds at a key was read from the span. -/
def Spans (data : Buffer) (key : Str) (d : List (Str × Bnode)) (last : Option (Nat × Nat)) :
    Prop :=
  ∀ v, Dict.find? d key = some v → ∃ s f, last = some s ∧ decodeElement data f s.1 = .ok (v, s.2)

/-- Another entry replaces the value at its own key and no other. -/
theorem Spans.set {data : Buffer} {key k : Str} {d : List (Str × Bnode)}
    {last : Option (Nat × Nat)} {f i j : Nat} {v : Bnode} (h : Spans data key d last)
    (hv : decodeElement data f i = .ok (v, j)) :
    Spans data key (Dict.set k v d) (if k = key then some (i, j) else last) := by
  intro w hw
  rw [Dict.find?_set] at hw
  split at hw
  · rename_i hk
    cases hw
    rw [if_pos hk]
    exact ⟨(i, j), f, rfl, hv⟩
  · rename_i hk
    rw [if_neg hk]
    exact h w hw

/-- The loop over the entries and the walk over them stay together. -/
theorem lastSpan_spans {data : Buffer} {key : Str} : ∀ {fuel i j : Nat}
    {entries root : List (Str × Bnode)} {last : Option (Nat × Nat)},
    decodeDict data fuel i entries = .ok (.dict root, j) → Spans data key entries last →
    Spans data key root (lastSpan data key fuel i last)
  | 0, _, _, _, _, _, h, _ => by cases h
  | fuel + 1, i, j, entries, root, last, h, hs => by
      simp only [lastSpan]
      rcases decodeDict_cases h with ⟨h0, heq, -⟩ | ⟨c, k, a, w, b, h0, hne, hk, hw, h⟩
      · cases heq
        rw [h0]
        exact hs
      · rw [h0]
        simp only [if_neg hne]
        rw [hk]
        simp only
        rw [hw]
        exact lastSpan_spans h (hs.set hw)

/-! ## The entries of a file -/

/-- The rest of a list is a list. -/
theorem decodeList_list {data : Buffer} : ∀ {fuel i j : Nat} {items : List Bnode} {v : Bnode},
    decodeList data fuel i items = .ok (v, j) → ∃ vs, v = .list vs
  | 0, _, _, _, _, h => by cases h
  | fuel + 1, _, _, _, _, h => by
      rcases decodeList_cases h with ⟨-, rfl, -⟩ | ⟨_, _, _, -, -, -, h⟩
      · exact ⟨_, rfl⟩
      · exact decodeList_list h

/-- An element that is a map was read by the loop over its entries. -/
theorem decodeDict_of_decodeElement {data : Buffer} {fuel i j : Nat}
    {root : List (Str × Bnode)} (h : decodeElement data fuel i = .ok (.dict root, j)) :
    ∃ n, fuel = n + 1 ∧ decodeDict data n (i + 1) [] = .ok (.dict root, j) := by
  cases fuel with
  | zero => cases h
  | succ n =>
      rcases decodeElement_cases h with ⟨-, h⟩ | ⟨-, h⟩ | ⟨-, h⟩ | ⟨-, h⟩
      · obtain ⟨_, hv, -⟩ := decodeInt_cases h
        cases hv
      · obtain ⟨_, hv⟩ := decodeList_list h
        cases hv
      · exact ⟨n, rfl, h⟩
      · obtain ⟨_, -, -, -, -, hv⟩ := decodeString_cases h
        cases hv

/-- The slice of an accepted file is the text its `info` value was read from. -/
theorem infoSlice_of_source {SHA1 : Buffer → Vector UInt8 20} {data : Buffer} {t : TorrentFile}
    (s : Source data t SHA1) : ∃ i j f, infoSlice data = some ((data.drop i).take (j - i)) ∧
      decodeElement data f i = .ok (.dict s.info, j) := by
  have h := s.decode_eq
  simp only [decode] at h
  obtain ⟨⟨v, j⟩, hv, h⟩ := bind_eq_ok h
  cases h
  obtain ⟨n, hn, hdict⟩ := decodeDict_of_decodeElement hv
  have hempty : Spans data (bytes "info") [] none := fun v hv => by cases hv
  obtain ⟨⟨a, b⟩, f, hlast, hread⟩ :=
    lastSpan_spans hdict hempty (.dict s.info) s.info_eq
  refine ⟨a, b, f, ?_, hread⟩
  simp only [infoSlice]
  rw [hn, Nat.add_sub_cancel, hlast]
  rfl

theorem infoBytes_of_source {SHA1 : Buffer → Vector UInt8 20} {data : Buffer} {t : TorrentFile}
    (s : Source data t SHA1) : infoBytes data = some (encode (.dict s.info)) := by
  simp only [infoBytes]
  rw [s.decode_eq]
  simp only
  rw [s.info_eq]
  rfl

/-! ## When the two agree -/

/-- A value that was read from strict text is the one the text encodes. -/
theorem encode_eq_of_strict {data s : Buffer} {i j f : Nat} {v : Bnode}
    (hdata : data.length ≤ Cpp.maxSize) (h : decodeElement data f i = .ok (v, j))
    (hs : s = (data.drop i).take (j - i)) (hstrict : Strict s) : encode v = s := by
  simp only [Cpp.maxSize] at hdata
  have hb := decodeElement_bounds (by omega) h
  have hlen : s.length = j - i := by
    rw [hs, List.length_take, List.length_drop]
    omega
  obtain ⟨w, hw, henc⟩ := exists_encode_of_strict hstrict
  rw [← henc] at hlen hs
  have hat : StandsAt data i (encode w) := by
    rw [hs]
    exact List.take_prefix _ _
  have hread := decodeElement_encode w hw (by omega) (by omega) (Nat.le_refl _) hat
  rw [(decodeElement_unique h hread).1, henc]

/-- `Load` hashes the bytes of the `info` value as they stand in the file if and only if
they are strict bencode. -/
theorem infoBytes_eq_infoSlice_iff {SHA1 : Buffer → Vector UInt8 20} {filepath : String}
    {data : Buffer} {t : TorrentFile} (hdata : data.length ≤ Cpp.maxSize)
    (h : load SHA1 filepath (some data) = .ok t) :
    ∃ hashed slice, infoBytes data = some hashed ∧ t.infoHash = (SHA1 hashed).toList ∧
      infoSlice data = some slice ∧ (hashed = slice ↔ Strict slice) := by
  obtain ⟨s⟩ := load_source h
  obtain ⟨i, j, f, hslice, hread⟩ := infoSlice_of_source s
  refine ⟨_, _, infoBytes_of_source s, s.infoHash_eq, hslice, ?_, ?_⟩
  · intro heq
    rw [← heq]
    exact strict_encode (decodeElement_wellFormed hread)
  · intro hstrict
    exact encode_eq_of_strict hdata hread rfl hstrict

/-- A file whose `info` value has these entries, in this order. -/
def torrentOf (entries : List String) : Buffer :=
  bytes "d8:announce1:u4:infod" ++ (entries.map bytes).flatten ++ bytes "ee"

/-- The entries of a file of one piece of one byte. -/
def onePiece : List String :=
  ["6:lengthi1e", "4:name1:x", "12:piece lengthi1e", "6:pieces20:AAAAAAAAAAAAAAAAAAAA"]

theorem exists_of_toBool {ε α : Type} {x : Except ε α} (h : x.toBool = true) :
    ∃ a, x = .ok a := by
  cases x with
  | ok a => exact ⟨a, rfl⟩
  | error e => cases h

/-- The file with the keys of its `info` value in order. -/
theorem infoBytes_eq_infoSlice_iff_onePiece :
    ∃ t, load (fun _ => Vector.replicate 20 0) "a.torrent" (some (torrentOf onePiece)) = .ok t ∧
      ∃ hashed slice, infoBytes (torrentOf onePiece) = some hashed ∧
        t.infoHash = (Vector.replicate 20 (0 : UInt8)).toList ∧
        infoSlice (torrentOf onePiece) = some slice ∧ (hashed = slice ↔ Strict slice) := by
  obtain ⟨t, ht⟩ := exists_of_toBool (x := load (fun _ => Vector.replicate 20 0) "a.torrent"
    (some (torrentOf onePiece))) (by decide +kernel)
  exact ⟨t, ht, infoBytes_eq_infoSlice_iff (by decide +kernel) ht⟩

/-- With the keys in another order the file is accepted, but what is hashed is not what it
holds. -/
theorem infoBytes_ne_infoSlice :
    ¬∀ (SHA1 : Buffer → Vector UInt8 20) (filepath : String) (data : Buffer) (t : TorrentFile),
      data.length ≤ Cpp.maxSize → load SHA1 filepath (some data) = .ok t →
        infoBytes data = infoSlice data := by
  intro h
  obtain ⟨t, ht⟩ := exists_of_toBool (x := load (fun _ => Vector.replicate 20 0) "a.torrent"
    (some (torrentOf onePiece.reverse))) (by decide +kernel)
  exact absurd (h _ _ _ t (by decide +kernel) ht) (by decide +kernel)

end TorrentFile

end NodeLink
