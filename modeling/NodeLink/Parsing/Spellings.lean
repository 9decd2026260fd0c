import NodeLink.Lib.Fips180
import NodeLink.Parsing.Grammar
import NodeLink.Parsing.TorrentFile

/-!
# Spellings

A dictionary may be spelled with its keys in any order, and with a key more than
once.  The decoder takes every spelling of a value that the grammar allows, and
returns the value (`decode_of_bencoded`).  So no text stands for two values.

`Metainfo` is what a torrent file has to say, next to anything else.  `Load` makes
one record of all spellings of it, and accepts no other files (`load_eq_ok_iff`).
-/

namespace NodeLink

/-- A canonical number is the one `Encode` prints. -/
theorem SpellsInt.eq_toStringInt {s : Str} {n : Int64} (h : SpellsInt s n.toInt) :
    s = toStringInt n := by
  generalize hm : n.toInt = m at h
  cases h with
  | nonneg hn =>
      rw [toStringInt, hm, if_neg (by omega), Int.natAbs_natCast]
      exact hn.eq_toStringNat
  | @neg ds hn h0 =>
      have hpos := hn.value_pos h0
      rw [toStringInt, hm, if_pos (by omega), Int.natAbs_neg, Int.natAbs_natCast,
        ← hn.eq_toStringNat]

namespace Bnode

variable {data : Buffer} {v v' : Bnode} {s s' : Buffer}

/-! ## The decoder takes every spelling -/

/-- A text begins with a byte that ends no list. -/
theorem head_of_bencoded (h : Bencoded v s) : ∃ c t, s = c :: t ∧ c ≠ 101 := by
  cases h with
  | int _ => exact ⟨105, _, rfl, by decide⟩
  | str hs =>
      obtain ⟨c, t, he, hc⟩ := encodeString_head _
      exact ⟨c, t, (spells_iff.mp hs).trans he, (isDigit_facts hc).2.2.2.2.1⟩
  | list _ => exact ⟨108, _, rfl, by decide⟩
  | dict _ => exact ⟨100, _, rfl, by decide⟩

mutual

/-- `DecodeElement` reads a text of the grammar, wherever it stands in a buffer. -/
theorem decodeElement_of_bencoded : ∀ {v : Bnode} {s data : Buffer} {fuel i : Nat}, Bencoded v s →
    s.length < 2 ^ 63 → i + s.length < 2 ^ 64 → 2 * s.length ≤ fuel → StandsAt data i s →
    decodeElement data fuel i = .ok (v, i + s.length)
  | _, _, data, fuel, i, @Bencoded.int n s hn, hs, hi, hf, h => by
      have henc : 105 :: (s ++ [101]) = encode (.int n) := by rw [encode, hn.eq_toStringInt]
      rw [henc] at hs hi hf h ⊢
      exact decodeElement_encode (.int n) trivial hs hi hf h
  | _, _, data, fuel, i, @Bencoded.str t s hspell, hs, hi, hf, h => by
      have henc : s = encode (.str t) := by rw [encode, spells_iff.mp hspell]
      rw [henc] at hs hi hf h ⊢
      exact decodeElement_encode (.str t) trivial hs hi hf h
  | _, _, data, fuel, i, @Bencoded.list vs s hvs, hs, hi, hf, h => by
      simp only [List.length_cons, List.length_append, List.length_nil] at hs hi hf ⊢
      obtain ⟨fuel, rfl⟩ := Nat.exists_eq_add_one_of_ne_zero (show fuel ≠ 0 by omega)
      rw [standsAt_cons_iff] at h
      rw [decodeElement_of_getElem? h.1, if_neg (by decide), if_pos rfl,
        decodeList_of_items hvs (by omega) (by omega) (by omega) h.2, List.nil_append]
      congr 2
      omega
  | _, _, data, fuel, i, @Bencoded.dict es s hes, hs, hi, hf, h => by
      simp only [List.length_cons, List.length_append, List.length_nil] at hs hi hf ⊢
      obtain ⟨fuel, rfl⟩ := Nat.exists_eq_add_one_of_ne_zero (show fuel ≠ 0 by omega)
      rw [standsAt_cons_iff] at h
      rw [decodeElement_of_getElem? h.1, if_neg (by decide), if_neg (by decide), if_pos rfl,
        decodeDict_of_entries hes (by omega) (by omega) (by omega) h.2]
      congr 2
      omega

/-- The loop over a list appends every item. -/
theorem decodeList_of_items : ∀ {vs : List Bnode} {s data : Buffer} {fuel i : Nat}
    {items : List Bnode}, BencodedItems vs s → s.length < 2 ^ 63 → i + s.length < 2 ^ 64 →
    2 * s.length + 1 ≤ fuel → StandsAt data i (s ++ [101]) →
    decodeList data fuel i items = .ok (.list (items ++ vs), i + s.length + 1)
  | _, _, data, fuel, i, items, .nil, _, _, hf, h => by
      obtain ⟨fuel, rfl⟩ := Nat.exists_eq_add_one_of_ne_zero (show fuel ≠ 0 by omega)
      rw [List.nil_append, standsAt_singleton_iff] at h
      rw [decodeList_end h, List.append_nil]
      rfl
  | _, _, data, fuel, i, items, @BencodedItems.cons v vs s rest hv hvs, hs, hi, hf, h => by
      obtain ⟨fuel, rfl⟩ := Nat.exists_eq_add_one_of_ne_zero (show fuel ≠ 0 by omega)
      obtain ⟨c, t, he, hne⟩ := head_of_bencoded hv
      have hpos : 0 < s.length := by
        rw [he]
        exact Nat.succ_pos _
      rw [List.append_assoc, standsAt_append_iff] at h
      have hget := (standsAt_cons_iff.mp (he ▸ h.1)).1
      rw [List.length_append] at hs hi hf ⊢
      have hitem : decodeElement data fuel i = .ok (v, i + s.length) :=
        decodeElement_of_bencoded hv (by omega) (by omega) (by omega) h.1
      rw [decodeList_item hget hne hitem,
        decodeList_of_items hvs (by omega) (by omega) (by omega) h.2, List.append_assoc,
        ← Nat.add_assoc i]
      rfl

/-- The loop over a map enters every entry, the later ones over the earlier ones. -/
theorem decodeDict_of_entries : ∀ {es : List (Str × Bnode)} {s data : Buffer} {fuel i : Nat}
    {entries : List (Str × Bnode)}, BencodedEntries es s → s.length < 2 ^ 63 →
    i + s.length < 2 ^ 64 → 2 * s.length + 1 ≤ fuel → StandsAt data i (s ++ [101]) →
    decodeDict data fuel i entries =
      .ok (.dict (es.foldl (fun d e => Dict.set e.1 e.2 d) entries), i + s.length + 1)
  | _, _, data, fuel, i, entries, .nil, _, _, hf, h => by
      obtain ⟨fuel, rfl⟩ := Nat.exists_eq_add_one_of_ne_zero (show fuel ≠ 0 by omega)
      rw [List.nil_append, standsAt_singleton_iff] at h
      exact decodeDict_end h
  | _, _, data, fuel, i, entries, @BencodedEntries.cons key v es k s rest hkey hv hes, hs, hi, hf,
      h => by
      obtain ⟨fuel, rfl⟩ := Nat.exists_eq_add_one_of_ne_zero (show fuel ≠ 0 by omega)
      obtain ⟨c, t, he, hc⟩ := encodeString_head key
      have hk : k = encodeString key := spells_iff.mp hkey
      have hklen := encodeString_length key
      rw [← hk] at he hklen
      have hpos : 0 < k.length := by
        rw [he]
        exact Nat.succ_pos _
      rw [List.append_assoc, List.append_assoc, standsAt_append_iff, standsAt_append_iff] at h
      obtain ⟨hat, hval, hrest⟩ := h
      have hget := (standsAt_cons_iff.mp (he ▸ hat)).1
      rw [List.length_append, List.length_append] at hs hi hf ⊢
      obtain ⟨fuel, rfl⟩ := Nat.exists_eq_add_one_of_ne_zero (show fuel ≠ 0 by omega)
      have hfirst : decodeElement data (fuel + 1) i = .ok (.str key, i + k.length) := by
        rw [hk] at hi hat ⊢
        exact decodeElement_encodeString (by omega) (by omega) hat
      have hitem : decodeElement data (fuel + 1) (i + k.length) =
          .ok (v, i + k.length + s.length) :=
        decodeElement_of_bencoded hv (by omega) (by omega) (by omega) hval
      rw [decodeDict_entry hget (isDigit_facts hc).2.2.2.2.1 hfirst hitem,
        decodeDict_of_entries hes (by omega) (by omega) (by omega) hrest, ← Nat.add_assoc i,
        ← Nat.add_assoc (i + _), List.foldl_cons]

end

/-- `Decode` returns the value a text stands for, whatever comes behind the text. -/
theorem decode_of_bencoded (h : Bencoded v s) (rest : Buffer) (hs : s.length < 2 ^ 63) :
    decode (s ++ rest) = .ok v := by
  have hat : StandsAt (s ++ rest) 0 s := List.prefix_append s rest
  have hfuel : 2 * s.length ≤ fuelFor (s ++ rest) := by
    rw [fuelFor, List.length_append]
    omega
  rw [decode, decodeElement_of_bencoded h hs (by omega) hfuel hat]
  rfl

/-- A text with its keys out of order, and one of them twice. -/
def outOfOrder : Buffer := bytes "d1:bi1e1:ai2e1:bi3ee"

theorem spells_encodeString (key : Str) : Spells (encodeString key) key := spells_iff.mpr rfl

theorem spellsInt_digit {c : UInt8} (h : isDigit c = true) : SpellsInt [c] (digitsValue [c]) :=
  .nonneg (.singleton h)

theorem bencoded_outOfOrder :
    Bencoded (.dict [(bytes "a", .int 2), (bytes "b", .int 3)]) outOfOrder :=
  @Bencoded.dict [(bytes "b", .int 1), (bytes "a", .int 2), (bytes "b", .int 3)]
    (bytes "1:bi1e1:ai2e1:bi3e")
    (.cons (spells_encodeString (bytes "b")) (@Bencoded.int 1 [49] (spellsInt_digit rfl))
      (.cons (spells_encodeString (bytes "a")) (@Bencoded.int 2 [50] (spellsInt_digit rfl))
        (.cons (spells_encodeString (bytes "b")) (@Bencoded.int 3 [51] (spellsInt_digit rfl)) .nil)))

/-- The later entry counts. -/
theorem decode_of_bencoded_outOfOrder :
    decode (outOfOrder ++ bytes "e") = .ok (.dict [(bytes "a", .int 2), (bytes "b", .int 3)]) :=
  decode_of_bencoded bencoded_outOfOrder (bytes "e") (by decide)

/-- No text stands for two values, and none begins with another. -/
theorem bencoded_unique (h : Bencoded v s) (h' : Bencoded v' s') (hp : s <+: s')
    (hs' : s'.length < 2 ^ 63) : v = v' ∧ s = s' := by
  obtain ⟨rest, rfl⟩ := hp
  rw [List.length_append] at hs'
  have hat : StandsAt (s ++ rest) 0 s := List.prefix_append s rest
  have hat' : StandsAt (s ++ rest) 0 (s ++ rest) := List.prefix_rfl
  have hfuel : (s ++ rest).length = s.length + rest.length := List.length_append
  have hfirst : decodeElement (s ++ rest) (2 * (s ++ rest).length) 0 = .ok (v, 0 + s.length) :=
    decodeElement_of_bencoded h (by omega) (by omega) (by omega) hat
  have hwhole : decodeElement (s ++ rest) (2 * (s ++ rest).length) 0 =
      .ok (v', 0 + (s ++ rest).length) :=
    decodeElement_of_bencoded h' (by omega) (by omega) (by omega) hat'
  rw [hfirst] at hwhole
  injection hwhole with heq
  injection heq with hv hlen
  refine ⟨hv, ?_⟩
  rw [List.eq_nil_of_length_eq_zero (show rest.length = 0 by omega), List.append_nil]

end Bnode

/-! ## Torrent files -/

/-- What a torrent file says: two dictionaries, and what `Load` looks for in them. -/
structure Metainfo where
  root : List (Str × Bnode)
  info : List (Str × Bnode)
  announce : Str
  name : Str
  pieceLength : Int64
  length : Int64
  pieces : Buffer
  announce_eq : Dict.find? root (bytes "announce") = some (.str announce)
  info_eq : Dict.find? root (bytes "info") = some (.dict info)
  name_eq : Dict.find? info (bytes "name") = some (.str name)
  pieceLength_eq : Dict.find? info (bytes "piece length") = some (.int pieceLength)
  length_eq : Dict.find? info (bytes "length") = some (.int length)
  pieces_eq : Dict.find? info (bytes "pieces") = some (.str pieces)
  pieces_whole : pieces.length % 20 = 0

/-- The record of a torrent file. -/
def Metainfo.record (m : Metainfo) (SHA1 : Buffer → Vector UInt8 20) : TorrentFile where
  announce := m.announce
  name := m.name
  length := m.length
  pieceLength := m.pieceLength
  pieceHashes := TorrentFile.splitPieces m.pieces
  infoHash := (SHA1 (Bnode.dict m.info).encode).toList

namespace Dict

variable {α : Type} {d : List (Str × α)} {key : Str} {v : α}

theorem at_of_find? (h : find? d key = some v) : at_ d key = .ok v := by rw [at_, h]

theorem count_of_find? (h : find? d key = some v) : ¬ count d key = 0 := by
  rw [count, h]
  exact Nat.one_ne_zero

end Dict

namespace TorrentFile

variable {SHA1 : Buffer → Vector UInt8 20} {filepath : String} {data : Buffer} {t : TorrentFile}

/-- A step that returns goes on. -/
theorem ok_bind {α β : Type} (a : α) (f : α → Except Halt β) : (Except.ok a >>= f) = f a := rfl

theorem lift_ok {α : Type} (a : α) : Bnode.lift (.ok a) = .ok a := rfl

/-- `Load` makes the record of a file that says all it looks for. -/
theorem load_of_metainfo (m : Metainfo) (h : Bnode.decode data = .ok (.dict m.root)) :
    load SHA1 filepath (some data) = .ok (m.record SHA1) := by
  have hwhole : ¬ m.pieces.length % 20 ≠ 0 := not_not.mpr m.pieces_whole
  simp only [load, h, ok_bind, lift_ok, Bnode.getDict, Bnode.toStr, Bnode.getString, Bnode.getInt,
    Dict.at_of_find? m.announce_eq, Dict.at_of_find? m.info_eq, Dict.at_of_find? m.name_eq,
    Dict.at_of_find? m.pieceLength_eq, Dict.at_of_find? m.length_eq, Dict.at_of_find? m.pieces_eq]
  rw [if_neg (Dict.count_of_find? m.info_eq), if_neg (Dict.count_of_find? m.length_eq),
    if_neg hwhole]
  rfl

/-- A file that `Load` accepts says all it looks for. -/
theorem metainfo_of_load (h : load SHA1 filepath (some data) = .ok t) :
    ∃ m : Metainfo, Bnode.decode data = .ok (.dict m.root) ∧ m.record SHA1 = t := by
  simp only [load] at h
  obtain ⟨root, hroot, h⟩ := Bnode.bind_eq_ok h
  obtain ⟨rootDict, hrd, h⟩ := Bnode.bind_eq_ok h
  obtain ⟨announce, hann, h⟩ := Bnode.bind_eq_ok h
  obtain ⟨announceStr, hannv, h⟩ := Bnode.bind_eq_ok h
  split at h
  · cases h
  obtain ⟨infoNode, hinfo, h⟩ := Bnode.bind_eq_ok h
  obtain ⟨infoDict, hid, h⟩ := Bnode.bind_eq_ok h
  obtain ⟨name, hname, h⟩ := Bnode.bind_eq_ok h
  obtain ⟨nameStr, hnamev, h⟩ := Bnode.bind_eq_ok h
  obtain ⟨plNode, hpl, h⟩ := Bnode.bind_eq_ok h
  obtain ⟨pl, hplv, h⟩ := Bnode.bind_eq_ok h
  split at h
  · cases h
  obtain ⟨lenNode, hlen, h⟩ := Bnode.bind_eq_ok h
  obtain ⟨len, hlenv, h⟩ := Bnode.bind_eq_ok h
  obtain ⟨pcNode, hpc, h⟩ := Bnode.bind_eq_ok h
  obtain ⟨blob, hblob, h⟩ := Bnode.bind_eq_ok h
  split at h
  · cases h
  rename_i hmod
  cases h
  have e1 := Bnode.getDict_eq_ok (Bnode.lift_eq_ok hrd)
  have e2 := Bnode.getString_eq_ok (Bnode.lift_eq_ok hannv)
  have e3 := Bnode.getDict_eq_ok (Bnode.lift_eq_ok hid)
  have e4 := Bnode.getString_eq_ok (Bnode.lift_eq_ok hnamev)
  have e5 := Bnode.getInt_eq_ok (Bnode.lift_eq_ok hplv)
  have e6 := Bnode.getInt_eq_ok (Bnode.lift_eq_ok hlenv)
  have e7 := Bnode.getString_eq_ok (Bnode.lift_eq_ok hblob)
  subst e1 e2 e3 e4 e5 e6 e7
  exact ⟨{
    root := rootDict, info := infoDict, announce := announceStr, name := nameStr
    pieceLength := pl, length := len, pieces := blob
    announce_eq := Dict.at_eq_ok (Bnode.lift_eq_ok hann)
    info_eq := Dict.at_eq_ok (Bnode.lift_eq_ok hinfo)
    name_eq := Dict.at_eq_ok (Bnode.lift_eq_ok hname)
    pieceLength_eq := Dict.at_eq_ok (Bnode.lift_eq_ok hpl)
    length_eq := Dict.at_eq_ok (Bnode.lift_eq_ok hlen)
    pieces_eq := Dict.at_eq_ok (Bnode.lift_eq_ok hpc)
    pieces_whole := not_not.mp hmod }, hroot, rfl⟩

/-- `Load` makes one record of all spellings of a torrent file, and accepts a spelling of a value only
if the value says all it looks for. -/
theorem load_eq_ok_iff {v : Bnode} (h : Bencoded v data) (hdata : data.length < 2 ^ 63) :
    load SHA1 filepath (some data) = .ok t ↔
      ∃ m : Metainfo, v = .dict m.root ∧ m.record SHA1 = t := by
  have hdec : Bnode.decode data = .ok v := by
    have hdec := Bnode.decode_of_bencoded h [] hdata
    rwa [List.append_nil] at hdec
  constructor
  · intro hload
    obtain ⟨m, hm, ht⟩ := metainfo_of_load hload
    rw [hdec] at hm
    exact ⟨m, Except.ok.inj hm, ht⟩
  · rintro ⟨m, rfl, rfl⟩
    exact load_of_metainfo m hdec

/-- A file with one piece of one byte. -/
def smallest : Metainfo where
  root := [(bytes "announce", .str (bytes "abc")), (bytes "info", .dict
    [(bytes "length", .int 1), (bytes "name", .str (bytes "a")), (bytes "piece length", .int 1),
      (bytes "pieces", .str (List.replicate 20 7))])]
  info := [(bytes "length", .int 1), (bytes "name", .str (bytes "a")),
    (bytes "piece length", .int 1), (bytes "pieces", .str (List.replicate 20 7))]
  announce := bytes "abc"
  name := bytes "a"
  pieceLength := 1
  length := 1
  pieces := List.replicate 20 7
  announce_eq := rfl
  info_eq := rfl
  name_eq := rfl
  pieceLength_eq := rfl
  length_eq := rfl
  pieces_eq := rfl
  pieces_whole := rfl

/-- The file with its keys the other way round. -/
def backwards : Buffer :=
  bytes "d4:infod6:pieces20:" ++ List.replicate 20 7 ++
    bytes "12:piece lengthi1e4:name1:a6:lengthi1ee8:announce3:abce"

theorem bencoded_backwards : Bencoded (.dict smallest.root) backwards := by
  have hone : Bencoded (.int 1) (bytes "i1e") := @Bencoded.int 1 [49] (Bnode.spellsInt_digit rfl)
  have hinfo : Bencoded (.dict smallest.info) _ :=
    @Bencoded.dict [(bytes "pieces", .str (List.replicate 20 7)), (bytes "piece length", .int 1),
      (bytes "name", .str (bytes "a")), (bytes "length", .int 1)] _
      (.cons (Bnode.spells_encodeString _) (.str (Bnode.spells_encodeString _))
        (.cons (Bnode.spells_encodeString _) hone
          (.cons (Bnode.spells_encodeString _) (.str (Bnode.spells_encodeString _))
            (.cons (Bnode.spells_encodeString _) hone .nil))))
  exact @Bencoded.dict [(bytes "info", .dict smallest.info), (bytes "announce", .str (bytes "abc"))]
    (backwards.tail.dropLast)
    (.cons (Bnode.spells_encodeString _) hinfo
      (.cons (Bnode.spells_encodeString _) (.str (Bnode.spells_encodeString _)) .nil))

/-- It is loaded as any other. -/
theorem load_eq_ok_iff_backwards :
    load (fun m => ⟨(Fips180.sha1 m).toArray, by simp⟩) "a.torrent" (some backwards) =
      .ok (smallest.record fun m => ⟨(Fips180.sha1 m).toArray, by simp⟩) :=
  (load_eq_ok_iff bencoded_backwards (by decide)).mpr ⟨smallest, rfl, rfl⟩

end TorrentFile

end NodeLink
