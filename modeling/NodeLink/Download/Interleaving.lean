import Mathlib.Data.List.Induction
import Mathlib.Data.List.Nodup
import NodeLink.Download.Assembly

/-!
# Deliveries of several connections

All connections of a download hand their blocks to one `Downloader`, which keeps
one piece at a time.  Here every block of every piece is delivered once, with
its true bytes and those of a piece in the order of their offsets, while the
connections take turns in any way (`EachOnce`).

After a part of the deliveries the state knows the latest run: the blocks of one
piece from block `a` to the one before `c`.  The run starts at the first block
exactly if all blocks of that piece so far came one right after the other
(`Latest`).  So a piece is handed to the writer exactly if no block of another
piece came between its blocks (`handed_over_iff`).
-/

namespace NodeLink

open Cpp

/-- The delivery of a block: the number of the piece, and that of the block in the piece. -/
structure Delivery where
  piece : Nat
  block : Nat
deriving DecidableEq, Repr

/-- The deliveries of one piece. -/
def ofPiece (bs : List Delivery) (k : Nat) : List Delivery := bs.filter fun b => b.piece = k

/-- The blocks of piece `k` as `RequestNextBlock` cuts it, in the order of their offsets. -/
def blocksOf (t : TorrentFile) (k : Nat) : List Delivery :=
  (List.range (blockCount (t.lengthOfPiece k))).map (Delivery.mk k)

/-- Every block of every piece is delivered once, those of a piece in the order of their offsets. -/
structure EachOnce (t : TorrentFile) (bs : List Delivery) : Prop where
  within : ∀ b ∈ bs, b.piece < t.pieceHashes.length
  inOrder : ∀ k < t.pieceHashes.length, ofPiece bs k = blocksOf t k

/-- The same, as far as the deliveries go. -/
structure Upcoming (t : TorrentFile) (bs : List Delivery) : Prop where
  within : ∀ b ∈ bs, b.piece < t.pieceHashes.length
  inOrder : ∀ k < t.pieceHashes.length, ofPiece bs k <+: blocksOf t k

section Deliveries

variable {t : TorrentFile} {bs : List Delivery} {b : Delivery} {k n : Nat}

@[simp] theorem blocksOf_length : (blocksOf t k).length = blockCount (t.lengthOfPiece k) := by
  rw [blocksOf, List.length_map, List.length_range]

theorem ofPiece_concat_same : ofPiece (bs ++ [b]) b.piece = ofPiece bs b.piece ++ [b] := by
  simp [ofPiece]

theorem ofPiece_blocksOf : ofPiece (blocksOf t k) k = blocksOf t k := by
  simp [ofPiece, blocksOf, List.filter_map, Function.comp_def]

/-- A piece whose blocks lie side by side has all its blocks. -/
theorem length_le_of_infix (h : blocksOf t k <:+: bs) :
    blockCount (t.lengthOfPiece k) ≤ (ofPiece bs k).length := by
  have hle := (h.filter fun b => b.piece = k).length_le
  rwa [show (blocksOf t k).filter _ = _ from ofPiece_blocksOf, blocksOf_length] at hle

theorem take_blocksOf_succ (h : n < blockCount (t.lengthOfPiece k)) :
    (blocksOf t k).take (n + 1) = (blocksOf t k).take n ++ [⟨k, n⟩] := by
  have hn : (blocksOf t k)[n]? = some ⟨k, n⟩ := by
    simp [blocksOf, h]
  rw [List.take_add_one, hn]
  rfl

theorem EachOnce.upcoming (h : EachOnce t bs) : Upcoming t bs where
  within := h.within
  inOrder := fun k hk => h.inOrder k hk ▸ List.prefix_rfl

/-- A part of such deliveries is one. -/
theorem Upcoming.of_concat (h : Upcoming t (bs ++ [b])) : Upcoming t bs where
  within := fun b' hb' => h.within b' (List.mem_append_left _ hb')
  inOrder := fun k hk =>
    ((List.prefix_append bs [b]).filter _).trans (h.inOrder k hk)

/-- The next delivery of a piece is the next of its blocks. -/
theorem Upcoming.next (h : Upcoming t (bs ++ [b])) :
    b = ⟨b.piece, (ofPiece bs b.piece).length⟩ ∧
      (ofPiece bs b.piece).length < blockCount (t.lengthOfPiece b.piece) := by
  have hp := h.inOrder b.piece (h.within b (by simp))
  rw [ofPiece_concat_same] at hp
  have hlt : (ofPiece bs b.piece).length < blockCount (t.lengthOfPiece b.piece) := by
    have := hp.length_le
    rw [List.length_append, List.length_singleton, blocksOf_length] at this
    omega
  have hget := List.prefix_iff_getElem?.mp hp (ofPiece bs b.piece).length (by simp)
  refine ⟨?_, hlt⟩
  simpa [blocksOf, hlt] using hget.symm

end Deliveries

namespace Downloader

variable {t : TorrentFile} {content : Buffer} {id : Str} {d d' : Downloader} {bs : List Delivery}
  {b : Delivery} {k a c : Nat}

/-- The call a delivery makes. -/
def deliverBlock (t : TorrentFile) (content : Buffer) (b : Delivery) : Call :=
  blockCall t content b.piece b.block

/-- The state after the deliveries. -/
def afterAll (t : TorrentFile) (content : Buffer) (id : Str) (bs : List Delivery) :
    Option Downloader :=
  exec receive (init t id) (bs.map (deliverBlock t content))

/-- After the deliveries, every piece has been handed to the writer exactly once. -/
def HandsOverAll (t : TorrentFile) (content : Buffer) (id : Str) (bs : List Delivery) : Prop :=
  ∃ d, afterAll t content id bs = some d ∧
    d.fileWriter.q.Perm ((List.range t.pieceHashes.length).map (pieceJob t content))

/-! ## The latest run -/

/-- The latest run of deliveries: the blocks of piece `k` from block `a` to the one before `c`.  It
began at the first block exactly if nothing came between the blocks of the piece so far. -/
structure Latest (t : TorrentFile) (bs : List Delivery) (k a c : Nat) : Prop where
  last : ∃ b, bs.getLast? = some b ∧ b.piece = k
  count : (ofPiece bs k).length = c
  start_iff : a = 0 ↔ (blocksOf t k).take c <:+ bs

/-- A block of the same piece makes the run longer. -/
theorem Latest.concat (h : Latest t bs k a c) (hc : c < blockCount (t.lengthOfPiece k)) :
    Latest t (bs ++ [⟨k, c⟩]) k a (c + 1) where
  last := ⟨⟨k, c⟩, by simp, rfl⟩
  count := by
    rw [ofPiece_concat_same (b := ⟨k, c⟩), List.length_append, h.count]
    rfl
  start_iff := by
    rw [take_blocksOf_succ hc, List.suffix_append_self_iff]
    exact h.start_iff

/-- A block of a piece that was not the latest begins a run. -/
theorem latest_switch (hk : ∀ b, bs.getLast? = some b → b.piece ≠ k)
    (hcount : (ofPiece bs k).length = c) (hc : c < blockCount (t.lengthOfPiece k)) :
    Latest t (bs ++ [⟨k, c⟩]) k c (c + 1) where
  last := ⟨⟨k, c⟩, by simp, rfl⟩
  count := by
    rw [ofPiece_concat_same (b := ⟨k, c⟩), List.length_append, hcount]
    rfl
  start_iff := by
    rw [take_blocksOf_succ hc, List.suffix_append_self_iff]
    constructor
    · rintro rfl
      exact List.nil_suffix
    · intro hs
      cases c with
      | zero => rfl
      | succ n =>
          -- the block before this one would be the latest
          rw [take_blocksOf_succ (by omega)] at hs
          obtain ⟨l, hl⟩ := hs
          rw [← List.append_assoc] at hl
          exact absurd rfl (hk ⟨k, n⟩ (by rw [← hl, List.getLast?_concat]))

/-- The run is a whole piece exactly if the blocks of the piece are the latest deliveries. -/
theorem Latest.whole_iff (h : Latest t bs k a c) (hc : c ≤ blockCount (t.lengthOfPiece k)) :
    Whole t k a c ↔ blocksOf t k <:+ bs := by
  by_cases hlast : c = blockCount (t.lengthOfPiece k)
  · have hall : (blocksOf t k).take c = blocksOf t k :=
      List.take_of_length_le (by rw [blocksOf_length, hlast])
    rw [Whole, h.start_iff, hall]
    exact and_iff_left hlast
  · constructor
    · exact fun hw => absurd hw.2 hlast
    · intro hs
      have := length_le_of_infix hs.isInfix
      rw [h.count] at this
      omega

/-! ## The pieces handed over -/

/-- The queue holds the pieces whose blocks lie side by side in the deliveries, each once. -/
def HandedOver (t : TorrentFile) (content : Buffer) (bs : List Delivery) (q : List Job) : Prop :=
  ∃ ks : List Nat, q = ks.map (pieceJob t content) ∧ ks.Nodup ∧
    ∀ k, k ∈ ks ↔ k < t.pieceHashes.length ∧ blocksOf t k <:+: bs

/-- The blocks of a piece that end with the latest delivery are those of its piece. -/
theorem infix_concat_blocksOf (hk : 0 < blockCount (t.lengthOfPiece k)) :
    blocksOf t k <:+: bs ++ [b] ↔
      (k = b.piece ∧ blocksOf t b.piece <:+ bs ++ [b]) ∨ blocksOf t k <:+: bs := by
  rw [List.infix_concat_iff]
  refine or_congr_left ⟨fun hs => ?_, fun ⟨hkb, hs⟩ => hkb ▸ hs⟩
  have hmem : b ∈ blocksOf t k := by
    rcases List.suffix_concat_iff.mp hs with hnil | ⟨l, hl, -⟩
    · have := congrArg List.length hnil
      rw [blocksOf_length, List.length_nil] at this
      omega
    · rw [hl]
      simp
  obtain ⟨c, -, rfl⟩ := List.mem_map.mp hmem
  exact ⟨rfl, hs⟩

/-- The queue after one more delivery. -/
theorem HandedOver.concat {q : List Job} (h : Describes t content) (hq : HandedOver t content bs q)
    (hk : k < t.pieceHashes.length) (hl : Latest t (bs ++ [⟨k, c⟩]) k a (c + 1))
    (hcount : (ofPiece bs k).length = c) (hc : c < blockCount (t.lengthOfPiece k)) :
    HandedOver t content (bs ++ [⟨k, c⟩]) (queued t content q k a (c + 1)) := by
  obtain ⟨ks, rfl, hnodup, hmem⟩ := hq
  have hwhole := hl.whole_iff hc
  have hnew : ∀ j, (j < t.pieceHashes.length ∧ blocksOf t j <:+: bs ++ [⟨k, c⟩]) ↔
      (j = k ∧ Whole t k a (c + 1)) ∨ j ∈ ks := by
    intro j
    rw [hmem j, hwhole]
    constructor
    · rintro ⟨hj, hs⟩
      exact ((infix_concat_blocksOf (h.blockCount_pos hj)).mp hs).imp_right fun hs => ⟨hj, hs⟩
    · rintro (⟨rfl, hs⟩ | ⟨hj, hs⟩)
      · exact ⟨hk, hs.isInfix⟩
      · exact ⟨hj, (infix_concat_blocksOf (h.blockCount_pos hj)).mpr (.inr hs)⟩
  have hnot : k ∉ ks := by
    intro hin
    have := length_le_of_infix ((hmem k).mp hin).2
    omega
  simp only [queued]
  by_cases hw : Whole t k a (c + 1)
  · rw [if_pos hw]
    refine ⟨ks ++ [k], by simp, ?_, fun j => ?_⟩
    · rw [← List.concat_eq_append]
      exact List.Nodup.concat hnot hnodup
    · rw [hnew j, List.mem_append, List.mem_singleton, or_comm, and_iff_left hw]
  · rw [if_neg hw]
    exact ⟨ks, rfl, hnodup, fun j => by rw [hnew j, or_iff_right (fun hj => hw hj.2)]⟩

/-! ## Runs -/

/-- The state after some of the deliveries: it is the initial one, or follows the latest run. -/
def Follows (t : TorrentFile) (content : Buffer) (bs : List Delivery) (d : Downloader) : Prop :=
  (bs = [] ∧ d.currentPieceIndex = -1) ∨
  ∃ k a c, k < t.pieceHashes.length ∧ Latest t bs k a c ∧ Filled t content d k a c

theorem wireInt_ne_neg_one (hk : k < 2 ^ 31) : wireInt k ≠ -1 := ne_neg_one (toInt_wireInt hk)

/-- What one delivery does: it is received, it makes or extends the latest run, and the queue is that
after the run. -/
structure Delivered (t : TorrentFile) (content : Buffer) (bs : List Delivery) (d : Downloader)
    (b : Delivery) (d' : Downloader) (a : Nat) : Prop where
  received : receive d (deliverBlock t content b) = .ok d'
  latest : Latest t (bs ++ [b]) b.piece a (b.block + 1)
  filled : Filled t content d' b.piece a (b.block + 1)
  queue : d'.fileWriter.q = queued t content d.fileWriter.q b.piece a (b.block + 1)

/-- A delivery of a piece that is not the current one. -/
theorem delivered_switch (h : Describes t content) (hk : k < t.pieceHashes.length)
    (hk31 : k < 2 ^ 31) (hc : c < blockCount (t.lengthOfPiece k))
    (hcount : (ofPiece bs k).length = c) (ht : d.torrent = t)
    (hcur : d.currentPieceIndex ≠ wireInt k)
    (hlast : ∀ b, bs.getLast? = some b → b.piece ≠ k) :
    ∃ d', Delivered t content bs d ⟨k, c⟩ d' c := by
  obtain ⟨d', hd', hfilled, hq⟩ := receive_switch h hk hk31 hc ht hcur
  exact ⟨d', hd', latest_switch hlast hcount hc, hfilled, hq⟩

/-- A delivery of the current piece. -/
theorem delivered_next (h : Describes t content) (hk : k < t.pieceHashes.length)
    (hk31 : k < 2 ^ 31) (hc : c < blockCount (t.lengthOfPiece k)) (hl : Latest t bs k a c)
    (hf : Filled t content d k a c) : ∃ d', Delivered t content bs d ⟨k, c⟩ d' a := by
  obtain ⟨d', hd', hfilled, hq⟩ := receive_next h hk hk31 hc hf
  exact ⟨d', hd', hl.concat hc, hfilled, hq⟩

/-- One delivery, in a state that follows the ones before. -/
theorem delivered_follows (h : Describes t content) (hN : t.pieceHashes.length ≤ 2 ^ 31)
    (ht : d.torrent = t) (hf : Follows t content bs d) (hb : Upcoming t (bs ++ [b])) :
    ∃ d' a, Delivered t content bs d b d' a := by
  obtain ⟨hblock, hc⟩ := hb.next
  have hk := hb.within b (by simp)
  have hcount : (ofPiece bs b.piece).length = b.block := (congrArg Delivery.block hblock).symm
  rw [hcount] at hc
  rcases hf with ⟨rfl, hcur⟩ | ⟨k, a, c, hk0, hl, hfilled⟩
  · have hne : d.currentPieceIndex ≠ wireInt b.piece := by
      rw [hcur]
      exact (wireInt_ne_neg_one (by omega)).symm
    obtain ⟨d', hd'⟩ := delivered_switch h hk (by omega) hc hcount ht hne (fun b hb => by cases hb)
    exact ⟨d', _, hd'⟩
  · by_cases heq : b.piece = k
    · subst heq
      have hcc : c = b.block := hl.count.symm.trans hcount
      subst hcc
      obtain ⟨d', hd'⟩ := delivered_next h hk (by omega) hc hl hfilled
      exact ⟨d', a, hd'⟩
    · have hne : d.currentPieceIndex ≠ wireInt b.piece := by
        rw [hfilled.current]
        exact fun hw => heq (wireInt_inj (by omega) (by omega) hw).symm
      have hlast : ∀ b', bs.getLast? = some b' → b'.piece ≠ b.piece := by
        intro b' hb' hbk
        obtain ⟨b0, hb0, hbk0⟩ := hl.last
        rw [hb0] at hb'
        cases Option.some.inj hb'
        exact heq (hbk.symm.trans hbk0)
      obtain ⟨d', hd'⟩ := delivered_switch h hk (by omega) hc hcount ht hne hlast
      exact ⟨d', _, hd'⟩

/-- Every run goes through, and has handed over the pieces whose blocks lie side by side. -/
theorem afterAll_handedOver (id : Str) (h : Describes t content) (hN : t.pieceHashes.length ≤ 2 ^ 31)
    (hb : Upcoming t bs) :
    ∃ d, afterAll t content id bs = some d ∧ d.torrent = t ∧ Follows t content bs d ∧
      HandedOver t content bs d.fileWriter.q := by
  induction bs using List.reverseRecOn with
  | nil =>
      refine ⟨init t id, rfl, rfl, .inl ⟨rfl, rfl⟩, [], rfl, List.nodup_nil, fun k => ?_⟩
      refine ⟨fun hk => absurd hk List.not_mem_nil, fun ⟨hk, hs⟩ => ?_⟩
      have hpos := h.blockCount_pos hk
      have hle := length_le_of_infix hs
      exact absurd (hpos.trans_le hle) (by simp [ofPiece])
  | append_singleton bs b ih =>
      obtain ⟨d, hd, ht, hf, hq⟩ := ih hb.of_concat
      obtain ⟨d', a, hd'⟩ := delivered_follows h hN ht hf hb
      have hk := hb.within b (by simp)
      refine ⟨d', ?_, hd'.filled.torrent, .inr ⟨_, a, _, hk, hd'.latest, hd'.filled⟩, ?_⟩
      · simp only [afterAll] at hd ⊢
        rw [List.map_append, List.map_singleton, exec_concat hd, hd'.received]
        rfl
      · obtain ⟨hblock, hc⟩ := hb.next
        have hcount : (ofPiece bs b.piece).length = b.block := (congrArg Delivery.block hblock).symm
        rw [hcount] at hc
        rw [hd'.queue]
        exact hq.concat h hk hd'.latest hcount hc

/-! ## When every piece is handed over -/

/-- A job lies at the place of some `int`. -/
def AtPiece (t : TorrentFile) (j : Job) : Prop :=
  ∃ i : Int32, j.offset = Int64.ofInt (i.toInt * t.pieceLength.toInt)

theorem atPiece_receive {cl : Call} (ht : d.torrent = t) (hq : ∀ j ∈ d.fileWriter.q, AtPiece t j)
    (hr : (receive d cl).state? = some d') : ∀ j ∈ d'.fileWriter.q, AtPiece t j := by
  rcases receive_cases hr with ⟨e, -, -, rfl⟩ | ⟨d1, d2, -, h1, h2, h3⟩
  · exact hq
  have hq2 : d2.fileWriter = d.fileWriter :=
    (copyBlock_fileWriter h2).1.trans (switchPiece_fileWriter h1).1
  have ht2 : d2.torrent = t :=
    ((copyBlock_sameFixed h2).1.trans (switchPiece_sameFixed h1).1).trans ht
  rcases checkIntegrity_cases h3 with ⟨-, -, rfl⟩ | ⟨-, rfl⟩
  · intro j hj
    rw [written_fileWriter, Writer.add_q, addSpeed_fileWriter, hq2] at hj
    cases List.mem_append.mp hj with
    | inl hj => exact hq j hj
    | inr hj =>
        cases List.mem_singleton.mp hj
        exact ⟨cl.pieceIndex, by rw [← ht2]; rfl⟩
  · rw [addSpeed_fileWriter, hq2]
    exact hq

/-- A run puts every job at the place of some `int`. -/
theorem atPiece_run {cs : List Call} (hrun : exec receive (init t id) cs = some d) :
    ∀ j ∈ d.fileWriter.q, AtPiece t j :=
  (exec_invariant (P := fun d => d.torrent = t ∧ ∀ j ∈ d.fileWriter.q, AtPiece t j)
    (fun _ _ _ _ hs hr => ⟨(receive_sameFixed hr).1.trans hs.1, atPiece_receive hs.1 hs.2 hr⟩)
    ⟨rfl, fun _ hj => absurd hj List.not_mem_nil⟩ hrun).2

/-- The place of a piece in the file. -/
theorem pieceJob_offset (h : Describes t content) (hk : k < t.pieceHashes.length) :
    (pieceJob t content k).offset.toInt = (k * t.pieceUnit : Nat) := by
  have hend := h.consistent.offset_add_pieceSize_le hk
  have hsz := h.consistent.size_lt
  exact Int64.toInt_ofNat_of_lt (by omega)

theorem pieceJob_inj (h : Describes t content) {j : Nat} (hj : j < t.pieceHashes.length)
    (hk : k < t.pieceHashes.length) (he : pieceJob t content j = pieceJob t content k) : j = k := by
  have hoff := pieceJob_offset h hj
  rw [he, pieceJob_offset h hk] at hoff
  exact (Nat.eq_of_mul_eq_mul_right h.consistent.pieceUnit_pos (by exact_mod_cast hoff)).symm

/-- A piece whose number is no `int` is never handed over. -/
theorem not_atPiece_of_wide (h : Describes t content) (hk : k < t.pieceHashes.length)
    (hwide : 2 ^ 31 ≤ k) : ¬ AtPiece t (pieceJob t content k) := by
  rintro ⟨i, hi⟩
  have hoff := pieceJob_offset h hk
  have hunit := h.consistent.pieceUnit_eq
  have hpos := h.consistent.pieceLength_pos
  have hle : i.toInt ≤ 2 ^ 31 - 1 := by
    have := i.toInt_lt
    omega
  have hge := i.le_toInt
  -- the product of an `int` and a piece length below `2 ^ 31` is a `long long`
  have hhi : i.toInt * t.pieceLength.toInt ≤ (2 ^ 31 - 1) * t.pieceLength.toInt :=
    Int.mul_le_mul_of_nonneg_right hle hpos.le
  have hlo : -2 ^ 31 * t.pieceLength.toInt ≤ i.toInt * t.pieceLength.toInt :=
    Int.mul_le_mul_of_nonneg_right (by omega) hpos.le
  have hlt := h.pieceLength_lt
  have hplace : (2 ^ 31 : Int) * t.pieceLength.toInt ≤ (k * t.pieceUnit : Nat) := by
    rw [Int.natCast_mul, hunit]
    exact Int.mul_le_mul_of_nonneg_right (by exact_mod_cast hwide) hpos.le
  rw [hi, toInt_ofInt64] at hoff
  omega

/-- After all deliveries every piece has been handed to the writer exactly once if and only if its number
is an `int`, and the blocks of every piece came one right after the other. -/
theorem handed_over_iff (h : Describes t content) (hb : EachOnce t bs) :
    HandsOverAll t content id bs ↔
      t.pieceHashes.length ≤ 2 ^ 31 ∧ ∀ k < t.pieceHashes.length, blocksOf t k <:+: bs := by
  constructor
  · rintro ⟨d, hd, hperm⟩
    have hmem : ∀ k < t.pieceHashes.length, pieceJob t content k ∈ d.fileWriter.q := fun k hk =>
      hperm.mem_iff.mpr (List.mem_map_of_mem (List.mem_range.mpr hk))
    have hN : t.pieceHashes.length ≤ 2 ^ 31 := by
      by_contra hgt
      exact not_atPiece_of_wide h (Nat.not_le.mp hgt) (le_refl _)
        (atPiece_run hd _ (hmem _ (Nat.not_le.mp hgt)))
    refine ⟨hN, fun k hk => ?_⟩
    obtain ⟨d', hd', -, -, ks, hq, -, hks⟩ := afterAll_handedOver id h hN hb.upcoming
    cases Option.some.inj (hd.symm.trans hd')
    have hin := hmem k hk
    rw [hq] at hin
    obtain ⟨j, hj, hjk⟩ := List.mem_map.mp hin
    rw [← pieceJob_inj h ((hks j).mp hj).1 hk hjk]
    exact ((hks j).mp hj).2
  · rintro ⟨hN, hside⟩
    obtain ⟨d, hd, -, -, ks, hq, hnodup, hks⟩ := afterAll_handedOver id h hN hb.upcoming
    refine ⟨d, hd, ?_⟩
    rw [hq]
    refine ((List.perm_ext_iff_of_nodup hnodup List.nodup_range).mpr fun k => ?_).map _
    rw [hks k, List.mem_range]
    exact and_iff_left_of_imp (hside k)

/-! ## Two pieces of two blocks -/

/-- A file of zeros, one byte longer than two blocks, twice. -/
def zeros : Buffer := List.replicate 32770 0

/-- Its torrent of two pieces of two blocks. -/
def twoPieces : TorrentFile where
  announce := []
  infoHash := []
  pieceHashes := (List.range 2).map fun k => Sha1.calculate (Tiling.tile zeros 16385 k)
  pieceLength := 16385
  length := 32770
  name := bytes "b"

theorem describes_twoPieces : Describes twoPieces zeros where
  consistent := ⟨by decide, by decide, by decide⟩
  pieceLength_lt := by decide
  length_eq := List.length_replicate
  hashes := by
    intro k hk
    have hunit : twoPieces.pieceUnit = 16385 := by decide
    rw [hunit]
    exact (List.getElem?_map ..).trans (by rw [List.getElem?_range (by simpa [twoPieces] using hk)]; rfl)

/-- The law where one piece is delivered after the other. -/
theorem handed_over_iff_twoPieces :
    HandsOverAll twoPieces zeros [] [⟨0, 0⟩, ⟨0, 1⟩, ⟨1, 0⟩, ⟨1, 1⟩] :=
  (handed_over_iff describes_twoPieces ⟨by decide, by decide⟩).mpr ⟨by decide, by decide⟩

/-- The same deliveries, the blocks of the two pieces in turns. -/
def inTurns : List Delivery := [⟨0, 0⟩, ⟨1, 0⟩, ⟨0, 1⟩, ⟨1, 1⟩]

theorem eachOnce_inTurns : EachOnce twoPieces inTurns := ⟨by decide, by decide⟩

/-- Two connections take turns, and no piece is handed to the writer. -/
theorem interleaved_pieces_lost :
    Describes twoPieces zeros ∧ EachOnce twoPieces inTurns ∧
      (∃ d, afterAll twoPieces zeros [] inTurns = some d ∧ d.fileWriter.q = []) ∧
      ¬ HandsOverAll twoPieces zeros [] inTurns := by
  obtain ⟨d, hd, -, -, ks, hq, -, hks⟩ :=
    afterAll_handedOver [] describes_twoPieces (by decide) eachOnce_inTurns.upcoming
  have hnone : ∀ k < twoPieces.pieceHashes.length, ¬ blocksOf twoPieces k <:+: inTurns := by decide
  have hempty : ks = [] := List.eq_nil_iff_forall_not_mem.mpr fun k hk =>
    hnone k ((hks k).mp hk).1 ((hks k).mp hk).2
  rw [hempty, List.map_nil] at hq
  refine ⟨describes_twoPieces, eachOnce_inTurns, ⟨d, hd, hq⟩, ?_⟩
  rintro ⟨d', hd', hperm⟩
  cases Option.some.inj (hd.symm.trans hd')
  rw [hq] at hperm
  exact absurd hperm.length_eq (by decide)

end Downloader

end NodeLink
