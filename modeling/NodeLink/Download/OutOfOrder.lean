import NodeLink.Download.Completeness
import NodeLink.Download.Geometry

/-!
# Blocks in any order

A piece is cut into parts, and the parts are delivered in any order.  The blocks
keep apart, so the sum of their sizes reaches that of the piece with the last
one and not before.  What stands in the buffer then does not depend on the
order: the parts, one after another (`Splice.overwriteAll_eq`).

`built d bs` is the state after copies only.  Until the last block the run is in
that state (`exec_built`), and the check on the last one finds the content.
-/

namespace NodeLink

open Cpp Coverage

/-! ## The parts of a content -/

/-- Parts laid side by side, each with the position it begins at. -/
def blocksFrom : Nat → List Buffer → List (Nat × Buffer)
  | _, [] => []
  | off, p :: ps => (off, p) :: blocksFrom (off + p.length) ps

section Parts

variable {ps : List Buffer} {off : Nat} {b : Nat × Buffer}

theorem bounds_of_mem_blocksFrom (h : b ∈ blocksFrom off ps) :
    off ≤ b.1 ∧ b.1 + b.2.length ≤ off + ps.flatten.length ∧ b.2 ∈ ps := by
  induction ps generalizing off with
  | nil => exact absurd h List.not_mem_nil
  | cons p ps ih =>
      rw [List.flatten_cons, List.length_append]
      rcases List.mem_cons.mp h with rfl | h
      · exact ⟨Nat.le_refl _, by dsimp only; omega, List.mem_cons_self⟩
      · obtain ⟨h1, h2, h3⟩ := ih h
        exact ⟨by omega, by omega, List.mem_cons_of_mem p h3⟩

theorem total_blocksFrom : total ((blocksFrom off ps).map Splice.span) = ps.flatten.length := by
  induction ps generalizing off with
  | nil => rfl
  | cons p ps ih =>
      rw [blocksFrom, List.map_cons, total_cons, ih, List.flatten_cons, List.length_append]
      rfl

theorem apart_blocksFrom : Apart ((blocksFrom off ps).map Splice.span) := by
  induction ps generalizing off with
  | nil => exact List.Pairwise.nil
  | cons p ps ih =>
      refine List.pairwise_cons.mpr ⟨?_, ih⟩
      intro r hr
      obtain ⟨b, hb, rfl⟩ := List.mem_map.mp hr
      have hle := (bounds_of_mem_blocksFrom hb).1
      rw [Finset.disjoint_left]
      intro x hx hx'
      rw [mem_positions] at hx hx'
      simp only [Splice.span] at hx hx'
      omega

/-- Every part is where it belongs in the content. -/
theorem partOf_blocksFrom (pre : Buffer) (h : b ∈ blocksFrom pre.length ps) :
    Splice.PartOf (pre ++ ps.flatten) b := by
  induction ps generalizing pre with
  | nil => exact absurd h List.not_mem_nil
  | cons p ps ih =>
      rw [List.flatten_cons]
      rcases List.mem_cons.mp h with rfl | h
      · simp only [Splice.PartOf]
        rw [List.drop_left, List.take_left]
      · rw [← List.length_append] at h
        rw [← List.append_assoc]
        exact ih (pre ++ p) h

end Parts

theorem Speed.add_add (s : Speed) (a b : Nat) : (s.add a).add b = s.add (a + b) := by
  simp only [Speed.add, Speed.mk.injEq]
  omega

/-- Sizes added one after another are added in one. -/
theorem Speed.foldl_add {bs : List (Nat × Buffer)} (s : Speed) (h : bs ≠ []) :
    bs.foldl (fun s b => s.add b.2.length) s = s.add (total (bs.map Splice.span)) := by
  induction bs using List.reverseRecOn with
  | nil => exact absurd rfl h
  | append_singleton bs b ih =>
      rw [List.foldl_append, List.map_append, total_append]
      rcases eq_or_ne bs [] with rfl | hbs
      · simp [Splice.span]
      · rw [ih hbs]
        exact Speed.add_add s _ _

namespace Downloader

variable {d d0 d1 : Downloader} {i : Int32} {b : Nat × Buffer} {bs cs : List (Nat × Buffer)}
  {size : Nat}

/-- The call that delivers a block of piece `i`. -/
def deliver (i : Int32) (b : Nat × Buffer) : Call := ⟨true, i, Int32.ofNat b.1, b.2⟩

/-- The state after copies of the blocks. -/
def built (d : Downloader) (bs : List (Nat × Buffer)) : Downloader :=
  bs.foldl (fun d b => (d.copied (Int32.ofNat b.1) b.2).addSpeed b.2.length) d

theorem built_concat (d : Downloader) (bs : List (Nat × Buffer)) (b : Nat × Buffer) :
    built d (bs ++ [b]) =
      ((built d bs).copied (Int32.ofNat b.1) b.2).addSpeed b.2.length := by
  rw [built, List.foldl_append]
  rfl

/-- The state after the blocks, field by field. -/
theorem built_eq (h : ∀ b ∈ bs, b.1 < 2 ^ 31) :
    built d bs = { d with
      pieceBuffer := Splice.overwriteAll d.pieceBuffer bs
      pieceBytesReceived :=
        Int32.ofInt (d.pieceBytesReceived.toInt + total (bs.map Splice.span))
      s := bs.foldl (fun s b => s.add b.2.length) d.s } := by
  induction bs using List.reverseRecOn with
  | nil => simp [built]
  | append_singleton bs b ih =>
      have hb := h b (List.mem_append_right bs (List.mem_singleton_self b))
      have hoff : (Int32.ofNat b.1).toInt.toNat = b.1 := by
        rw [Int32.toInt_ofNat_of_lt hb, Int.toNat_natCast]
      have hrec : Int32.ofInt ((Int32.ofInt (d.pieceBytesReceived.toInt +
          total (bs.map Splice.span))).toInt + b.2.length) =
          Int32.ofInt (d.pieceBytesReceived.toInt + total ((bs ++ [b]).map Splice.span)) := by
        apply Int32.toInt_inj.mp
        rw [toInt_ofInt32, toInt_ofInt32, toInt_ofInt32, List.map_append, total_append,
          List.map_singleton, total_cons, total_nil]
        simp only [Splice.span]
        omega
      rw [built_concat, ih fun x hx => h x (List.mem_append_left [b] hx),
        Splice.overwriteAll_concat, List.foldl_append, ← hrec]
      simp only [copied, addSpeed, hoff, List.foldl_cons, List.foldl_nil]

theorem built_currentPieceIndex (h : ∀ b ∈ bs, b.1 < 2 ^ 31) :
    (built d bs).currentPieceIndex = d.currentPieceIndex := by
  rw [built_eq h]

theorem built_torrent (h : ∀ b ∈ bs, b.1 < 2 ^ 31) : (built d bs).torrent = d.torrent := by
  rw [built_eq h]

/-! ## The run -/

/-- The blocks lie inside a buffer, which is smaller than `2 ^ 31`. -/
structure Fits (size : Nat) (bs : List (Nat × Buffer)) : Prop where
  size_lt : size < 2 ^ 31
  stop_le : ∀ b ∈ bs, b.1 + b.2.length ≤ size

namespace Fits

theorem start_lt (h : Fits size bs) : ∀ b ∈ bs, b.1 < 2 ^ 31 := by
  intro b hb
  have h1 := h.stop_le b hb
  have h2 := h.size_lt
  omega

theorem of_concat (h : Fits size (bs ++ [b])) : Fits size bs :=
  ⟨h.size_lt, fun x hx => h.stop_le x (List.mem_append_left [b] hx)⟩

end Fits

/-- A block is copied, then the check runs. -/
theorem receive_built (hf : Fits d.pieceBuffer.length (bs ++ [b]))
    (hcur : d.currentPieceIndex = i) :
    receive (built d bs) (deliver i b) = checkIntegrity (built d (bs ++ [b])) i ∧
    ∀ content, ChecksContent (built d bs) (deliver i b) content ↔
      (built d (bs ++ [b])).Full ∧ (built d (bs ++ [b])).pieceBuffer = content := by
  have hlt := hf.of_concat.start_lt
  have hb := hf.stop_le b (List.mem_append_right bs (List.mem_singleton_self b))
  have hlen : (built d bs).pieceBuffer.length = d.pieceBuffer.length := by
    rw [built_eq hlt]
    exact Splice.overwriteAll_length hf.of_concat.stop_le
  have hswitch : switchPiece true (built d bs) i = .ok (built d bs) :=
    switchPiece_same ((built_currentPieceIndex hlt).trans hcur).symm
  have hoff : (Int32.ofNat b.1).toInt = b.1 := Int32.toInt_ofNat_of_lt (by
    have := hf.size_lt
    omega)
  have hdeliver : Delivers i (built d bs).pieceBuffer.length (deliver i b) := by
    refine ⟨rfl, ?_, ?_⟩
    · simp only [deliver, hoff]
      omega
    · simp only [deliver, hoff, hlen]
      omega
  have hcopy := copyBlock_of_delivers hdeliver (by
    have := hf.size_lt
    simp only [maxSize]
    omega)
  refine ⟨?_, ?_⟩
  · rw [receive_eq_check (c := deliver i b) hswitch hcopy, built_concat]
    rfl
  · intro content
    rw [built_concat]
    constructor
    · rintro ⟨d1, d2, h1, h2, hfull, hbuf⟩
      cases hswitch.symm.trans h1
      cases hcopy.symm.trans h2
      exact ⟨hfull, hbuf⟩
    · rintro ⟨hfull, hbuf⟩
      exact ⟨_, _, hswitch, hcopy, hfull, hbuf⟩

/-- The buffer is full exactly if the sizes sum to that of the piece. -/
theorem full_built_iff (hf : Fits d.pieceBuffer.length bs) (h0 : d.pieceBytesReceived = 0)
    (htotal : total (bs.map Splice.span) ≤ d.pieceBuffer.length) :
    (built d bs).Full ↔ total (bs.map Splice.span) = d.pieceBuffer.length := by
  have hsize := hf.size_lt
  have hlen : (Splice.overwriteAll d.pieceBuffer bs).length = d.pieceBuffer.length :=
    Splice.overwriteAll_length hf.stop_le
  have hzero : (0 : Int32).toInt = 0 := rfl
  simp only [Full]
  rw [built_eq hf.start_lt]
  simp only [hlen, h0, toInt_ofInt32, hzero]
  omega

/-- As long as bytes are missing the run is in the state after the copies. -/
theorem atDelivery_built (hf : Fits d1.pieceBuffer.length bs) (hcur : d1.currentPieceIndex = i)
    (h0 : d1.pieceBytesReceived = 0) (hswitch : switchPiece true d0 i = .ok d1)
    (htotal : total (bs.map Splice.span) < d1.pieceBuffer.length) :
    AtDelivery d0 d1 (bs.map (deliver i)) (built d1 bs) := by
  induction bs using List.reverseRecOn with
  | nil => exact .inl ⟨rfl, rfl⟩
  | append_singleton bs b ih =>
      have hsum := htotal
      rw [List.map_append, total_append] at hsum
      have hat := ih hf.of_concat (by omega)
      have hnot : ¬(built d1 (bs ++ [b])).Full := by
        rw [full_built_iff hf h0 (by omega)]
        omega
      have hr : receive (built d1 bs) (deliver i b) = .ok (built d1 (bs ++ [b])) := by
        rw [(receive_built hf hcur).1, checkIntegrity_eq, if_neg hnot]
      rw [List.map_append]
      refine .inr ⟨List.append_ne_nil_of_right_ne_nil _ (List.cons_ne_nil _ _), ?_⟩
      exact exec_of_atDelivery hat (fun _ => hswitch) hr

/-! ## The whole piece -/

/-- The state with the content of piece `i` in the buffer, all of it received. -/
@[simps] def whole (d : Downloader) (i : Int32) (content : Buffer) : Downloader :=
  { d.switched i with
    pieceBuffer := content
    pieceBytesReceived := Int32.ofInt content.length
    s := d.s.add content.length }

/-- The state after the check of the whole piece. -/
def assembled (d : Downloader) (i : Int32) (content : Buffer) : Downloader :=
  if d.torrent.hashAt i.toInt = some (Sha1.calculate content) then (d.whole i content).written i
  else d.whole i content

/-- The blocks are the parts of a content below `2 ^ 31` bytes, none of them empty, in some
order. -/
structure Shuffled (ps : List Buffer) (cs : List (Nat × Buffer)) : Prop where
  ne_nil : ∀ p ∈ ps, p ≠ []
  length_lt : ps.flatten.length < 2 ^ 31
  perm : cs.Perm (blocksFrom 0 ps)

namespace Shuffled

variable {ps : List Buffer} {rest : List (Nat × Buffer)}

theorem fits (h : Shuffled ps cs) : Fits ps.flatten.length cs := by
  refine ⟨h.length_lt, ?_⟩
  intro b hb
  have := (bounds_of_mem_blocksFrom (h.perm.mem_iff.mp hb)).2.1
  omega

theorem total_eq (h : Shuffled ps cs) : total (cs.map Splice.span) = ps.flatten.length := by
  rw [total_perm (h.perm.map Splice.span), total_blocksFrom]

theorem length_pos (h : Shuffled ps cs) (hb : b ∈ cs) : 0 < b.2.length :=
  List.length_pos_iff.mpr (h.ne_nil _ (bounds_of_mem_blocksFrom (h.perm.mem_iff.mp hb)).2.2)

/-- With a block of the run the sizes reach the whole exactly if it is the last one. -/
theorem split (h : Shuffled ps (bs ++ b :: rest)) :
    Fits ps.flatten.length (bs ++ [b]) ∧ total (bs.map Splice.span) < ps.flatten.length ∧
    total ((bs ++ [b]).map Splice.span) ≤ ps.flatten.length ∧
    (total ((bs ++ [b]).map Splice.span) = ps.flatten.length ↔ rest = []) := by
  have hpos := h.length_pos (List.mem_append_right bs List.mem_cons_self)
  have hsum := h.total_eq
  have hfits := h.fits
  rw [List.append_cons] at hsum hfits
  rw [List.map_append, total_append] at hsum
  have hconcat : total ((bs ++ [b]).map Splice.span) =
      total (bs.map Splice.span) + b.2.length := by
    rw [List.map_append, total_append]
    rfl
  refine ⟨⟨h.length_lt, fun x hx => hfits.stop_le x (List.mem_append_left rest hx)⟩, by omega,
    by omega, ?_⟩
  constructor
  · intro hall
    cases rest with
    | nil => rfl
    | cons c rest =>
        have hc := h.length_pos (List.mem_append_right bs
          (List.mem_cons_of_mem b List.mem_cons_self))
        rw [List.map_cons, total_cons] at hsum
        simp only [Splice.span] at hsum hconcat hall
        omega
  · rintro rfl
    rw [← hsum]
    rfl

/-- All parts of a content, copied in any order. -/
theorem built_whole (h : Shuffled ps cs) (hne : cs ≠ []) :
    built ((d.switched i).cleared ps.flatten.length) cs = d.whole i ps.flatten := by
  have hf := h.fits
  have hcov : covered (cs.map Splice.span) = Finset.range ps.flatten.length := by
    refine ((apart_blocksFrom.perm (h.perm.map Splice.span).symm).covered_eq_iff ?_).mpr h.total_eq
    intro r hr
    obtain ⟨b, hb, rfl⟩ := List.mem_map.mp hr
    exact hf.stop_le b hb
  have hpart : ∀ b ∈ cs, Splice.PartOf ps.flatten b := by
    intro b hb
    exact partOf_blocksFrom [] (h.perm.mem_iff.mp hb)
  have hlen : (List.replicate ps.flatten.length (0 : UInt8)).length = ps.flatten.length :=
    List.length_replicate
  have hbuf : Splice.overwriteAll (List.replicate ps.flatten.length 0) cs = ps.flatten :=
    Splice.overwriteAll_eq hlen (by rw [hlen]; exact hf.stop_le) hpart hcov
  rw [built_eq hf.start_lt]
  simp only [cleared, switched, whole, hbuf, h.total_eq, Speed.foldl_add d.s hne,
    Int32.toInt_zero, Int.zero_add]

/-- A delivery of the run is made in the state after copies only, and the check runs on it exactly
if it is the last one. -/
theorem delivery (h : Shuffled ps (bs ++ b :: rest))
    (hswitch : switchPiece true d i = .ok ((d.switched i).cleared ps.flatten.length)) :
    let d1 := (d.switched i).cleared ps.flatten.length
    AtDelivery d d1 (bs.map (deliver i)) (built d1 bs) ∧
      receive (built d1 bs) (deliver i b) = checkIntegrity (built d1 (bs ++ [b])) i ∧
      ((built d1 (bs ++ [b])).Full ↔ rest = []) ∧
      ∀ content, ChecksContent (built d1 bs) (deliver i b) content ↔
        rest = [] ∧ content = ps.flatten := by
  obtain ⟨hf, hlt, hle, hlast⟩ := h.split
  have hlen : ((d.switched i).cleared ps.flatten.length).pieceBuffer.length =
      ps.flatten.length := by
    rw [cleared_pieceBuffer, List.length_replicate]
  rw [← hlen] at hf hlt hle
  have hfull := full_built_iff hf rfl hle
  rw [hlen, hlast] at hfull
  obtain ⟨hr, hchecks⟩ := receive_built (i := i) hf rfl
  refine ⟨atDelivery_built hf.of_concat rfl rfl hswitch hlt, hr, hfull, ?_⟩
  intro content
  rw [hchecks, hfull]
  refine and_congr_right ?_
  rintro rfl
  rw [h.built_whole (List.append_ne_nil_of_right_ne_nil _ (List.cons_ne_nil _ _))]
  exact eq_comm

end Shuffled

theorem checkIntegrity_whole {content : Buffer} (hrange : d.torrent.InRange i.toInt)
    (hfull : (d.whole i content).Full) :
    checkIntegrity (d.whole i content) i = .ok (d.assembled i content) := by
  obtain ⟨s, hs⟩ := Option.ne_none_iff_exists'.mp
    (fun h => (d.torrent.hashAt_eq_none_iff i.toInt).mp h hrange)
  have hs' : (d.whole i content).torrent.hashAt i.toInt = some s := hs
  rw [checkIntegrity_eq, if_pos hfull, hs', assembled, hs]
  change (if Sha1.calculate content = s then _ else _) = _
  by_cases h : Sha1.calculate content = s
  · rw [if_pos h, if_pos (congrArg some h.symm)]
  · rw [if_neg h, if_neg fun e => h (Option.some.inj e).symm]

/-- All parts of a piece, delivered in any order: what is left is what the check makes of the whole. -/
theorem Shuffled.exec_assembled {ps : List Buffer} (h : Shuffled ps cs) (hne : cs ≠ [])
    (hrange : d.torrent.InRange i.toInt)
    (hswitch : switchPiece true d i = .ok ((d.switched i).cleared ps.flatten.length)) :
    exec receive d (cs.map (deliver i)) = some (d.assembled i ps.flatten) := by
  obtain ⟨bs, b, rfl⟩ := (List.eq_nil_or_concat' cs).resolve_left hne
  obtain ⟨hat, hr, hfull, -⟩ := h.delivery hswitch
  rw [h.built_whole hne] at hr hfull
  rw [checkIntegrity_whole hrange (hfull.mpr rfl)] at hr
  rw [List.map_append]
  exact exec_of_atDelivery hat (fun _ => hswitch) hr

/-- The change to a piece of a consistent torrent. -/
theorem switchPiece_of_consistent (hgeo : d.torrent.Consistent)
    (hsmall : d.torrent.pieceLength.toInt < 2 ^ 31) (hrange : d.torrent.InRange i.toInt)
    (hne : i ≠ d.currentPieceIndex) :
    d.torrent.lengthOfPiece i.toInt.toNat < 2 ^ 31 ∧
    switchPiece true d i =
      .ok ((d.switched i).cleared (d.torrent.lengthOfPiece i.toInt.toNat)) := by
  obtain ⟨h0, h1⟩ := hrange
  have hk : i.toInt.toNat < d.torrent.pieceHashes.length := by omega
  obtain ⟨n, hn, hval⟩ := hgeo.pieceLen_eq hk
  rw [Int.toNat_of_nonneg h0] at hn
  rw [← hgeo.lengthOfPiece_eq hk] at hval
  have hle := Tiling.size_le (n := d.torrent.size) (p := d.torrent.pieceUnit) (i := i.toInt.toNat)
  rw [← hgeo.lengthOfPiece_eq hk] at hle
  have hunit := hgeo.pieceUnit_eq
  have hlt : d.torrent.lengthOfPiece i.toInt.toNat < 2 ^ 31 := by omega
  exact ⟨hlt, switchPiece_of_pieceLen hne hn hval hlt⟩

/-- The place of a piece in the file. -/
theorem toInt_globalOffset (hgeo : d.torrent.Consistent) (hrange : d.torrent.InRange i.toInt) :
    (d.globalOffset i).toInt = i.toInt * d.torrent.pieceLength.toInt := by
  obtain ⟨h0, h1⟩ := hrange
  have hend := hgeo.offset_add_pieceSize_le (k := i.toInt.toNat) (by omega)
  have hunit := hgeo.pieceUnit_eq
  have hsize := hgeo.size_lt
  have hmul : (i.toInt.toNat * d.torrent.pieceUnit : Nat) =
      i.toInt * d.torrent.pieceLength.toInt := by
    rw [Int.natCast_mul, Int.toNat_of_nonneg h0, hunit]
  rw [globalOffset, toInt_ofInt64]
  omega

/-- The blocks of a piece, delivered in any order: the check runs on the last one only, on the
parts one after another, and what is left is the same for every way to cut the piece. -/
theorem exec_deliver_perm {ps : List Buffer} (hgeo : d0.torrent.Consistent)
    (hsmall : d0.torrent.pieceLength.toInt < 2 ^ 31) (hrange : d0.torrent.InRange i.toInt)
    (hne : i ≠ d0.currentPieceIndex) (hps : ∀ p ∈ ps, p ≠ [])
    (hlen : ps.flatten.length = d0.torrent.lengthOfPiece i.toInt.toNat)
    (hperm : cs.Perm (blocksFrom 0 ps)) :
    exec receive d0 (cs.map (deliver i)) = some (d0.assembled i ps.flatten) ∧
    (∀ bs b rest, cs = bs ++ b :: rest →
      ∃ d d', exec receive d0 (bs.map (deliver i)) = some d ∧ receive d (deliver i b) = .ok d' ∧
        ∀ content, ChecksContent d (deliver i b) content ↔ rest = [] ∧ content = ps.flatten) ∧
    ∃ off : Int64, off.toInt = i.toInt * d0.torrent.pieceLength.toInt ∧
      (d0.assembled i ps.flatten).fileWriter.q =
        if d0.torrent.hashAt i.toInt = some (Sha1.calculate ps.flatten) then
          d0.fileWriter.q ++ [⟨ps.flatten, off⟩]
        else d0.fileWriter.q := by
  obtain ⟨hlt, hswitch⟩ := switchPiece_of_consistent hgeo hsmall hrange hne
  rw [← hlen] at hlt hswitch
  have h : Shuffled ps cs := ⟨hps, hlt, hperm⟩
  refine ⟨?_, ?_, d0.globalOffset i, toInt_globalOffset hgeo hrange, ?_⟩
  · have hne : cs ≠ [] := by
      rintro rfl
      have hk : i.toInt.toNat < d0.torrent.pieceHashes.length := by
        obtain ⟨h0, h1⟩ := hrange
        omega
      have hpos := Tiling.size_pos hgeo.pieceUnit_pos (hgeo.count_eq ▸ hk)
      have hzero := h.total_eq
      rw [hlen, hgeo.lengthOfPiece_eq hk, List.map_nil, total_nil] at hzero
      omega
    exact h.exec_assembled hne hrange hswitch
  · rintro bs b rest rfl
    obtain ⟨hat, hr, -, hchecks⟩ := h.delivery hswitch
    obtain ⟨d, hrun, hsame, hcongr⟩ := exists_exec_of_atDelivery (c := deliver i b) hat hswitch
    have hf := h.split.1
    obtain ⟨d', hd'⟩ := checkIntegrity_of_inRange (i := i)
      (d := built ((d0.switched i).cleared ps.flatten.length) (bs ++ [b]))
      (by rw [built_torrent hf.start_lt]; exact hrange)
    exact ⟨d, d', hrun, by rw [hsame, hr, hd'], fun content => (hcongr content).trans
      (hchecks content)⟩
  · rw [assembled]
    split <;> rfl

/-- The two bytes of a piece, the second one first. -/
theorem exec_deliver_perm_two :
    exec receive (init torrentOfTwo []) [deliver 0 (1, bytes "b"), deliver 0 (0, bytes "a")] =
        some ((init torrentOfTwo []).assembled 0 (bytes "ab")) ∧
    ∃ off : Int64, off.toInt = 0 ∧
      ((init torrentOfTwo []).assembled 0 (bytes "ab")).fileWriter.q = [⟨bytes "ab", off⟩] := by
  have hgeo : (init torrentOfTwo []).torrent.Consistent := ⟨by decide, by decide, by decide⟩
  have hperm : [(1, bytes "b"), (0, bytes "a")].Perm (blocksFrom 0 [bytes "a", bytes "b"]) :=
    List.Perm.swap _ _ _
  have hflat : [bytes "a", bytes "b"].flatten = bytes "ab" := by decide
  have hhash : (init torrentOfTwo []).torrent.hashAt (0 : Int32).toInt =
      some (Sha1.calculate [bytes "a", bytes "b"].flatten) := by
    rw [hflat]
    rfl
  obtain ⟨hrun, -, off, hoff, hq⟩ := exec_deliver_perm (i := 0) hgeo (by decide) (by decide)
    (by decide) (by decide) (by decide) hperm
  replace hq := hq.trans (if_pos hhash)
  generalize [bytes "a", bytes "b"].flatten = content at hrun hq hflat
  subst hflat
  exact ⟨hrun, off, hoff, hq⟩

end Downloader

end NodeLink
