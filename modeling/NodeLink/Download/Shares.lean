import NodeLink.Download.Peer
import NodeLink.Download.Selection

/-!
# A peer with some of the pieces

A peer announces the pieces it has in its `BITFIELD`, in any payload.  The
connection asks for the blocks of these pieces, one after another, and skips the
other pieces.  A place in that order is before a piece, or inside one
(`Place`); `Place.blocks` are the blocks from there on, and `Place.behind` is the
place behind a block.

The connection at a place asks for the first block from there and moves behind
it (`Standing.request`), and where no block is left it asks for nothing
(`Standing.ended`).  The downloader at a place receives the first block from
there and moves behind it (`Downloader.Lacks.receive`).
-/

namespace NodeLink

open Cpp

/-! ## The order -/

section Order

variable (t : TorrentFile) (payload : Buffer)

/-- The pieces of a bitfield, from piece `a` on. -/
def piecesFrom (a : Nat) : List Nat :=
  (List.range' a (t.pieceHashes.length - a)).filter fun k => Connection.BitSet payload k

/-- The blocks of these pieces. -/
def wantedFrom (a : Nat) : List Delivery := (piecesFrom t payload a).flatMap (blocksOf t)

/-- Where the transfer stands. -/
inductive Place where
  /-- Before piece `a`. -/
  | before (a : Nat)
  /-- Inside piece `k`, before block `c`. -/
  | inside (k c : Nat)

namespace Place

/-- The pieces that are not complete. -/
def pieces : Place → List Nat
  | before a => piecesFrom t payload a
  | inside k _ => k :: piecesFrom t payload (k + 1)

/-- The blocks that are left. -/
def blocks : Place → List Delivery
  | before a => wantedFrom t payload a
  | inside k c => (blocksOf t k).drop c ++ wantedFrom t payload (k + 1)

/-- The place is one of the torrent. -/
def Valid : Place → Prop
  | before a => a ≤ t.pieceHashes.length
  | inside k c => k < t.pieceHashes.length ∧ c < blockCount (t.lengthOfPiece k)

end Place

/-- The place behind a block. -/
def Place.behind (b : Delivery) : Place :=
  if b.block + 1 = blockCount (t.lengthOfPiece b.piece) then .before (b.piece + 1)
  else .inside b.piece (b.block + 1)

variable {t payload} {a j : Nat} {b : Delivery} {rest : List Delivery} {pl : Place}

/-- The first piece of the bitfield from `a` on, or there is none. -/
theorem piecesFrom_cases (t : TorrentFile) (payload : Buffer) (a : Nat) :
    (∃ j, a ≤ j ∧ j < t.pieceHashes.length ∧ Connection.BitSet payload j ∧
      (∀ i, a ≤ i → i < j → ¬ Connection.BitSet payload i) ∧
      piecesFrom t payload a = j :: piecesFrom t payload (j + 1)) ∨
    ((∀ i, a ≤ i → i < t.pieceHashes.length → ¬ Connection.BitSet payload i) ∧
      piecesFrom t payload a = []) := by
  induction hn : t.pieceHashes.length - a generalizing a with
  | zero =>
      refine .inr ⟨fun i hi hlt => absurd hlt (by omega), ?_⟩
      rw [piecesFrom, hn]
      rfl
  | succ n ih =>
      have hcut : List.range' a (t.pieceHashes.length - a) =
          a :: List.range' (a + 1) (t.pieceHashes.length - (a + 1)) := by
        rw [hn, List.range'_succ]
        congr 2
        omega
      by_cases hbit : Connection.BitSet payload a
      · refine .inl ⟨a, le_refl a, by omega, hbit, fun i hi hlt => absurd hlt (by omega), ?_⟩
        rw [piecesFrom, hcut, List.filter_cons_of_pos (by simpa using hbit)]
        rfl
      · have hskip : piecesFrom t payload a = piecesFrom t payload (a + 1) := by
          rw [piecesFrom, hcut, List.filter_cons_of_neg (by simpa using hbit)]
          rfl
        rcases ih (a + 1) (by omega) with ⟨j, hle, hlt, hj, hmin, heq⟩ | ⟨hno, heq⟩
        · refine .inl ⟨j, by omega, hlt, hj, fun i hi hij => ?_, hskip.trans heq⟩
          rcases Nat.eq_or_lt_of_le hi with rfl | hai
          · exact hbit
          · exact hmin i hai hij
        · refine .inr ⟨fun i hi hlt => ?_, hskip.trans heq⟩
          rcases Nat.eq_or_lt_of_le hi with rfl | hai
          · exact hbit
          · exact hno i hai hlt

theorem mem_piecesFrom_zero {k : Nat} :
    k ∈ piecesFrom t payload 0 ↔ k < t.pieceHashes.length ∧ Connection.BitSet payload k := by
  simp [piecesFrom, List.mem_filter, List.mem_range']

/-- The blocks from a block on: the block, and those behind it. -/
theorem drop_blocks (payload : Buffer) (hb : b.InTorrent t) :
    (blocksOf t b.piece).drop b.block ++ wantedFrom t payload (b.piece + 1) =
      b :: (Place.behind t b).blocks t payload := by
  have hlen : b.block < (blocksOf t b.piece).length := by
    rw [blocksOf_length]
    exact hb.2
  have hget : (blocksOf t b.piece)[b.block] = b := by simp [blocksOf]
  rw [List.drop_eq_getElem_cons hlen, hget, List.cons_append]
  simp only [Place.behind]
  split
  next hlast =>
    rw [List.drop_eq_nil_of_le (by rw [blocksOf_length, hlast]), List.nil_append]
    rfl
  next => rfl

theorem Place.behind_valid (hb : b.InTorrent t) : (Place.behind t b).Valid t := by
  obtain ⟨hk, hc⟩ := hb
  simp only [Place.behind]
  split
  · exact hk
  next hlast => exact ⟨hk, by omega⟩

/-- The first block from a place on is its block, or the first one of the next piece. -/
theorem Place.blocks_cons {content : Buffer} (h : Describes t content) (hv : pl.Valid t)
    (hbl : pl.blocks t payload = b :: rest) :
    b.InTorrent t ∧ rest = (Place.behind t b).blocks t payload ∧
      ((∃ a, pl = .before a ∧ a ≤ b.piece ∧ b.block = 0 ∧ Connection.BitSet payload b.piece ∧
          (∀ i, a ≤ i → i < b.piece → ¬ Connection.BitSet payload i) ∧
          piecesFrom t payload a = b.piece :: piecesFrom t payload (b.piece + 1)) ∨
        pl = .inside b.piece b.block) := by
  cases pl with
  | before a =>
      simp only [Place.blocks, wantedFrom] at hbl
      rcases piecesFrom_cases t payload a with ⟨j, hle, hlt, hj, hmin, heq⟩ | ⟨-, heq⟩
      · have hin : (⟨j, 0⟩ : Delivery).InTorrent t := ⟨hlt, h.blockCount_pos hlt⟩
        have hcut := drop_blocks payload hin
        rw [heq, List.flatMap_cons] at hbl
        rw [List.drop_zero, wantedFrom, hbl] at hcut
        obtain ⟨rfl, rfl⟩ := List.cons.inj hcut
        exact ⟨hin, rfl, .inl ⟨a, rfl, hle, rfl, hj, hmin, heq⟩⟩
      · rw [heq] at hbl
        cases hbl
  | inside k c =>
      have hcut := drop_blocks payload (b := ⟨k, c⟩) hv
      rw [Place.blocks, hcut] at hbl
      obtain ⟨rfl, rfl⟩ := List.cons.inj hbl
      exact ⟨hv, rfl, .inr rfl⟩

/-- Where no block is left, no piece is. -/
theorem Place.pieces_eq_nil {content : Buffer} (h : Describes t content) (hv : pl.Valid t)
    (hbl : pl.blocks t payload = []) : ∃ a, pl = .before a ∧ piecesFrom t payload a = [] ∧
      ∀ i, a ≤ i → i < t.pieceHashes.length → ¬ Connection.BitSet payload i := by
  cases pl with
  | before a =>
      rcases piecesFrom_cases t payload a with ⟨j, -, hlt, -, -, heq⟩ | ⟨hno, heq⟩
      · have hin : (⟨j, 0⟩ : Delivery).InTorrent t := ⟨hlt, h.blockCount_pos hlt⟩
        have hcut := drop_blocks payload hin
        simp only [Place.blocks, wantedFrom] at hbl
        rw [heq, List.flatMap_cons] at hbl
        rw [List.drop_zero, wantedFrom, hbl] at hcut
        cases hcut
      · exact ⟨a, rfl, heq, hno⟩
  | inside k c =>
      have hcut := drop_blocks payload (b := ⟨k, c⟩) hv
      rw [Place.blocks, hcut] at hbl
      cases hbl

end Order

/-! ## The connection -/

namespace Session

variable {t : TorrentFile} {content payload : Buffer} {s s' : Session} {b : Delivery}
  {rest : List Delivery} {pl : Place} {a : Nat}

/-- The connection may ask, knows what its peer has, and its calls succeed. -/
structure Willing (t : TorrentFile) (payload : Buffer) (s : Session) : Prop where
  torrent : s.dl.torrent = t
  choked : s.conn.choked = false
  bits : ∀ j < t.pieceHashes.length,
    (s.conn.peerPieces.getD j false = true ↔ Connection.BitSet payload j)
  results : s.results = []

/-- It stands at a block. -/
structure AtBlock (t : TorrentFile) (payload : Buffer) (s : Session) (b : Delivery) : Prop
    extends Willing t payload s where
  current : s.conn.currentPiece = wireInt b.piece
  offset : s.conn.blockOffset.toInt = blockBegin b.block
  next : s.dl.nextReqIndex.toInt = (b.piece + 1 : Nat)

/-- It has no piece, and the next candidate is piece `a`. -/
structure Seeking (t : TorrentFile) (payload : Buffer) (s : Session) (a : Nat) : Prop
    extends Willing t payload s where
  current : s.conn.currentPiece = -1
  next : s.dl.nextReqIndex.toInt = a

/-- The connection stands at a place. -/
def Standing (t : TorrentFile) (payload : Buffer) (s : Session) : Place → Prop
  | .before a => Seeking t payload s a
  | .inside k c => AtBlock t payload s ⟨k, c⟩

theorem Willing.congr (h : Willing t payload s) (hc : s'.conn.choked = s.conn.choked)
    (hb : s'.conn.peerPieces = s.conn.peerPieces) (hr : s'.results = s.results)
    (ht : s'.dl.torrent = s.dl.torrent) : Willing t payload s' where
  torrent := ht.trans h.torrent
  choked := hc.trans h.choked
  bits := by
    rw [hb]
    exact h.bits
  results := hr.trans h.results

/-- What a connection stands at does not depend on its buffer and its log. -/
theorem Standing.congr (h : Standing t payload s pl) (hw : Willing t payload s')
    (hp : s'.conn.currentPiece = s.conn.currentPiece)
    (ho : s'.conn.blockOffset = s.conn.blockOffset)
    (hn : s'.dl.nextReqIndex = s.dl.nextReqIndex) : Standing t payload s' pl := by
  cases pl with
  | before a => exact ⟨hw, hp.trans h.current, by rw [hn]; exact h.next⟩
  | inside k c => exact ⟨hw, hp.trans h.current, by rw [ho]; exact h.offset, by rw [hn]; exact h.next⟩

theorem Standing.willing (h : Standing t payload s pl) : Willing t payload s := by
  cases pl with
  | before a => exact h.toWilling
  | inside k c => exact h.toWilling

/-- A search asks for nothing. -/
theorem requests_drawn {es : List Event} (h : ∀ e ∈ es, e.Drawn) : requests es = [] := by
  refine List.filterMap_eq_nil_iff.mpr fun e he => ?_
  cases e with
  | took _ => rfl
  | skipped _ => rfl
  | _ => exact absurd (h _ he) id

/-- A search takes the first piece of the bitfield. -/
theorem Seeking.found (hN : t.pieceHashes.length < 2 ^ 30) (hs : Seeking t payload s a)
    {j : Nat} (hle : a ≤ j) (hlt : j < t.pieceHashes.length) (hj : Connection.BitSet payload j)
    (hmin : ∀ i, a ≤ i → i < j → ¬ Connection.BitSet payload i) :
    ∃ s1, s.requestNextBlock = s1.requestBlock ∧ AtBlock t payload s1 ⟨j, 0⟩ ∧
      requests s1.conn.log = requests s.conn.log := by
  have hbit : ∀ i < t.pieceHashes.length,
      (s.conn.hasPiece (Int32.ofNat i) = true ↔ Connection.BitSet payload i) := by
    intro i hi
    rw [Connection.hasPiece_iff, toInt_ofNat (by omega), Int.toNat_natCast, hs.bits i hi]
    exact and_iff_right (Int.natCast_nonneg i)
  have hoffered : s.Offered j := by
    refine ⟨?_, by rwa [hs.torrent], (hbit j hlt).mpr hj⟩
    rw [hs.next]
    exact_mod_cast hle
  rcases search_spec hs.next (by omega) (by rwa [hs.torrent]) (Nat.le_add_left _ a) with
      ⟨j', s1, hleast, hpassed, hfind⟩ | ⟨hnone, -⟩
  · have heq : j' = j := by
      refine Nat.le_antisymm (hleast.2 hoffered) (Nat.le_of_not_lt fun hlt' => ?_)
      obtain ⟨hfrom, hto, hhas⟩ := hleast.1
      rw [hs.next] at hfrom
      rw [hs.torrent] at hto
      exact hmin j' (by exact_mod_cast hfrom) hlt' ((hbit j' hto).mp hhas)
    subst heq
    have hret := hfind fun s => (false, s)
    rw [findPieceThen_return] at hret
    have hsearch := findPiece_search s.dl.torrent.pieceHashes.length s
    rw [hret] at hsearch
    have hframe := search_frame hsearch
    obtain ⟨mid, hlog, hdrawn⟩ := search_drawn hsearch
    refine ⟨s1.take (Int32.ofNat j'), requestNextBlock_of_found hs.choked hs.current hret, ?_, ?_⟩
    · exact ⟨hs.toWilling.congr hframe.choked hframe.peerPieces hpassed.results hframe.torrent,
        rfl, by rw [blockBegin, Nat.zero_mul]; rfl, hpassed.next⟩
    · rw [hlog, requests_append, requests_drawn hdrawn, List.append_nil]
  · exact absurd hoffered (hnone j)

/-- At a block, it asks for the block and moves behind it. -/
theorem AtBlock.request (h : Describes t content) (hN : t.pieceHashes.length < 2 ^ 30)
    (hb : b.InTorrent t) (hs : AtBlock t payload s b) :
    ∃ s', s.requestBlock = .ok s' ∧ Standing t payload s' (Place.behind t b) ∧
      requests s'.conn.log = requests s.conn.log ++ [requestOf t b] := by
  obtain ⟨hk, hc⟩ := hb
  have hbegin := blockBegin_lt_iff.mpr hc
  have hm := h.lengthOfPiece_lt hk
  have hend := blockEnd_le hbegin
  have hcase := blockEnd_eq hbegin
  have hcur : s.conn.currentPiece.toInt = b.piece := by
    rw [hs.current, toInt_wireInt (by omega)]
  have hok := (requestBlock_at (s := s) (by rw [hs.torrent]; exact h.consistent)
    (by rwa [hs.torrent]) (by rwa [hs.torrent]) hcur hs.offset (by rwa [hs.torrent])).1
      (by rw [hs.results]; rfl)
  rw [hs.torrent] at hok
  have hw : Willing t payload (s.requested (t.lengthOfPiece b.piece) b.block) :=
    hs.toWilling.congr rfl rfl (by rw [requested, hs.results]; rfl) rfl
  refine ⟨_, hok, ?_, ?_⟩
  · simp only [Place.behind]
    by_cases hlast : b.block + 1 = blockCount (t.lengthOfPiece b.piece)
    · rw [if_pos hlast]
      exact ⟨hw, if_pos hlast, hs.next⟩
    · rw [if_neg hlast] at hcase ⊢
      refine ⟨hw, (if_neg hlast).trans hs.current, ?_, hs.next⟩
      change (Int32.ofNat (blockBegin b.block + _)).toInt = _
      rw [toInt_ofNat (by omega), hcase]
  · change requests (s.conn.log ++ [.sent _]) = _
    rw [hs.current, requests_concat_request]
    rfl

/-- At a place, it asks for the first block from there. -/
theorem Standing.request (h : Describes t content) (hN : t.pieceHashes.length < 2 ^ 30)
    (hs : Standing t payload s pl) (hv : pl.Valid t) (hbl : pl.blocks t payload = b :: rest) :
    ∃ s', s.requestNextBlock = .ok s' ∧ Standing t payload s' (Place.behind t b) ∧
      requests s'.conn.log = requests s.conn.log ++ [requestOf t b] := by
  obtain ⟨hin, -, ⟨a, rfl, hle, hzero, hbit, hmin, -⟩ | rfl⟩ := Place.blocks_cons h hv hbl
  · obtain ⟨s1, hreq, hat, hlog⟩ := Seeking.found hN hs hle hin.1 hbit hmin
    have heq : (⟨b.piece, 0⟩ : Delivery) = b := by rw [← hzero]
    rw [heq] at hat
    obtain ⟨s', hs', hstand, hasked⟩ := hat.request h hN hin
    exact ⟨s', hreq.trans hs', hstand, by rw [hasked, hlog]⟩
  · have hat : AtBlock t payload s b := hs
    have hreq : s.requestNextBlock = s.requestBlock := by
      simp only [requestNextBlock]
      rw [hat.choked, if_neg Bool.false_ne_true, if_neg]
      rw [hat.current]
      exact Downloader.wireInt_ne_neg_one (by have := hin.1; omega)
    rw [hreq]
    exact hat.request h hN hin

/-- Where no block is left, it asks for nothing and is past the last piece. -/
theorem Standing.ended (h : Describes t content) (hN : t.pieceHashes.length < 2 ^ 30)
    (hs : Standing t payload s pl) (hv : pl.Valid t) (hbl : pl.blocks t payload = []) :
    ∃ s', s.requestNextBlock = .ok s' ∧ requests s'.conn.log = requests s.conn.log ∧
      RequestFrame s s' ∧ s'.conn.currentPiece = -1 ∧
      (t.pieceHashes.length : Int) ≤ s'.dl.nextReqIndex.toInt := by
  obtain ⟨a, rfl, -, hno⟩ := Place.pieces_eq_nil h hv hbl
  have hs : Seeking t payload s a := hs
  rcases search_spec hs.next (by have : a ≤ _ := hv; omega) (by rwa [hs.torrent])
      (Nat.le_add_left _ a) with ⟨j, -, hleast, -⟩ | ⟨-, s1, hpassed, hfind⟩
  · obtain ⟨hfrom, hto, hhas⟩ := hleast.1
    rw [hs.next] at hfrom
    rw [hs.torrent] at hto
    rw [Connection.hasPiece_iff, toInt_ofNat (by omega), Int.toNat_natCast, hs.bits j hto] at hhas
    exact absurd hhas.2 (hno j (by exact_mod_cast hfrom) hto)
  · have hret := hfind fun s => (false, s)
    rw [findPieceThen_return] at hret
    have hsearch := findPiece_search s.dl.torrent.pieceHashes.length s
    rw [hret] at hsearch
    obtain ⟨mid, hlog, hdrawn⟩ := search_drawn hsearch
    refine ⟨s1, requestNextBlock_of_not_found hs.choked hs.current hret, ?_, search_frame hsearch,
      hpassed.current.trans hs.current, ?_⟩
    · rw [hlog, requests_append, requests_drawn hdrawn, List.append_nil]
    · rw [hpassed.next, hs.torrent]
      omega

end Session

/-! ## The downloader -/

namespace Downloader

variable {t : TorrentFile} {content payload : Buffer} {d d' : Downloader} {b : Delivery}
  {rest : List Delivery} {pl : Place}

/-- What the piece buffer holds at a place: no later piece, or the first blocks of its own. -/
def HoldsAt (t : TorrentFile) (content : Buffer) (d : Downloader) : Place → Prop
  | .before a => ∀ k, a ≤ k → k < t.pieceHashes.length → d.currentPieceIndex ≠ wireInt k
  | .inside k c => Filled t content d k 0 c

/-- The downloader lacks the blocks from a place on: the other pieces of the bitfield have been handed
over. -/
structure Lacks (t : TorrentFile) (content payload : Buffer) (d : Downloader) (pl : Place) :
    Prop where
  torrent : d.torrent = t
  queue : d.fileWriter.q ++ (pl.pieces t payload).map (pieceJob t content) =
    (piecesFrom t payload 0).map (pieceJob t content)
  holds : HoldsAt t content d pl

theorem lacks_init (t : TorrentFile) (content payload : Buffer) (id : Str)
    (hN : t.pieceHashes.length < 2 ^ 30) : Lacks t content payload (init t id) (.before 0) where
  torrent := rfl
  queue := rfl
  holds k _ hk := (wireInt_ne_neg_one (by omega)).symm

/-- The counter of the requests plays no part. -/
theorem Lacks.congr (h : Lacks t content payload d pl) (i : Int32) :
    Lacks t content payload { d with nextReqIndex := i } pl where
  torrent := h.torrent
  queue := h.queue
  holds := by
    cases pl with
    | before a => exact h.holds
    | inside k c =>
        have hf : Filled t content d k 0 c := h.holds
        refine ⟨hf.torrent, hf.current, fun hc => ?_⟩
        have hg := hf.going hc
        exact ⟨hg.torrent, hg.start_le, hg.current, hg.received, hg.length, hg.bytes⟩

/-- After a block that follows its predecessors from the first one. -/
theorem lacks_behind (hb : b.InTorrent t) (hN : t.pieceHashes.length < 2 ^ 30)
    (hf : Filled t content d' b.piece 0 (b.block + 1))
    (hq : d.fileWriter.q ++ (b.piece :: piecesFrom t payload (b.piece + 1)).map (pieceJob t content) =
      (piecesFrom t payload 0).map (pieceJob t content))
    (hq' : d'.fileWriter.q = queued t content d.fileWriter.q b.piece 0 (b.block + 1)) :
    Lacks t content payload d' (Place.behind t b) := by
  have hk := hb.1
  simp only [queued] at hq'
  by_cases hlast : b.block + 1 = blockCount (t.lengthOfPiece b.piece)
  · rw [if_pos ⟨rfl, hlast⟩] at hq'
    have hbehind : Place.behind t b = .before (b.piece + 1) := if_pos hlast
    rw [hbehind]
    refine ⟨hf.torrent, ?_, fun k hle hlt he => ?_⟩
    · rw [hq', ← hq, List.append_assoc]
      rfl
    · rw [hf.current] at he
      have := wireInt_inj (by omega) (by omega) he
      omega
  · rw [if_neg fun hw => hlast hw.2] at hq'
    have hbehind : Place.behind t b = .inside b.piece (b.block + 1) := if_neg hlast
    rw [hbehind]
    exact ⟨hf.torrent, hq' ▸ hq, hf⟩

/-- The first block from a place on arrives. -/
theorem Lacks.receive (h : Describes t content) (hN : t.pieceHashes.length < 2 ^ 30)
    (hd : Lacks t content payload d pl) (hv : pl.Valid t)
    (hbl : pl.blocks t payload = b :: rest) :
    ∃ d', Downloader.receive d (deliverBlock t content b) = .ok d' ∧
      Lacks t content payload d' (Place.behind t b) := by
  obtain ⟨k, c⟩ := b
  obtain ⟨hin, -, ⟨a, rfl, hle, hzero, -, -, hcons⟩ | rfl⟩ := Place.blocks_cons h hv hbl
  · obtain rfl : c = 0 := hzero
    have hholds : HoldsAt t content d (.before a) := hd.holds
    obtain ⟨d', hd', hf, hq'⟩ := receive_switch h hin.1 (hin.1.trans (by omega)) hin.2 hd.torrent
      (hholds k hle hin.1)
    have hq := hd.queue
    rw [Place.pieces, hcons] at hq
    exact ⟨d', hd', lacks_behind hin hN hf hq hq'⟩
  · obtain ⟨d', hd', hf, hq'⟩ := receive_next h hin.1 (hin.1.trans (by omega)) hin.2 hd.holds
    exact ⟨d', hd', lacks_behind hin hN hf hd.queue hq'⟩

/-- Where no block is left, every piece of the bitfield has been handed over. -/
theorem Lacks.whole (h : Describes t content) (hd : Lacks t content payload d pl) (hv : pl.Valid t)
    (hbl : pl.blocks t payload = []) :
    d.fileWriter.q = (piecesFrom t payload 0).map (pieceJob t content) := by
  obtain ⟨a, rfl, hnil, -⟩ := Place.pieces_eq_nil h hv hbl
  have hq := hd.queue
  rw [Place.pieces, hnil] at hq
  exact (List.append_nil _).symm.trans hq

end Downloader

end NodeLink
