import NodeLink.Download.Interleaving
import NodeLink.Download.Bitfield

/-!
# Asking for one block after another

The blocks of a torrent have an order: those of a piece by their offsets, and
the pieces by their numbers.  `Delivery.next` is the block after a block, and
`⟨n, 0⟩` stands behind the last one of `n` pieces.

A connection of a peer that has every piece is poised to ask for a block
(`Poised`): it searches for the piece, or stands inside it.  The request leaves
it poised for the next block (`Poised.request`).  The downloader is due for a
block (`Due`) if it has all blocks before it, and the block makes it due for the
next one (`Due.receive`).
-/

namespace NodeLink

open Cpp

/-! ## The order of the blocks -/

section Order

variable (t : TorrentFile)

/-- The block is one of the torrent. -/
def Delivery.InTorrent (b : Delivery) : Prop :=
  b.piece < t.pieceHashes.length ∧ b.block < blockCount (t.lengthOfPiece b.piece)

/-- The block after a block. -/
def Delivery.next (b : Delivery) : Delivery :=
  if b.block + 1 = blockCount (t.lengthOfPiece b.piece) then ⟨b.piece + 1, 0⟩
  else ⟨b.piece, b.block + 1⟩

/-- The blocks before a block, in order. -/
def blocksBefore (b : Delivery) : List Delivery :=
  (List.range b.piece).flatMap (blocksOf t) ++ (blocksOf t b.piece).take b.block

/-- All blocks of the torrent, in order. -/
def allBlocks : List Delivery := (List.range t.pieceHashes.length).flatMap (blocksOf t)

/-- The request for a block. -/
def requestOf (b : Delivery) : Buffer :=
  blockRequest (wireInt b.piece) (t.lengthOfPiece b.piece) b.block

variable {t} {b : Delivery} {k : Nat}

theorem blocksBefore_next (hb : b.InTorrent t) :
    blocksBefore t (b.next t) = blocksBefore t b ++ [b] := by
  have hlast := take_blocksOf_succ hb.2
  simp only [Delivery.next]
  split
  next hc =>
    have hall : (blocksOf t b.piece).take (b.block + 1) = blocksOf t b.piece :=
      List.take_of_length_le (by rw [blocksOf_length, hc])
    simp only [blocksBefore, List.take_zero, List.append_nil, List.range_succ, List.flatMap_append,
      List.flatMap_singleton, List.append_assoc]
    rw [← hlast, hall]
  next =>
    simp only [blocksBefore, List.append_assoc]
    rw [hlast]

@[simp] theorem blocksBefore_end : blocksBefore t ⟨t.pieceHashes.length, 0⟩ = allBlocks t := by
  simp [blocksBefore, allBlocks]

/-- The blocks before a block of the torrent are the first of all. -/
theorem blocksBefore_prefix (hb : b.piece < t.pieceHashes.length) :
    blocksBefore t b <+: allBlocks t := by
  obtain ⟨m, hm⟩ := Nat.exists_eq_add_of_lt hb
  have hsplit : allBlocks t = (List.range b.piece).flatMap (blocksOf t) ++ (blocksOf t b.piece ++
      ((List.range m).map (b.piece + 1 + ·)).flatMap (blocksOf t)) := by
    have hr : List.range t.pieceHashes.length =
        List.range b.piece ++ b.piece :: (List.range m).map (b.piece + 1 + ·) := by
      rw [hm, Nat.add_right_comm, List.range_add, List.range_succ, List.append_assoc]
      rfl
    rw [allBlocks, hr, List.flatMap_append, List.flatMap_cons]
  rw [hsplit, blocksBefore]
  exact (List.prefix_append_right_inj _).mpr ((List.take_prefix _ _).trans (List.prefix_append _ _))

/-- After a block comes another one, or the end. -/
theorem Delivery.next_cases {content : Buffer} (h : Describes t content) (hb : b.InTorrent t) :
    (b.next t).InTorrent t ∨ b.next t = ⟨t.pieceHashes.length, 0⟩ := by
  obtain ⟨hk, hc⟩ := hb
  simp only [Delivery.next]
  split
  · by_cases hlast : b.piece + 1 = t.pieceHashes.length
    · exact .inr (by rw [hlast])
    · have hk' : b.piece + 1 < t.pieceHashes.length := by omega
      exact .inl ⟨hk', h.blockCount_pos hk'⟩
  · exact .inl ⟨hk, by simp only; omega⟩

end Order

/-! ## Requests in the log -/

/-- The request an event sends, if it sends one. -/
def Event.request? : Event → Option Buffer
  | .sent b => if Message.readMessageID b = Message.request then some b else none
  | _ => none

/-- The requests of a log. -/
def requests (es : List Event) : List Buffer := es.filterMap Event.request?

theorem requests_append (es es' : List Event) : requests (es ++ es') = requests es ++ requests es' :=
  List.filterMap_append

theorem requests_concat_request (es : List Event) (i : Int32) (m k : Nat) :
    requests (es ++ [.sent (blockRequest i m k)]) = requests es ++ [blockRequest i m k] := by
  rw [requests_append]
  rfl

/-! ## The downloader -/

namespace Downloader

variable {t : TorrentFile} {content : Buffer} {d : Downloader} {b : Delivery}

/-- The downloader has the blocks before a block, and has handed over the pieces before its piece. -/
structure Due (t : TorrentFile) (content : Buffer) (d : Downloader) (b : Delivery) : Prop where
  torrent : d.torrent = t
  queue : d.fileWriter.q = (List.range b.piece).map (pieceJob t content)
  first : b.block = 0 → d.currentPieceIndex ≠ wireInt b.piece
  later : b.block ≠ 0 → Filled t content d b.piece 0 b.block

theorem due_init (t : TorrentFile) (content : Buffer) (id : Str) :
    Due t content (init t id) ⟨0, 0⟩ where
  torrent := rfl
  queue := rfl
  first := fun _ => (wireInt_ne_neg_one (by decide)).symm
  later := fun h => absurd rfl h

/-- The counter of the requests plays no part. -/
theorem Due.congr (h : Due t content d b) (i : Int32) :
    Due t content { d with nextReqIndex := i } b where
  torrent := h.torrent
  queue := h.queue
  first := h.first
  later := fun hb =>
    let hf := h.later hb
    ⟨hf.torrent, hf.current, fun hc =>
      let hg := hf.going hc
      ⟨hg.torrent, hg.start_le, hg.current, hg.received, hg.length, hg.bytes⟩⟩

/-- The state after a block that follows its predecessors from the first one. -/
theorem due_next {d' : Downloader} (hk31 : b.piece + 1 < 2 ^ 31)
    (hq : d.fileWriter.q = (List.range b.piece).map (pieceJob t content))
    (hf : Filled t content d' b.piece 0 (b.block + 1))
    (hq' : d'.fileWriter.q = queued t content d.fileWriter.q b.piece 0 (b.block + 1)) :
    Due t content d' (b.next t) := by
  simp only [Delivery.next]
  simp only [queued] at hq'
  split
  next hlast =>
    rw [if_pos ⟨rfl, hlast⟩, hq] at hq'
    refine ⟨hf.torrent, ?_, fun _ => ?_, fun h => absurd rfl h⟩
    · rw [hq', List.range_succ, List.map_append, List.map_singleton]
    · rw [hf.current]
      intro hw
      have := wireInt_inj (by omega) hk31 hw
      omega
  next hlast =>
    rw [if_neg (fun hw => hlast hw.2), hq] at hq'
    exact ⟨hf.torrent, hq', fun h => absurd h (Nat.succ_ne_zero _), fun _ => hf⟩

/-- The block the downloader is due for makes it due for the next one. -/
theorem Due.receive (h : Describes t content) (hN : t.pieceHashes.length < 2 ^ 30)
    (hb : b.InTorrent t) (hd : Due t content d b) :
    ∃ d', Downloader.receive d (deliverBlock t content b) = .ok d' ∧ Due t content d' (b.next t) := by
  obtain ⟨hk, hc⟩ := hb
  obtain ⟨k, c⟩ := b
  cases c with
  | zero =>
      obtain ⟨d', hd', hf, hq⟩ := receive_switch h hk (by omega) hc hd.torrent (hd.first rfl)
      exact ⟨d', hd', due_next (by omega) hd.queue hf hq⟩
  | succ c =>
      obtain ⟨d', hd', hf, hq⟩ := receive_next h hk (by omega) hc (hd.later (Nat.succ_ne_zero _))
      exact ⟨d', hd', due_next (by omega) hd.queue hf hq⟩

end Downloader

/-! ## The connection -/

namespace Session

variable {t : TorrentFile} {content : Buffer} {s s' : Session} {b : Delivery} {k left : Nat}

/-- The connection may ask, for any piece, and calls succeed. -/
structure Able (t : TorrentFile) (s : Session) : Prop where
  torrent : s.dl.torrent = t
  choked : s.conn.choked = false
  bits : ∀ j < t.pieceHashes.length, s.conn.peerPieces.getD j false = true
  results : s.results = []

/-- The connection has no piece, and the next candidate is piece `k`. -/
structure Searching (t : TorrentFile) (s : Session) (k : Nat) : Prop extends Able t s where
  current : s.conn.currentPiece = -1
  next : s.dl.nextReqIndex.toInt = k

/-- The connection stands at a block. -/
structure Asking (t : TorrentFile) (s : Session) (b : Delivery) : Prop extends Able t s where
  current : s.conn.currentPiece = wireInt b.piece
  offset : s.conn.blockOffset.toInt = blockBegin b.block
  next : s.dl.nextReqIndex.toInt = (b.piece + 1 : Nat)

/-- The connection is about to ask for a block. -/
def Poised (t : TorrentFile) (s : Session) (b : Delivery) : Prop :=
  if b.block = 0 then Searching t s b.piece else Asking t s b

theorem Asking.poised (h : Asking t s b) (hb : b.block ≠ 0) : Poised t s b := by
  rwa [Poised, if_neg hb]

theorem findPiece_hit (h1 : s.nextCandidate.1 ≠ -1)
    (h2 : s.nextCandidate.2.conn.hasPiece s.nextCandidate.1 = true) :
    findPiece left s = (true, s.nextCandidate.2.take s.nextCandidate.1) := by
  cases left <;> rw [findPiece, tryCandidate, if_neg h1, if_pos h2]

theorem findPiece_ended (h : s.nextCandidate.1 = -1) :
    findPiece left s = (false, s.nextCandidate.2) := by
  cases left <;> rw [findPiece, tryCandidate, if_pos h]

/-- The candidate inside the torrent. -/
theorem nextCandidate_of_inRange (h : s.dl.torrent.InRange s.dl.nextReqIndex.toInt) :
    s.nextCandidate = (s.dl.nextReqIndex,
      { s with dl := { s.dl with nextReqIndex := s.dl.nextReqIndex + 1 } }) := by
  unfold nextCandidate Downloader.getNextPieceToRequest
  dsimp only
  rw [if_pos h]

theorem nextCandidate_of_not_inRange (h : ¬ s.dl.torrent.InRange s.dl.nextReqIndex.toInt) :
    s.nextCandidate = (-1, { s with dl := { s.dl with nextReqIndex := s.dl.nextReqIndex + 1 } }) := by
  unfold nextCandidate Downloader.getNextPieceToRequest
  dsimp only
  rw [if_neg h]

/-- The request of a connection that stands at a block. -/
theorem Asking.requestBlock (h : Describes t content) (hN : t.pieceHashes.length < 2 ^ 30)
    (hb : b.InTorrent t) (hs : Asking t s b) :
    s.requestBlock = .ok (s.requested (t.lengthOfPiece b.piece) b.block) := by
  obtain ⟨hk, hc⟩ := hb
  obtain ⟨n, hn, hv⟩ := h.pieceLen hk
  have hm := h.lengthOfPiece_lt hk
  have hbegin := blockBegin_lt_iff.mpr hc
  have hlt : s.conn.blockOffset.toInt < n.toInt := by
    rw [hs.offset, hv]
    exact_mod_cast hbegin
  have hsend : s.send (s.request n) = .ok (s.sending (s.request n)) := by
    rw [send, hs.results]
    rfl
  simp only [Session.requestBlock]
  rw [hs.torrent, hs.current, toInt_wireInt (by omega), hn, Outcome.checked_ok, sendRequest,
    if_pos hlt, hsend]
  exact congrArg Outcome.ok (requested_eq hv hm hs.offset hbegin)

/-- The state after it is poised for the next block. -/
theorem Asking.requested (h : Describes t content) (hb : b.InTorrent t) (hs : Asking t s b) :
    Poised t (s.requested (t.lengthOfPiece b.piece) b.block) (b.next t) := by
  obtain ⟨hk, hc⟩ := hb
  have hm := h.lengthOfPiece_lt hk
  have hbegin := blockBegin_lt_iff.mpr hc
  have hend := blockEnd_le hbegin
  have hcase := blockEnd_eq hbegin
  have hable : Able t (s.requested (t.lengthOfPiece b.piece) b.block) :=
    ⟨hs.torrent, hs.choked, hs.bits, by rw [Session.requested, hs.results]; rfl⟩
  simp only [Delivery.next]
  by_cases hlast : b.block + 1 = blockCount (t.lengthOfPiece b.piece)
  · rw [if_pos hlast]
    exact ⟨hable, if_pos hlast, hs.next⟩
  · rw [if_neg hlast] at hcase ⊢
    refine Asking.poised ⟨hable, (if_neg hlast).trans hs.current, ?_, hs.next⟩ (Nat.succ_ne_zero _)
    change (Int32.ofNat (blockBegin b.block + _)).toInt = _
    rw [toInt_ofNat (by omega), hcase]

/-- A search finds the next piece. -/
theorem Searching.found (hN : t.pieceHashes.length < 2 ^ 30) (hk : k < t.pieceHashes.length)
    (hs : Searching t s k) :
    ∃ s1, s.requestNextBlock = s1.requestBlock ∧ Asking t s1 ⟨k, 0⟩ ∧
      s1.conn.log = s.conn.log ++ [.took (wireInt k)] := by
  have hidx : s.dl.nextReqIndex = wireInt k :=
    Int32.toInt_inj.mp (hs.next.trans (toInt_wireInt (by omega)).symm)
  have hin : s.dl.torrent.InRange s.dl.nextReqIndex.toInt := by
    rw [hs.torrent, hs.next]
    exact ⟨Int.natCast_nonneg k, by exact_mod_cast hk⟩
  have hcand := nextCandidate_of_inRange hin
  have h1 : s.nextCandidate.1 ≠ -1 := by
    rw [hcand, hidx]
    exact Downloader.wireInt_ne_neg_one (by omega)
  have h2 : s.nextCandidate.2.conn.hasPiece s.nextCandidate.1 = true := by
    rw [hcand, Connection.hasPiece_iff, hs.next, Int.toNat_natCast]
    exact ⟨Int.natCast_nonneg k, hs.bits k hk⟩
  have hnext : (s.dl.nextReqIndex + 1).toInt = (k + 1 : Nat) := by
    rw [toInt_add_one (by rw [hs.next]; omega), hs.next]
    rfl
  refine ⟨s.nextCandidate.2.take s.nextCandidate.1, ?_, ?_, ?_⟩
  · exact requestNextBlock_of_found hs.choked hs.current (findPiece_hit h1 h2)
  · rw [hcand]
    have h0 : (0 : Int32).toInt = blockBegin 0 := by
      rw [blockBegin, Nat.zero_mul]
      decide
    exact ⟨⟨hs.torrent, hs.choked, hs.bits, hs.results⟩, hidx, h0, hnext⟩
  · rw [hcand, hidx]
    rfl

/-- A search behind the last piece finds nothing and asks for nothing. -/
theorem requestNextBlock_ended (hc : s.conn.choked = false) (hp : s.conn.currentPiece = -1)
    (hn : (s.dl.torrent.pieceHashes.length : Int) ≤ s.dl.nextReqIndex.toInt) :
    s.requestNextBlock = .ok { s with
      dl := { s.dl with nextReqIndex := s.dl.nextReqIndex + 1 } } := by
  have hcand := nextCandidate_of_not_inRange (s := s) fun hin => absurd hin.2 (by omega)
  have hend : s.nextCandidate.1 = -1 := by rw [hcand]
  rw [requestNextBlock_of_not_found hc hp (findPiece_ended hend), hcand]

/-- A connection that is poised for a block asks for it, and then is poised for the next one. -/
theorem Poised.request (h : Describes t content) (hN : t.pieceHashes.length < 2 ^ 30)
    (hb : b.InTorrent t) (hs : Poised t s b) :
    ∃ s', s.requestNextBlock = .ok s' ∧ Poised t s' (b.next t) ∧
      requests s'.conn.log = requests s.conn.log ++ [requestOf t b] := by
  simp only [Poised] at hs
  have logged {s1 : Session} (ha : Asking t s1 b)
      (hl : requests s1.conn.log = requests s.conn.log) :
      requests (s1.requested (t.lengthOfPiece b.piece) b.block).conn.log =
        requests s.conn.log ++ [requestOf t b] := by
    change requests (s1.conn.log ++ [.sent _]) = _
    rw [ha.current, requests_concat_request, hl]
    rfl
  split at hs
  next hzero =>
    obtain ⟨s1, hreq, hask, hlog⟩ := hs.found hN hb.1
    have heq : (⟨b.piece, 0⟩ : Delivery) = b := by rw [← hzero]
    rw [heq] at hask
    refine ⟨_, hreq.trans (hask.requestBlock h hN hb), hask.requested h hb, logged hask ?_⟩
    rw [hlog, requests_append]
    exact List.append_nil _
  next hzero =>
    have hreq : s.requestNextBlock = s.requestBlock := by
      simp only [requestNextBlock]
      rw [hs.choked, if_neg Bool.false_ne_true, if_neg]
      rw [hs.current]
      exact Downloader.wireInt_ne_neg_one (by have := hb.1; omega)
    exact ⟨_, hreq.trans (hs.requestBlock h hN hb), hs.requested h hb, logged hs rfl⟩

end Session

end NodeLink
