import NodeLink.Download.Integrity
import NodeLink.Download.Selection

/-!
# The requests for one piece

A call that takes a piece asks for its first block, and the calls after it ask
for the others.  `PieceCalls` are the calls for one piece, with anything in
between that leaves the piece and the offset.  `RequestsTile` is what they
should do: ask for every block of the piece once, in order, and then drop it.

The length of a piece is a `long long`, and `block_offset` is an `int`.  A piece
of `2 ^ 31` bytes or more is never dropped, since no `int` reaches its length.
`requestsTile_iff` says that shorter ones are asked for as they should be.
-/

namespace NodeLink

open Cpp

/-- Index, begin and length of a request, as numbers. -/
def Request.place (r : Request) : Nat × Nat × Nat :=
  (r.index.toNat, r.begin_.toNat, r.length.toNat)

/-- The request for a block inside a piece below `2 ^ 31` bytes. -/
theorem Request.place_ofBlock {i : Int32} {m p k : Nat} (hi : i.toInt = p) (hm : m < 2 ^ 31)
    (hk : blockBegin k < m) :
    (Request.ofBlock i m k).place = (p, 16384 * k, min 16384 (m - 16384 * k)) := by
  have hbegin : (UInt32.ofNat (blockBegin k)).toNat = 16384 * k := by
    rw [UInt32.toNat_ofNat_of_lt' (Nat.lt_trans (Nat.lt_trans hk hm) (by decide))]
    exact Nat.mul_comm k 16384
  have hlen : blockLen m k = min 16384 (m - 16384 * k) := by
    rw [blockLen, Tiling.size, Nat.mul_comm k]
    rfl
  have hle := blockEnd_le hk
  have hlength : (UInt32.ofNat (blockLen m k)).toNat = min 16384 (m - 16384 * k) := by
    rw [UInt32.toNat_ofNat_of_lt' (Nat.lt_of_le_of_lt (Nat.le_of_add_left_le hle)
      (Nat.lt_trans hm (by decide))), hlen]
  simp only [Request.place, Request.ofBlock]
  rw [Session.toNat_toUInt32 hi, hbegin, hlength]

namespace Session

variable {t : TorrentFile} {s s' s1 : Session} {p n k m : Nat} {rs : List Request}

/-! ## The calls for a piece -/

/-- The call takes piece `p`. -/
structure Takes (s : Session) (p : Nat) : Prop where
  choked : s.conn.choked = false
  current : s.conn.currentPiece = -1
  found : (findPiece s.dl.torrent.pieceHashes.length s).1 = true
  piece : (findPiece s.dl.torrent.pieceHashes.length s).2.conn.currentPiece.toInt = p

/-- Between two calls, the torrent, the piece and the offset stayed. -/
structure Resumes (s s1 : Session) : Prop where
  torrent : s1.dl.torrent = s.dl.torrent
  current : s1.conn.currentPiece = s.conn.currentPiece
  offset : s1.conn.blockOffset = s.conn.blockOffset

/-- The requests a call passed to `Send`. -/
def newRequests (s s' : Session) : List Request := asked (s'.conn.log.drop s.conn.log.length)

/-- The first calls for piece `p`: their number, their requests, and the state they lead to. -/
inductive PieceCalls (t : TorrentFile) (p : Nat) : Nat → List Request → Session → Prop where
  /-- The call that takes the piece. -/
  | first {s s' : Session} : s.dl.torrent = t → s.Takes p → s.requestNextBlock = .ok s' →
      PieceCalls t p 1 (newRequests s s') s'
  /-- Another call, while the piece is the current one. -/
  | next {n : Nat} {rs : List Request} {s s1 s' : Session} : PieceCalls t p n rs s →
      Resumes s s1 → s1.conn.choked = false → s1.conn.currentPiece.toInt = p →
      s1.requestNextBlock = .ok s' → PieceCalls t p (n + 1) (rs ++ newRequests s1 s') s'

/-- What the calls for a piece should do. -/
structure RequestsTile (t : TorrentFile) (p : Nat) : Prop where
  /-- The requests are the blocks of the piece, in order. -/
  tiles : ∀ n rs s, PieceCalls t p n rs s → n ≤ blockCount (t.lengthOfPiece p) ∧
    rs.map Request.place = (List.range n).map fun k =>
      (p, 16384 * k, min 16384 (t.lengthOfPiece p - 16384 * k))
  /-- No request is empty. -/
  nonempty : ∀ n rs s, PieceCalls t p n rs s → ∀ r ∈ rs, 0 < r.length.toNat
  /-- Before the last one, the next call asks for the next one. -/
  continues : ∀ n rs s s1, PieceCalls t p n rs s → n < blockCount (t.lengthOfPiece p) →
    Resumes s s1 → s1.conn.choked = false → s1.results.headD true = true →
    s1.conn.currentPiece.toInt = p ∧ ∃ s', s1.requestNextBlock = .ok s'
  /-- After the last one, the requests cover the piece, and it is dropped. -/
  resets : ∀ rs s, PieceCalls t p (blockCount (t.lengthOfPiece p)) rs s →
    (rs.map (·.length.toNat)).sum = t.lengthOfPiece p ∧ s.conn.currentPiece = -1

/-! ## A call is a request for the current piece -/

/-- A search that finds a piece leaves it at its start. -/
theorem search_offset (h : Search s true s') :
    s'.conn.blockOffset = 0 ∧ s.dl.torrent.InRange s'.conn.currentPiece.toInt := by
  generalize hf : true = found at h
  induction h with
  | ended _ => cases hf
  | hit hne _ => exact ⟨rfl, nextCandidate_inRange hne⟩
  | gaveUp _ _ => cases hf
  | @miss s _ _ _ _ _ ih =>
      obtain ⟨ho, hin⟩ := ih hf
      refine ⟨ho, ?_⟩
      rwa [skip_dl, (nextCandidate_frame s).torrent] at hin

theorem asked_drawn {es : List Event} (h : ∀ e ∈ es, e.Drawn) : asked es = [] := by
  refine List.filterMap_eq_nil_iff.mpr fun e he => ?_
  have hd := h e he
  cases e with
  | took _ => rfl
  | skipped _ => rfl
  | sent _ => exact hd.elim
  | handshake _ => exact hd.elim
  | keepAlive => exact hd.elim
  | frame _ _ => exact hd.elim

/-- The call that takes a piece asks from the start of the piece. -/
theorem Takes.request (h : s.Takes p) :
    ∃ s1 : Session, s.requestNextBlock = s1.requestBlock ∧ s1.dl.torrent = s.dl.torrent ∧
      s1.conn.currentPiece.toInt = p ∧ s1.conn.blockOffset = 0 ∧
      p < s.dl.torrent.pieceHashes.length ∧
      ∃ es, s1.conn.log = s.conn.log ++ es ∧ asked es = [] := by
  have hs := findPiece_search s.dl.torrent.pieceHashes.length s
  rw [h.found] at hs
  obtain ⟨ho, hin⟩ := search_offset hs
  obtain ⟨es, hl, hd⟩ := search_drawn hs
  have hlt : p < s.dl.torrent.pieceHashes.length := by
    rw [h.piece] at hin
    exact_mod_cast hin.2
  exact ⟨_, requestNextBlock_of_found h.choked h.current (Prod.ext h.found rfl),
    (search_frame hs).torrent, h.piece, ho, hlt, es, hl, asked_drawn hd⟩

/-- A later call asks for the next block. -/
theorem requestNextBlock_current (hc : s.conn.choked = false) (hp : s.conn.currentPiece.toInt = p) :
    s.requestNextBlock = s.requestBlock := by
  rw [requestNextBlock, hc, if_neg Bool.false_ne_true, if_neg (ne_neg_one hp)]

/-- The piece of a run is one of the torrent. -/
theorem PieceCalls.lt_length (h : PieceCalls t p n rs s) : p < t.pieceHashes.length := by
  induction h with
  | first ht htake _ =>
      obtain ⟨-, -, -, -, -, hlt, -⟩ := htake.request
      rwa [ht] at hlt
  | next _ _ _ _ _ ih => exact ih

/-- A torrent with a piece, and with as many digests as its length is cut into pieces. -/
theorem consistent_of_count (hpl : 0 < t.pieceLength.toInt)
    (hN : (t.pieceHashes.length : Int) =
      (t.length.toInt + t.pieceLength.toInt - 1) / t.pieceLength.toInt)
    (hp : p < t.pieceHashes.length) : t.Consistent := by
  have hlen : 0 < t.length.toInt := by
    have h1 : 1 ≤ (t.length.toInt + t.pieceLength.toInt - 1) / t.pieceLength.toInt := by omega
    have h2 := (Int.le_ediv_iff_mul_le hpl).mp h1
    omega
  refine ⟨hpl, hlen.le, ?_⟩
  have hunit : (t.pieceUnit : Int) = t.pieceLength.toInt := Int.toNat_of_nonneg hpl.le
  have hsize : (t.size : Int) = t.length.toInt := Int.toNat_of_nonneg hlen.le
  have hsum : ((t.size + t.pieceUnit - 1 : Nat) : Int) =
      t.length.toInt + t.pieceLength.toInt - 1 := by omega
  apply Int.ofNat_inj.mp
  rw [Tiling.count, Int.natCast_ediv, hsum, hunit, hN]

/-! ## A piece below `2 ^ 31` bytes -/

/-- What holds after the first `n` calls. -/
structure Tiled (t : TorrentFile) (p n : Nat) (rs : List Request) (s : Session) : Prop where
  torrent : s.dl.torrent = t
  le : n ≤ blockCount (t.lengthOfPiece p)
  places : rs.map Request.place = (List.range n).map fun k =>
    (p, 16384 * k, min 16384 (t.lengthOfPiece p - 16384 * k))
  current : n < blockCount (t.lengthOfPiece p) → s.conn.currentPiece.toInt = p
  offset : n < blockCount (t.lengthOfPiece p) → s.conn.blockOffset.toInt = blockBegin n
  done : n = blockCount (t.lengthOfPiece p) → s.conn.currentPiece = -1

/-- A call that asks at block `k` asks for that block. -/
theorem Tiled.request (hc : t.Consistent) (hp : p < t.pieceHashes.length)
    (hm : t.lengthOfPiece p < 2 ^ 31) {s0 : Session} {es : List Event}
    (hrs : rs.map Request.place = (List.range k).map fun k =>
      (p, 16384 * k, min 16384 (t.lengthOfPiece p - 16384 * k)))
    (ht : s.dl.torrent = t) (hcur : s.conn.currentPiece.toInt = p)
    (hoff : s.conn.blockOffset.toInt = blockBegin k) (hk : k < blockCount (t.lengthOfPiece p))
    (hl : s.conn.log = s0.conn.log ++ es) (hes : asked es = []) (h : s.requestBlock = .ok s') :
    Tiled t p (k + 1) (rs ++ newRequests s0 s') s' := by
  subst ht
  have hbegin := blockBegin_lt_iff.mpr hk
  have hend := blockEnd_eq hbegin
  have hle := blockEnd_le hbegin
  obtain ⟨hok, hthrow⟩ := requestBlock_at hc hp hm hcur hoff hbegin
  have hs' : s' = s.requested (s.dl.torrent.lengthOfPiece p) k := by
    cases hr : s.results.headD true with
    | true =>
        rw [hok hr] at h
        exact (Outcome.ok.inj h).symm
    | false =>
        rw [hthrow hr] at h
        cases h
  subst hs'
  have hnew : newRequests s0 (s.requested (s.dl.torrent.lengthOfPiece p) k) =
      [Request.ofBlock s.conn.currentPiece (s.dl.torrent.lengthOfPiece p) k] := by
    have hlog : (s.requested (s.dl.torrent.lengthOfPiece p) k).conn.log = s0.conn.log ++
        (es ++ [.sent (Request.ofBlock s.conn.currentPiece (s.dl.torrent.lengthOfPiece p) k).message]) := by
      change s.conn.log ++ [_] = _
      rw [hl, List.append_assoc]
      rfl
    rw [newRequests, hlog, List.drop_left, asked_concat_sent, hes]
    rfl
  refine ⟨rfl, hk, ?_, fun hlt => ?_, fun hlt => ?_, fun heq => if_pos heq⟩
  · rw [hnew, List.map_append, hrs, List.range_succ, List.map_append, List.map_singleton,
      List.map_singleton, Request.place_ofBlock hcur hm hbegin]
  · have hne : k + 1 ≠ blockCount (s.dl.torrent.lengthOfPiece p) := by omega
    exact (congrArg Int32.toInt (if_neg hne)).trans hcur
  · rw [if_neg (by omega)] at hend
    change (Int32.ofNat (blockBegin k + blockLen _ k)).toInt = _
    rw [hend, toInt_ofNat (by omega)]

/-- The first calls ask for the first blocks. -/
theorem PieceCalls.tiled (hc : t.Consistent) (hm : t.lengthOfPiece p < 2 ^ 31)
    (h : PieceCalls t p n rs s) : Tiled t p n rs s := by
  have hp := h.lt_length
  have hpos : 0 < blockCount (t.lengthOfPiece p) := by
    rw [← blockBegin_lt_iff, hc.lengthOfPiece_eq hp, blockBegin, Nat.zero_mul]
    exact Tiling.size_pos hc.pieceUnit_pos (hc.count_eq ▸ hp)
  induction h with
  | first ht htake hreq =>
      obtain ⟨s1, heq, ht1, hcur, hoff, -, es, hl, hes⟩ := htake.request
      have hzero : s1.conn.blockOffset.toInt = blockBegin 0 := by
        rw [hoff, blockBegin, Nat.zero_mul]
        rfl
      have hnone : ([] : List Request).map Request.place = (List.range 0).map fun k =>
        (p, 16384 * k, min 16384 (t.lengthOfPiece p - 16384 * k)) := rfl
      exact Tiled.request hc hp hm hnone (ht1.trans ht) hcur hzero hpos hl hes (heq ▸ hreq)
  | @next n rs s s1 s' _ hres hch hcur hreq ih =>
      have hlt : n < blockCount (t.lengthOfPiece p) := by
        refine lt_of_le_of_ne ih.le fun heq => ?_
        have hdone : s1.conn.currentPiece = -1 := hres.current.trans (ih.done heq)
        exact ne_neg_one hcur hdone
      have hoff : s1.conn.blockOffset.toInt = blockBegin n := by
        rw [hres.offset]
        exact ih.offset hlt
      rw [requestNextBlock_current hch hcur] at hreq
      exact Tiled.request hc hp hm ih.places (hres.torrent.trans ih.torrent) hcur hoff hlt
        (List.append_nil _).symm rfl hreq

/-- No block of the piece is empty. -/
theorem Tiled.length_pos (h : Tiled t p n rs s) : ∀ r ∈ rs, 0 < r.length.toNat := by
  intro r hr
  have hmem : r.place ∈ rs.map Request.place := List.mem_map_of_mem hr
  rw [h.places] at hmem
  obtain ⟨k, hk, hplace⟩ := List.mem_map.mp hmem
  have hlen : min 16384 (t.lengthOfPiece p - 16384 * k) = r.length.toNat :=
    congrArg (fun x => x.2.2) hplace
  have hk := List.mem_range.mp hk
  have hlt := blockBegin_lt_iff.mpr (hk.trans_le h.le)
  rw [blockBegin, blockUnit] at hlt
  omega

/-- All blocks together are the piece. -/
theorem Tiled.sum_eq (h : Tiled t p (blockCount (t.lengthOfPiece p)) rs s) :
    (rs.map (·.length.toNat)).sum = t.lengthOfPiece p := by
  have hlen : rs.map (·.length.toNat) = (List.range (blockCount (t.lengthOfPiece p))).map
      (Tiling.size (t.lengthOfPiece p) blockUnit) := by
    have hthird := congrArg (List.map fun x => x.2.2) h.places
    rw [List.map_map, List.map_map] at hthird
    refine hthird.trans (List.map_congr_left fun k _ => ?_)
    change min 16384 (t.lengthOfPiece p - 16384 * k) = min blockUnit (t.lengthOfPiece p - k * blockUnit)
    rw [blockUnit, Nat.mul_comm k]
  rw [hlen]
  exact Tiling.sum_size blockUnit_pos

/-- The next call goes through if its `Send` does. -/
theorem Tiled.continues (hc : t.Consistent) (hp : p < t.pieceHashes.length)
    (hm : t.lengthOfPiece p < 2 ^ 31) (h : Tiled t p n rs s)
    (hlt : n < blockCount (t.lengthOfPiece p)) (hres : Resumes s s1)
    (hch : s1.conn.choked = false) (hr : s1.results.headD true = true) :
    s1.conn.currentPiece.toInt = p ∧ ∃ s', s1.requestNextBlock = .ok s' := by
  have hcur : s1.conn.currentPiece.toInt = p := by rw [hres.current, h.current hlt]
  have hoff : s1.conn.blockOffset.toInt = blockBegin n := by rw [hres.offset, h.offset hlt]
  have ht : s1.dl.torrent = t := hres.torrent.trans h.torrent
  subst ht
  rw [requestNextBlock_current hch hcur]
  exact ⟨hcur, _, (requestBlock_at hc hp hm hcur hoff (blockBegin_lt_iff.mpr hlt)).1 hr⟩

theorem requestsTile_of_lt (hc : t.Consistent) (hm : t.lengthOfPiece p < 2 ^ 31) :
    RequestsTile t p where
  tiles _ _ _ h := ⟨(h.tiled hc hm).le, (h.tiled hc hm).places⟩
  nonempty _ _ _ h := (h.tiled hc hm).length_pos
  continues _ _ _ _ h := (h.tiled hc hm).continues hc h.lt_length hm
  resets _ _ h := ⟨(h.tiled hc hm).sum_eq, (h.tiled hc hm).done rfl⟩

/-! ## A piece of `2 ^ 31` bytes or more -/

/-- A call for a long piece that returns does not drop the piece. -/
theorem requestBlock_long (hc : s.dl.torrent.Consistent)
    (hp : p < s.dl.torrent.pieceHashes.length) (hm : 2 ^ 31 ≤ s.dl.torrent.lengthOfPiece p)
    (hcur : s.conn.currentPiece.toInt = p) (h : s.requestBlock = .ok s') :
    s'.dl.torrent = s.dl.torrent ∧ s'.conn.choked = s.conn.choked ∧
      s'.conn.currentPiece.toInt = p := by
  have hf := requestBlock_frame (congrArg Outcome.state? h)
  refine ⟨hf.torrent, hf.choked, ?_⟩
  obtain ⟨n, hn, hv⟩ := hc.pieceLen_eq hp
  rw [← hc.lengthOfPiece_eq hp] at hv
  -- no offset reaches the length
  have hkeep (s1 : Session) : s1.finishPiece n = s1 := by
    have hlt := s1.conn.blockOffset.toInt_lt
    rw [finishPiece, if_neg (by omega)]
  obtain ⟨n', hn', hcases⟩ := requestBlock_cases (congrArg Outcome.state? h)
  rw [hcur, hn] at hn'
  cases hn'
  rcases hcases with ⟨-, -, rfl⟩ | ⟨-, -, rfl⟩ | ⟨-, e, he, -⟩
  · rw [hkeep]
    exact hcur
  · rw [hkeep]
    exact hcur
  · rw [h] at he
    cases he

/-- A call for a long piece whose `Send` succeeds returns. -/
theorem requestBlock_long_ok (hc : s.dl.torrent.Consistent)
    (hp : p < s.dl.torrent.pieceHashes.length) (hcur : s.conn.currentPiece.toInt = p)
    (hr : s.results = []) : ∃ s', s.requestBlock = .ok s' := by
  obtain ⟨n, hn, -⟩ := hc.pieceLen_eq hp
  simp only [requestBlock]
  rw [hcur, hn, Outcome.checked_ok, sendRequest]
  split
  · rw [send, hr]
    exact ⟨_, rfl⟩
  · exact ⟨_, rfl⟩

/-- The calls for a long piece leave it the current one. -/
theorem PieceCalls.current_of_long (hc : t.Consistent) (hm : 2 ^ 31 ≤ t.lengthOfPiece p)
    (h : PieceCalls t p n rs s) :
    s.dl.torrent = t ∧ s.conn.choked = false ∧ s.conn.currentPiece.toInt = p := by
  have hp := h.lt_length
  induction h with
  | first ht htake hreq =>
      have hf := requestNextBlock_frame (congrArg Outcome.state? hreq)
      obtain ⟨s1, heq, ht1, hcur, -⟩ := htake.request
      have ht1 := ht1.trans ht
      subst ht1
      exact ⟨hf.torrent.trans ht, hf.choked.trans htake.choked,
        (requestBlock_long hc hp hm hcur (heq ▸ hreq)).2.2⟩
  | next _ hres hch hcur hreq ih =>
      have ht1 := hres.torrent.trans ih.1
      subst ht1
      rw [requestNextBlock_current hch hcur] at hreq
      obtain ⟨ht, hch', hcur'⟩ := requestBlock_long hc hp hm hcur hreq
      exact ⟨ht, hch'.trans hch, hcur'⟩

/-- The calls for a long piece go on for ever. -/
theorem PieceCalls.extend (hc : t.Consistent) (hm : 2 ^ 31 ≤ t.lengthOfPiece p)
    (h : PieceCalls t p n rs s) (m : Nat) : ∃ rs' s', PieceCalls t p (n + m) rs' s' := by
  induction m with
  | zero => exact ⟨rs, s, h⟩
  | succ m ih =>
      obtain ⟨rs1, s1, h1⟩ := ih
      obtain ⟨ht, hch, hcur⟩ := h1.current_of_long hc hm
      have hp := h1.lt_length
      subst ht
      -- the state, with calls that succeed
      have hcur' : ({ s1 with results := [] } : Session).conn.currentPiece.toInt = p := hcur
      obtain ⟨s', hs'⟩ := requestBlock_long_ok (s := { s1 with results := [] }) hc hp hcur' rfl
      have heq := requestNextBlock_current (s := { s1 with results := [] }) hch hcur'
      have hres : Resumes s1 { s1 with results := [] } := ⟨rfl, rfl, rfl⟩
      exact ⟨_, s', h1.next hres hch hcur' (heq.trans hs')⟩

/-- A long piece is not dropped after its last block. -/
theorem not_requestsTile_of_le (hc : t.Consistent) (hm : 2 ^ 31 ≤ t.lengthOfPiece p)
    (h : PieceCalls t p n rs s) : ¬RequestsTile t p := by
  intro htile
  obtain ⟨m, hm'⟩ := Nat.exists_eq_add_of_le (htile.tiles n rs s h).1
  obtain ⟨rs', s', h'⟩ := h.extend hc hm m
  rw [← hm'] at h'
  obtain ⟨-, -, hcur⟩ := h'.current_of_long hc hm
  exact ne_neg_one hcur (htile.resets rs' s' h').2

/-- The requests for a piece a connection has taken are its blocks exactly if the piece is shorter
than `2 ^ 31` bytes. -/
theorem requestsTile_iff (hpl : 0 < t.pieceLength.toInt)
    (hN : (t.pieceHashes.length : Int) =
      (t.length.toInt + t.pieceLength.toInt - 1) / t.pieceLength.toInt)
    (htook : ∃ n rs s, PieceCalls t p n rs s) : RequestsTile t p ↔ t.lengthOfPiece p < 2 ^ 31 := by
  obtain ⟨n, rs, s, h⟩ := htook
  have hc := consistent_of_count hpl hN h.lt_length
  refine ⟨fun htile => ?_, requestsTile_of_lt hc⟩
  by_contra hm
  exact not_requestsTile_of_le hc (Nat.le_of_not_lt hm) h htile

/-! ### Torrents of one piece -/

/-- An unchoked connection to a peer that has the first piece. -/
def wanting (t : TorrentFile) : Session where
  conn := { Connection.init with choked := false, peerPieces := [true] }
  dl := Downloader.init t []
  results := []

/-- A torrent of one piece of two blocks, the second of one byte. -/
def torrentOfTwoBlocks : TorrentFile where
  announce := bytes "abc"
  name := bytes "a"
  length := 16385
  pieceLength := 16385
  pieceHashes := [Downloader.digestOfA]
  infoHash := []

/-- The two calls for its piece, and the law. -/
theorem requestsTile_iff_twoBlocks :
    (∃ rs s, PieceCalls torrentOfTwoBlocks 0 2 rs s ∧
      rs.map Request.place = [(0, 0, 16384), (0, 16384, 1)] ∧ s.conn.currentPiece = -1) ∧
    (RequestsTile torrentOfTwoBlocks 0 ↔ torrentOfTwoBlocks.lengthOfPiece 0 < 2 ^ 31) := by
  have hcalls : ∃ rs s, PieceCalls torrentOfTwoBlocks 0 2 rs s ∧
      rs.map Request.place = [(0, 0, 16384), (0, 16384, 1)] ∧ s.conn.currentPiece = -1 := by
    have hfirst := PieceCalls.first (t := torrentOfTwoBlocks) (s := wanting torrentOfTwoBlocks)
      (p := 0) rfl ⟨rfl, rfl, rfl, rfl⟩ rfl
    exact ⟨_, _, .next hfirst ⟨rfl, rfl, rfl⟩ rfl rfl rfl, by decide, rfl⟩
  refine ⟨hcalls, ?_⟩
  obtain ⟨rs, s, h, -⟩ := hcalls
  exact requestsTile_iff (by decide) (by decide) ⟨2, rs, s, h⟩

/-- The bytes of a torrent file with one piece of `2 ^ 31` bytes. -/
def fileOfLongPiece : Buffer :=
  bytes "d8:announce3:abc4:infod6:lengthi2147483648e4:name1:a12:piece lengthi2147483648e6:pieces20:" ++
    Downloader.digestOfA ++ bytes "ee"

/-- The record `load` makes of it. -/
def torrentOfLongPiece : TorrentFile where
  announce := bytes "abc"
  name := bytes "a"
  length := 2147483648
  pieceLength := 2147483648
  pieceHashes := [Downloader.digestOfA]
  infoHash :=
    [0x16, 0xf3, 0xd2, 0xd6, 0xd6, 0x04, 0x11, 0xca, 0xfc, 0xd9,
     0x6d, 0xb5, 0x55, 0xdd, 0x0e, 0xad, 0xe5, 0x95, 0xa8, 0x0f]

/-- The piece of that file is taken, and is not asked for as it should be. -/
theorem not_requestsTile_longPiece :
    TorrentFile.load Downloader.openssl "a.torrent" (some fileOfLongPiece) = .ok torrentOfLongPiece ∧
    0 < torrentOfLongPiece.pieceLength.toInt ∧
    (torrentOfLongPiece.pieceHashes.length : Int) =
      (torrentOfLongPiece.length.toInt + torrentOfLongPiece.pieceLength.toInt - 1) /
        torrentOfLongPiece.pieceLength.toInt ∧
    (∃ rs s, PieceCalls torrentOfLongPiece 0 1 rs s) ∧ ¬RequestsTile torrentOfLongPiece 0 := by
  have hcalls : ∃ rs s, PieceCalls torrentOfLongPiece 0 1 rs s :=
    ⟨_, _, .first (s := wanting torrentOfLongPiece) rfl ⟨rfl, rfl, rfl, rfl⟩ rfl⟩
  refine ⟨by decide +kernel, by decide, by decide, hcalls, ?_⟩
  obtain ⟨rs, s, h⟩ := hcalls
  exact not_requestsTile_of_le ⟨by decide, by decide, by decide⟩ (by decide) h

end Session

end NodeLink
