import Mathlib.Order.Bounds.Defs
import NodeLink.Download.Dialogue
import NodeLink.Download.Farm

/-!
# Which piece a connection takes

`RequestNextBlock` draws candidates from the downloader until the peer has one.
It gives up after more misses than there are pieces.  Every miss moves the
counter by one, and behind the last piece there is no candidate: from a counter
that is not negative, the search ends before it would give up
(`search_spec`).  What it finds is the first piece from the counter on that the
peer has.

`findPieceThen` is the loop with another way to give up.  That the search ends
the same for all of them says that it never does.
-/

namespace NodeLink

open Cpp

namespace Session

variable {s s1 s2 : Session} {a b j left : Nat}

/-- The loop that looks for a piece, and what it does when it gives up. -/
def findPieceThen (giveUp : Session → Bool × Session) : Nat → Session → Bool × Session
  | 0 => tryCandidate giveUp
  | left + 1 => tryCandidate (findPieceThen giveUp left)

theorem findPieceThen_return (left : Nat) : findPieceThen (fun s => (false, s)) left = findPiece left := by
  induction left with
  | zero => rfl
  | succ left ih => exact congrArg tryCandidate ih

/-- Piece `j` is not behind the counter, and the peer has it. -/
def Offered (s : Session) (j : Nat) : Prop :=
  s.dl.nextReqIndex.toInt ≤ j ∧ j < s.dl.torrent.pieceHashes.length ∧
    s.conn.hasPiece (Int32.ofNat j) = true

theorem not_offered_of_le (ha : s.dl.nextReqIndex.toInt = a)
    (hend : s.dl.torrent.pieceHashes.length ≤ a) (j : Nat) : ¬ s.Offered j := by
  rintro ⟨hle, hlt, -⟩
  omega

/-! ## The search -/

/-- What a search leaves as it was, while the counter moves to `a`. -/
structure Passed (s s1 : Session) (a : Nat) : Prop where
  torrent : s1.dl.torrent = s.dl.torrent
  peerPieces : s1.conn.peerPieces = s.conn.peerPieces
  current : s1.conn.currentPiece = s.conn.currentPiece
  results : s1.results = s.results
  sent : sentBuffers s1.conn.log = sentBuffers s.conn.log
  next : s1.dl.nextReqIndex.toInt = a

theorem Passed.trans (h : Passed s s1 a) (h' : Passed s1 s2 b) : Passed s s2 b where
  torrent := h'.torrent.trans h.torrent
  peerPieces := h'.peerPieces.trans h.peerPieces
  current := h'.current.trans h.current
  results := h'.results.trans h.results
  sent := h'.sent.trans h.sent
  next := h'.next

theorem Passed.skip (h : Passed s s1 a) (i : Int32) : Passed s (s1.skip i) a where
  torrent := h.torrent
  peerPieces := h.peerPieces
  current := h.current
  results := h.results
  sent := by
    rw [skip_conn, Connection.logged_log, sentBuffers_append]
    exact (List.append_nil _).trans h.sent
  next := h.next

/-- The counter before a candidate is the candidate. -/
theorem nextReqIndex_eq (ha : s.dl.nextReqIndex.toInt = a) (h30 : a < 2 ^ 30) :
    s.dl.nextReqIndex = Int32.ofNat a :=
  Int32.toInt_inj.mp (ha.trans (toInt_ofNat (by omega)).symm)

/-- The counter moves by one, also behind the last piece. -/
theorem passed_nextCandidate (ha : s.dl.nextReqIndex.toInt = a) (h30 : a < 2 ^ 30) :
    Passed s s.nextCandidate.2 (a + 1) := by
  have hnext : (s.dl.nextReqIndex + 1).toInt = (a + 1 : Nat) := by
    rw [toInt_add_one (by omega), ha]
    rfl
  by_cases hin : s.dl.torrent.InRange s.dl.nextReqIndex.toInt
  · rw [nextCandidate_of_inRange hin]
    exact ⟨rfl, rfl, rfl, rfl, rfl, hnext⟩
  · rw [nextCandidate_of_not_inRange hin]
    exact ⟨rfl, rfl, rfl, rfl, rfl, hnext⟩

/-- One round: there is no candidate, the peer has the candidate, or the counter is past it. -/
theorem tryCandidate_cases (ha : s.dl.nextReqIndex.toInt = a) (h30 : a < 2 ^ 30) :
    (s.dl.torrent.pieceHashes.length ≤ a ∧ ∃ s1, Passed s s1 (a + 1) ∧
      ∀ miss, tryCandidate miss s = (false, s1)) ∨
    (s.Offered a ∧ ∃ s1, Passed s s1 (a + 1) ∧
      ∀ miss, tryCandidate miss s = (true, s1.take (Int32.ofNat a))) ∨
    (a < s.dl.torrent.pieceHashes.length ∧ ¬ s.Offered a ∧ ∃ s1, Passed s s1 (a + 1) ∧
      ∀ miss, tryCandidate miss s = miss s1) := by
  have hp := passed_nextCandidate ha h30
  by_cases hN : a < s.dl.torrent.pieceHashes.length
  · have hin : s.dl.torrent.InRange s.dl.nextReqIndex.toInt := by
      rw [ha]
      exact ⟨Int.natCast_nonneg a, by exact_mod_cast hN⟩
    have hcand : s.nextCandidate.1 = Int32.ofNat a := by
      rw [nextCandidate_of_inRange hin]
      exact nextReqIndex_eq ha h30
    have hne : s.nextCandidate.1 ≠ -1 := by
      rw [hcand]
      exact ne_neg_one (toInt_ofNat (by omega))
    have hconn : s.nextCandidate.2.conn = s.conn := rfl
    refine .inr ?_
    cases hbit : s.conn.hasPiece (Int32.ofNat a) with
    | true =>
        refine .inl ⟨⟨ha.le, hN, hbit⟩, _, hp, fun miss => ?_⟩
        rw [tryCandidate, if_neg hne, hconn, hcand, if_pos hbit]
    | false =>
        have hno : ¬ s.Offered a := fun h => absurd (hbit.symm.trans h.2.2) Bool.false_ne_true
        refine .inr ⟨hN, hno, _, hp.skip (Int32.ofNat a), fun miss => ?_⟩
        rw [tryCandidate, if_neg hne, hconn, hcand, hbit, if_neg Bool.false_ne_true]
  · have hin : ¬ s.dl.torrent.InRange s.dl.nextReqIndex.toInt := fun h =>
      hN (by exact_mod_cast ha ▸ h.2)
    have hend : s.nextCandidate.1 = -1 := by rw [nextCandidate_of_not_inRange hin]
    exact .inl ⟨by omega, _, hp, fun miss => by rw [tryCandidate, if_pos hend]⟩

/-- Past a piece, the rest is offered as before. -/
theorem offered_passed (ha : s.dl.nextReqIndex.toInt = a) (h : Passed s s1 (a + 1)) :
    s1.Offered j ↔ s.Offered j ∧ j ≠ a := by
  have hbit : s1.conn.hasPiece (Int32.ofNat j) = s.conn.hasPiece (Int32.ofNat j) := by
    simp only [Connection.hasPiece, h.peerPieces]
  simp only [Offered, h.torrent, h.next, hbit, ha]
  constructor
  · rintro ⟨hle, hlt, hb⟩
    exact ⟨⟨by omega, hlt, hb⟩, by omega⟩
  · rintro ⟨⟨hle, hlt, hb⟩, hne⟩
    exact ⟨by omega, hlt, hb⟩

/-- The search.  The induction is on the attempts that are left: they reach the last piece. -/
theorem search_spec (ha : s.dl.nextReqIndex.toInt = a) (h30 : a < 2 ^ 30)
    (hN : s.dl.torrent.pieceHashes.length < 2 ^ 30)
    (hleft : s.dl.torrent.pieceHashes.length ≤ a + left) :
    (∃ j s1, IsLeast {i | s.Offered i} j ∧ Passed s s1 (j + 1) ∧
      ∀ giveUp, findPieceThen giveUp left s = (true, s1.take (Int32.ofNat j))) ∨
    ((∀ j, ¬ s.Offered j) ∧ ∃ s1, Passed s s1 (max a s.dl.torrent.pieceHashes.length + 1) ∧
      ∀ giveUp, findPieceThen giveUp left s = (false, s1)) := by
  induction left generalizing s a with
  | zero =>
      rcases tryCandidate_cases ha h30 with
          ⟨hend, s1, hp, htry⟩ | ⟨hoff, -⟩ | ⟨hlt, -⟩
      · exact .inr ⟨not_offered_of_le ha hend, s1, by rwa [max_eq_left hend], htry⟩
      · exact absurd hoff.2.1 (by omega)
      · exact absurd hlt (by omega)
  | succ left ih =>
      rcases tryCandidate_cases ha h30 with
          ⟨hend, s1, hp, htry⟩ | ⟨hoff, s1, hp, htry⟩ | ⟨hlt, hno, s1, hp, htry⟩
      · exact .inr ⟨not_offered_of_le ha hend, s1, by rwa [max_eq_left hend], fun giveUp => htry _⟩
      · have hleast : IsLeast {i | s.Offered i} a :=
          ⟨hoff, fun i hi => by exact_mod_cast ha ▸ hi.1⟩
        exact .inl ⟨a, s1, hleast, hp, fun giveUp => htry _⟩
      · have hrest := ih hp.next (by omega) (by rw [hp.torrent]; exact hN)
          (by rw [hp.torrent]; omega)
        rcases hrest with ⟨j, s2, ⟨hj, hmin⟩, hp2, hfind⟩ | ⟨hnone, s2, hp2, hfind⟩
        · obtain ⟨hoff, -⟩ := (offered_passed ha hp).mp hj
          have hleast : IsLeast {i | s.Offered i} j := by
            refine ⟨hoff, fun i hi => hmin ((offered_passed ha hp).mpr ⟨hi, ?_⟩)⟩
            rintro rfl
            exact hno hi
          exact .inl ⟨j, s2, hleast, hp.trans hp2, fun giveUp => (htry _).trans (hfind giveUp)⟩
        · have hmax : max (a + 1) s1.dl.torrent.pieceHashes.length =
              max a s.dl.torrent.pieceHashes.length := by
            rw [hp.torrent, max_eq_right (by omega), max_eq_right (by omega)]
          rw [hmax] at hp2
          refine .inr ⟨fun j hj => ?_, s2, hp.trans hp2, fun giveUp => (htry _).trans (hfind giveUp)⟩
          refine hnone j ((offered_passed ha hp).mpr ⟨hj, ?_⟩)
          rintro rfl
          exact hno hj

/-! ## The request -/

/-- The request for block `k` of the current piece, and whether `Send` succeeds. -/
theorem requestBlock_at {p k : Nat} (hc : s.dl.torrent.Consistent)
    (hp : p < s.dl.torrent.pieceHashes.length) (h31 : s.dl.torrent.lengthOfPiece p < 2 ^ 31)
    (hcur : s.conn.currentPiece.toInt = p) (hoff : s.conn.blockOffset.toInt = blockBegin k)
    (hk : blockBegin k < s.dl.torrent.lengthOfPiece p) :
    (s.results.headD true = true →
      s.requestBlock = .ok (s.requested (s.dl.torrent.lengthOfPiece p) k)) ∧
    (s.results.headD true = false →
      s.requestBlock = .throw (.runtimeError "TCP Send failed")
        (s.sending (blockRequest s.conn.currentPiece (s.dl.torrent.lengthOfPiece p) k))) := by
  obtain ⟨n, hn, hv⟩ := hc.pieceLen_eq hp
  rw [← hc.lengthOfPiece_eq hp] at hv
  have hlt : s.conn.blockOffset.toInt < n.toInt := by
    rw [hoff, hv]
    exact_mod_cast hk
  simp only [requestBlock]
  rw [hcur, hn, Outcome.checked_ok, sendRequest, if_pos hlt, send]
  constructor
  · intro hs
    rw [if_pos hs]
    exact congrArg Outcome.ok (requested_eq hv h31 hoff hk)
  · intro hs
    rw [hs, if_neg Bool.false_ne_true, request_eq hv h31 hoff hk]
    rfl

/-- A piece of a torrent with short pieces is short, and not empty. -/
theorem lengthOfPiece_bounds {t : TorrentFile} (hc : t.Consistent)
    (h31 : t.pieceLength.toInt < 2 ^ 31) (hj : j < t.pieceHashes.length) :
    0 < t.lengthOfPiece j ∧ t.lengthOfPiece j < 2 ^ 31 := by
  have hunit := hc.pieceUnit_eq
  have hle : Tiling.size t.size t.pieceUnit j ≤ t.pieceUnit := Tiling.size_le
  rw [hc.lengthOfPiece_eq hj]
  exact ⟨Tiling.size_pos hc.pieceUnit_pos (hc.count_eq ▸ hj), by omega⟩

/-- The message that asks for the first block of a piece. -/
theorem blockRequest_zero {i : Int32} (hi : i.toInt = j) (m : Nat) :
    blockRequest i m 0 = Message.buildRequest (UInt32.ofNat j) 0 (UInt32.ofNat (min 16384 m)) := by
  have hbegin : blockBegin 0 = 0 := Nat.zero_mul _
  have hlen : blockLen m 0 = min 16384 m := by
    rw [blockLen, Tiling.size, Nat.zero_mul, Nat.sub_zero]
    rfl
  rw [blockRequest, toUInt32_eq hi, hbegin, hlen]
  rfl

/-- A connection that has found a piece asks for its first block. -/
theorem requestBlock_taken (hc : s.dl.torrent.Consistent)
    (h31 : s.dl.torrent.pieceLength.toInt < 2 ^ 31) (h30 : s.dl.torrent.pieceHashes.length < 2 ^ 30)
    (hj : j < s.dl.torrent.pieceHashes.length) :
    ∃ s', (s.take (Int32.ofNat j)).requestBlock.state? = some s' ∧
      (s.results.headD true = true → (s.take (Int32.ofNat j)).requestBlock = .ok s') ∧
      sentBuffers s'.conn.log = sentBuffers s.conn.log ++ [Message.buildRequest (UInt32.ofNat j) 0
        (UInt32.ofNat (min 16384 (s.dl.torrent.lengthOfPiece j)))] ∧
      s'.dl = s.dl := by
  obtain ⟨hpos, hlt⟩ := lengthOfPiece_bounds hc h31 hj
  have hcur : (s.take (Int32.ofNat j)).conn.currentPiece.toInt = j := toInt_ofNat (by omega)
  have hoff : (s.take (Int32.ofNat j)).conn.blockOffset.toInt = blockBegin 0 := by
    rw [blockBegin, Nat.zero_mul]
    rfl
  have hk : blockBegin 0 < s.dl.torrent.lengthOfPiece j := by rwa [blockBegin, Nat.zero_mul]
  obtain ⟨hok, hthrow⟩ := requestBlock_at (s := s.take (Int32.ofNat j)) hc hj hlt hcur hoff hk
  have hsent (b : Buffer) : sentBuffers ((s.conn.log ++ [.took (Int32.ofNat j)]) ++ [.sent b]) =
      sentBuffers s.conn.log ++ [b] := by
    rw [sentBuffers_append, sentBuffers_append]
    exact congrArg (· ++ [b]) (List.append_nil _)
  have hreq := blockRequest_zero hcur (s.dl.torrent.lengthOfPiece j)
  cases hr : s.results.headD true with
  | true =>
      refine ⟨_, by rw [hok hr]; rfl, fun _ => hok hr, ?_, rfl⟩
      exact (hsent _).trans (congrArg (_ ++ [·]) hreq)
  | false =>
      refine ⟨(s.take (Int32.ofNat j)).sending _, by rw [hthrow hr]; rfl,
        fun h => absurd h Bool.false_ne_true, ?_, rfl⟩
      exact (hsent _).trans (congrArg (_ ++ [·]) hreq)

/-- A connection without a current piece asks for the first block of the first piece from the
counter on that the peer has, and for nothing if there is none.  It does not give up before. -/
theorem requestNextBlock_selects (hc : s.dl.torrent.Consistent)
    (h31 : s.dl.torrent.pieceLength.toInt < 2 ^ 31) (h30 : s.dl.torrent.pieceHashes.length < 2 ^ 30)
    (ha : 0 ≤ s.dl.nextReqIndex.toInt) (ha30 : s.dl.nextReqIndex.toInt < 2 ^ 30)
    (hchoked : s.conn.choked = false) (hcur : s.conn.currentPiece = -1) :
    (∀ giveUp, findPieceThen giveUp s.dl.torrent.pieceHashes.length s =
      findPiece s.dl.torrent.pieceHashes.length s) ∧
    ∃ s', s.requestNextBlock.state? = some s' ∧
      (s.results.headD true = true → s.requestNextBlock = .ok s') ∧
      ((∃ j, s.Offered j) → ∃ j, IsLeast {i | s.Offered i} j ∧
        sentBuffers s'.conn.log = sentBuffers s.conn.log ++
          [Message.buildRequest (UInt32.ofNat j) 0
            (UInt32.ofNat (min 16384 (s.dl.torrent.lengthOfPiece j)))] ∧
        s'.dl.nextReqIndex.toInt = j + 1) ∧
      ((∀ j, ¬ s.Offered j) →
        s.requestNextBlock = .ok s' ∧ sentBuffers s'.conn.log = sentBuffers s.conn.log ∧
        s'.conn.currentPiece = -1 ∧
        s'.dl.nextReqIndex.toInt =
          max s.dl.nextReqIndex.toInt s.dl.torrent.pieceHashes.length + 1) := by
  obtain ⟨a, hnat⟩ := Int.eq_ofNat_of_zero_le ha
  rcases search_spec hnat (by omega) h30 (Nat.le_add_left _ a) with
      ⟨j, s1, hleast, hp, hfind⟩ | ⟨hnone, s1, hp, hfind⟩
  · have hret := hfind fun s => (false, s)
    rw [findPieceThen_return] at hret
    have hreq := requestNextBlock_of_found hchoked hcur hret
    obtain ⟨s', hs', hok, hsent, hdl⟩ := requestBlock_taken (s := s1) (j := j)
      (by rwa [hp.torrent]) (by rwa [hp.torrent]) (by rwa [hp.torrent])
      (by rw [hp.torrent]; exact hleast.1.2.1)
    rw [hp.sent, hp.torrent] at hsent
    refine ⟨fun giveUp => (hfind giveUp).trans hret.symm, s', by rw [hreq, hs'], fun hr => ?_,
      fun _ => ⟨j, hleast, hsent, ?_⟩, fun hno => absurd hleast.1 (hno j)⟩
    · rw [hreq, hok (by rwa [hp.results])]
    · rw [hdl, hp.next]
      rfl
  · have hret := hfind fun s => (false, s)
    rw [findPieceThen_return] at hret
    have hreq := requestNextBlock_of_not_found hchoked hcur hret
    refine ⟨fun giveUp => (hfind giveUp).trans hret.symm, s1, by rw [hreq]; rfl, fun _ => hreq,
      fun hsome => absurd hsome (not_exists.mpr hnone), fun _ => ⟨hreq, hp.sent, hp.current.trans hcur, ?_⟩⟩
    rw [hp.next, hnat]
    omega

/-- A connection to a peer that has the second of two pieces of two bytes. -/
def offeringSecond : Session where
  conn := { Connection.init with choked := false, peerPieces := [false, true] }
  dl := Downloader.init
    { announce := [], name := bytes "b", length := 3, pieceLength := 2
      pieceHashes := [Sha1.calculate (bytes "ab"), Sha1.calculate (bytes "c")], infoHash := [] } []
  results := []

/-- It asks for the one byte of that piece. -/
theorem requestNextBlock_selects_second :
    ∃ s', offeringSecond.requestNextBlock = .ok s' ∧
      sentBuffers s'.conn.log = [Message.buildRequest 1 0 1] ∧ s'.dl.nextReqIndex.toInt = 2 := by
  have hfirst : ∀ j, offeringSecond.Offered j → j = 1 := by
    rintro j ⟨-, hlt, hbit⟩
    have hcases : j = 0 ∨ j = 1 := by
      change j < 2 at hlt
      omega
    rcases hcases with rfl | rfl
    · exact absurd hbit (by decide)
    · rfl
  obtain ⟨-, s', -, hok, hsel, -⟩ := requestNextBlock_selects (s := offeringSecond)
    ⟨by decide, by decide, rfl⟩ (by decide) (by decide) (by decide) (by decide) rfl rfl
  obtain ⟨j, hleast, hsent, hnext⟩ := hsel ⟨1, by decide, by decide, by decide⟩
  obtain rfl : j = 1 := hfirst j hleast.1
  exact ⟨s', hok rfl, hsent, hnext⟩

end Session

end NodeLink
