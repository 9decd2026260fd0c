import NodeLink.Download.Tally
import NodeLink.Download.Loss

/-!
# Every piece is drawn once

A connection that looks for a piece draws candidates from the shared counter,
until it draws one its peer has.  So a candidate is either taken or skipped, and
the log says by whom.  `Drew m s s'` is what `m` calls of
`GetNextPieceToRequest` add to a log: the next `m` numbers, as far as they are
pieces.  Over a run, the pieces that all connections have drawn are the first
ones of the torrent, each once (`drawn_perm`).

A skipped piece is therefore one that nobody has taken and nobody ever takes.
It is never asked for, though another peer may have it (`skipped_for_good`).
-/

namespace NodeLink

open Cpp

theorem took_mem_drawnPieces {log : List Event} {i : Int32} (h : .took i ∈ log) :
    i ∈ drawnPieces log :=
  List.mem_filterMap.mpr ⟨_, h, rfl⟩

theorem skipped_mem_drawnPieces {log : List Event} {i : Int32} (h : .skipped i ∈ log) :
    i ∈ drawnPieces log :=
  List.mem_filterMap.mpr ⟨_, h, rfl⟩

/-- What a log takes and what it skips is drawn twice, if it is the same piece. -/
theorem not_nodup_of_took_skipped {log : List Event} {i : Int32} (h : .took i ∈ log)
    (h' : .skipped i ∈ log) : ¬ (drawnPieces log).Nodup := by
  obtain ⟨pre, post, rfl⟩ := List.append_of_mem h
  have hdrawn : drawnPieces (.took i :: post) = i :: drawnPieces post :=
    List.filterMap_cons_some rfl
  rw [drawnPieces_append, hdrawn]
  intro hnodup
  obtain ⟨-, hpost, hapart⟩ := List.nodup_append'.mp hnodup
  rcases List.mem_append.mp h' with hm | hm
  · exact hapart (skipped_mem_drawnPieces hm) List.mem_cons_self
  · rcases List.mem_cons.mp hm with hm | hm
    · cases hm
    · exact (List.nodup_cons.mp hpost).1 (skipped_mem_drawnPieces hm)

namespace TorrentFile

/-- The numbers from `a` on, `m` of them, as far as they are pieces. -/
def candidates (t : TorrentFile) (a m : Nat) : List Int32 :=
  ((List.range' a m).filter (· < t.pieceHashes.length)).map Int32.ofNat

variable (t : TorrentFile) (a m m' : Nat)

theorem candidates_add :
    t.candidates a (m + m') = t.candidates a m ++ t.candidates (a + m) m' := by
  have hrange : List.range' a (m + m') = List.range' a m ++ List.range' (a + m) m' := by
    rw [List.range'_append_1]
  rw [candidates, candidates, candidates, hrange, List.filter_append, List.map_append]

variable {t a m}

/-- One number is a candidate, or it is none. -/
theorem candidates_one :
    t.candidates a 1 = if a < t.pieceHashes.length then [Int32.ofNat a] else [] := by
  by_cases hlt : a < t.pieceHashes.length
  · rw [if_pos hlt, candidates, List.range'_one, List.filter_singleton, decide_eq_true hlt]
    rfl
  · rw [if_neg hlt, candidates, List.range'_one, List.filter_singleton, decide_eq_false hlt]
    rfl

/-- From the first number on: the first pieces. -/
theorem candidates_zero :
    t.candidates 0 m = (List.range (min m t.pieceHashes.length)).map Int32.ofNat := by
  have hmin : (List.range' 0 m).filter (· < t.pieceHashes.length) =
      List.range (min m t.pieceHashes.length) := by
    induction m with
    | zero => rw [Nat.zero_min]; rfl
    | succ m ih =>
        rw [List.range'_concat, List.filter_append, ih, List.filter_singleton]
        by_cases hlt : m < t.pieceHashes.length
        · rw [Nat.one_mul, Nat.zero_add, decide_eq_true hlt, Nat.min_eq_left (by omega),
            Nat.min_eq_left (by omega), List.range_succ]
          rfl
        · rw [Nat.one_mul, Nat.zero_add, decide_eq_false hlt, Nat.min_eq_right (by omega),
            Nat.min_eq_right (by omega)]
          exact List.append_nil _
  rw [candidates, hmin]

end TorrentFile

namespace Session

variable {s s' : Session} {id : UInt8} {payload : Buffer} {m : Nat}

/-- What `m` calls draw, from a counter that does not pass `2 ^ 31`. -/
structure Drew (m : Nat) (s s' : Session) : Prop where
  torrent : s'.dl.torrent = s.dl.torrent
  counter : s'.dl.nextReqIndex = s.dl.nextReqIndex + Int32.ofNat m
  drew : ∃ es, s'.conn.log = s.conn.log ++ es ∧ ∀ a, s.dl.nextReqIndex = Int32.ofNat a →
    a + m < 2 ^ 31 → drawnPieces es = s.dl.torrent.candidates a m

theorem Drew.trans {s1 s2 s3 : Session} {m m' : Nat} (h : Drew m s1 s2) (h' : Drew m' s2 s3) :
    Drew (m + m') s1 s3 where
  torrent := h'.torrent.trans h.torrent
  counter := by
    rw [h'.counter, h.counter, Int32.add_assoc, Int32.ofNat_add]
  drew := by
    obtain ⟨es, hes, hd⟩ := h.drew
    obtain ⟨es', hes', hd'⟩ := h'.drew
    refine ⟨es ++ es', by rw [hes', hes, List.append_assoc], fun a ha hlt => ?_⟩
    have ha' : s2.dl.nextReqIndex = Int32.ofNat (a + m) := by
      rw [h.counter, ha, Int32.ofNat_add]
    rw [drawnPieces_append, hd a ha (by omega), hd' (a + m) ha' (by omega), h.torrent,
      ← TorrentFile.candidates_add]

/-! ## One call -/

/-- The candidate is the counter, where that is a piece. -/
theorem nextCandidate_fst (s : Session) : s.nextCandidate.1 =
    if s.dl.torrent.InRange s.dl.nextReqIndex.toInt then s.dl.nextReqIndex else -1 := by
  simp only [nextCandidate, Downloader.getNextPieceToRequest]
  split <;> rfl

/-- What one call draws. -/
theorem candidates_nextCandidate {a : Nat} (ha : s.dl.nextReqIndex = Int32.ofNat a)
    (hlt : a + 1 < 2 ^ 31) : s.dl.torrent.candidates a 1 =
      if s.nextCandidate.1 = -1 then [] else [s.nextCandidate.1] := by
  have hi : s.dl.nextReqIndex.toInt = a := by
    rw [ha]
    exact Int32.toInt_ofNat_of_lt (by omega)
  have hrange : s.dl.torrent.InRange s.dl.nextReqIndex.toInt ↔
      a < s.dl.torrent.pieceHashes.length := by
    simp only [TorrentFile.InRange]
    omega
  rw [TorrentFile.candidates_one, nextCandidate_fst]
  by_cases hin : a < s.dl.torrent.pieceHashes.length
  · have hne : s.dl.nextReqIndex ≠ -1 := by
      intro he
      rw [he] at hi
      have hneg : (-1 : Int32).toInt = -1 := by decide
      omega
    rw [if_pos hin, if_pos (hrange.mpr hin), if_neg hne, ha]
  · rw [if_neg hin, if_neg (mt hrange.mp hin), if_pos rfl]

theorem nextCandidate_sameState : s.nextCandidate.2.dl.torrent = s.dl.torrent ∧
    s.nextCandidate.2.dl.nextReqIndex = s.dl.nextReqIndex + 1 := by
  simp only [nextCandidate, Downloader.getNextPieceToRequest]
  split <;> exact ⟨rfl, rfl⟩

theorem tally_drew : Tally Drew where
  none es ht hn hl hes :=
    ⟨ht, hn.trans (Int32.add_zero _).symm, es, hl, fun _ _ _ => hes⟩
  trans := Drew.trans
  ended {s} h := by
    refine ⟨nextCandidate_sameState.1, nextCandidate_sameState.2, [], ?_, fun a ha hlt => ?_⟩
    · exact (List.append_nil _).symm
    · rw [candidates_nextCandidate ha hlt, if_pos h]
      rfl
  took {s} h := by
    refine ⟨nextCandidate_sameState.1, nextCandidate_sameState.2, [.took s.nextCandidate.1], rfl,
      fun a ha hlt => ?_⟩
    rw [candidates_nextCandidate ha hlt, if_neg h]
    rfl
  skipped {s} h := by
    refine ⟨nextCandidate_sameState.1, nextCandidate_sameState.2, [.skipped s.nextCandidate.1], rfl,
      fun a ha hlt => ?_⟩
    rw [candidates_nextCandidate ha hlt, if_neg h]
    rfl

/-- The log of a session only grows. -/
theorem tally_log : Tally fun _ s s' => s.conn.log <+: s'.conn.log where
  none _ _ _ hl _ := hl ▸ List.prefix_append _ _
  trans h h' := h.trans h'
  ended _ := List.prefix_rfl
  took _ := List.prefix_append _ _
  skipped _ := List.prefix_append _ _

end Session

namespace Swarm

open Session

variable {t : TorrentFile} {id : Str} {n m k : Nat} {w w' : Swarm} {e : Call} {es es' : List Call}
  {c : Connection} {p : Int32}

/-! ## Runs -/

/-- After `m` calls: the pieces that were drawn. -/
structure Drawn (t : TorrentFile) (m : Nat) (w : Swarm) : Prop where
  torrent : w.dl.torrent = t
  counter : w.dl.nextReqIndex = Int32.ofNat m
  perm : m < 2 ^ 31 → (w.conns.flatMap fun c => drawnPieces c.log).Perm (t.candidates 0 m)

theorem drawn_init (t : TorrentFile) (id : Str) (n : Nat) : Drawn t 0 (init t id n) where
  torrent := rfl
  counter := rfl
  perm _ := by
    have hnil : ((init t id n).conns.flatMap fun c => drawnPieces c.log) = [] := by
      refine List.flatMap_eq_nil_iff.mpr fun c hc => ?_
      rw [List.eq_of_mem_replicate hc]
      rfl
    rw [hnil]
    exact .nil

theorem Drawn.drew {s' : Session} {rs : List Bool} {m' : Nat} (h : Drawn t m w)
    (hc : w.conns[k]? = some c) (hs : Drew m' ⟨c, w.dl, rs⟩ s') :
    Drawn t (m + m') ⟨w.conns.set k s'.conn, s'.dl⟩ := by
  obtain ⟨ht, hn, log, hlog, hdrew⟩ := hs
  have hdrawn : drawnPieces s'.conn.log = drawnPieces c.log ++ drawnPieces log := by
    rw [hlog, drawnPieces_append]
  refine ⟨ht.trans h.torrent, by rw [hn, h.counter, Int32.ofNat_add], fun hlt => ?_⟩
  have hnew : drawnPieces log = t.candidates m m' := by
    rw [hdrew m h.counter hlt, h.torrent]
  have hset := flatMap_set_perm (fun c => drawnPieces c.log) hc hdrawn
  rw [hnew] at hset
  have hadd := t.candidates_add 0 m m'
  rw [Nat.zero_add] at hadd
  rw [hadd]
  exact hset.trans ((h.perm (by omega)).append_right _)

theorem Drawn.step (h : Drawn t m w) (hs : (w.step e).state? = some w') :
    Drawn t (m + w.callCount e) w' := by
  rcases step_cases hs with ⟨hnone, rfl⟩ | ⟨c, s', hc, rfl, ⟨rs, he, hf⟩ | ⟨r, rs, he, hf⟩⟩
  · rw [callCount_of_none hnone]
    exact h
  · rw [he]
    exact h.drew hc (tally_drew.of_onReadyWrite hf)
  · rw [he]
    exact h.drew hc (tally_drew.of_onReadyRead hc hf)

theorem drawn_run (hrun : exec Swarm.step (init t id n) es = some w) :
    Drawn t ((init t id n).requestCalls es) w := by
  induction es using List.reverseRecOn generalizing w with
  | nil =>
      cases Option.some.inj hrun
      exact drawn_init t id n
  | append_singleton es e ih =>
      obtain ⟨w1, hrun1, hstep⟩ := exec_concat_eq_some hrun
      rw [requestCalls_concat hrun1]
      exact (ih hrun1).step hstep

/-- The pieces that the connections have drawn are the first ones of the torrent, as many as there
were calls, each of them once. -/
theorem drawn_perm (hrun : exec step (init t id n) es = some w)
    (hcalls : (init t id n).requestCalls es < 2 ^ 31) :
    (w.conns.flatMap fun c => drawnPieces c.log).Perm
      ((List.range (min ((init t id n).requestCalls es) t.pieceHashes.length)).map Int32.ofNat) := by
  rw [← TorrentFile.candidates_zero]
  exact (drawn_run hrun).perm hcalls

/-- A peer that has piece 1 only unchokes the first connection. -/
def secondHalf : List Call :=
  [.write 0 [], .read 0 (some ⟨List.replicate 68 0, start_length_le⟩) [],
    .read 0 (some ⟨Message.frame Message.bitfield [0x40] ++ Message.buildUnchoke, by decide⟩) []]

/-- Both pieces are drawn, by one call after the other. -/
theorem drawn_perm_secondHalf :
    ∃ w, exec step (init Downloader.twoBytes [] 2) secondHalf = some w ∧
      (w.conns.flatMap fun c => drawnPieces c.log).Perm [0, 1] := by
  have hsome : (exec step (init Downloader.twoBytes [] 2) secondHalf).isSome = true := by
    decide +kernel
  have hcalls : (init Downloader.twoBytes [] 2).requestCalls secondHalf = 2 := by decide +kernel
  obtain ⟨w, hrun⟩ := Option.isSome_iff_exists.mp hsome
  have hperm := drawn_perm hrun (by rw [hcalls]; decide)
  rw [hcalls] at hperm
  exact ⟨w, hrun, hperm⟩

theorem drawn_nodup (hrun : exec step (init t id n) es = some w)
    (hcalls : (init t id n).requestCalls es < 2 ^ 31) :
    (w.conns.flatMap fun c => drawnPieces c.log).Nodup := by
  refine ((drawn_run hrun).perm hcalls).nodup_iff.mpr ?_
  rw [TorrentFile.candidates_zero]
  refine List.Nodup.map_on (fun i hi j hj hij => ?_) List.nodup_range
  have hi' := List.mem_range.mp hi
  have hj' := List.mem_range.mp hj
  have hinj := congrArg Int32.toInt hij
  rw [Int32.toInt_ofNat_of_lt (by omega), Int32.toInt_ofNat_of_lt (by omega)] at hinj
  exact Int.ofNat.inj hinj

/-! ## A piece nobody takes -/

/-- A piece is drawn on one connection only. -/
theorem drawn_unique (hrun : exec step (init t id n) es = some w)
    (hcalls : (init t id n).requestCalls es < 2 ^ 31) {k' : Nat} {c' : Connection}
    (hc : w.conns[k]? = some c) (hc' : w.conns[k']? = some c') (hp : p ∈ drawnPieces c.log)
    (hp' : p ∈ drawnPieces c'.log) : k = k' := by
  have hpair := List.pairwise_iff_getElem.mp (List.nodup_flatMap.mp (drawn_nodup hrun hcalls)).2
  obtain ⟨hk, rfl⟩ := List.getElem?_eq_some_iff.mp hc
  obtain ⟨hk', rfl⟩ := List.getElem?_eq_some_iff.mp hc'
  rcases Nat.lt_trichotomy k k' with hlt | heq | hlt
  · exact absurd hp' (hpair k k' hk hk' hlt hp)
  · exact heq
  · exact absurd hp (hpair k' k hk' hk hlt hp')

/-- The log of a connection only grows. -/
theorem exec_log (hc : w.conns[k]? = some c) (hrun : exec step w es = some w') :
    ∃ c', w'.conns[k]? = some c' ∧ c.log <+: c'.log := by
  refine exec_invariant (P := fun w => ∃ c', w.conns[k]? = some c' ∧ c.log <+: c'.log) ?_
    ⟨c, hc, List.prefix_rfl⟩ hrun
  rintro w1 e w2 - ⟨c1, hc1, hlog1⟩ hs
  by_cases hk : e.conn = k
  · rcases step_cases hs with ⟨hnone, rfl⟩ | ⟨c2, s2, hc2, rfl, hf⟩
    · exact ⟨c1, hc1, hlog1⟩
    · rw [hk] at hc2 ⊢
      cases Option.some.inj (hc1.symm.trans hc2)
      have hlt := (List.getElem?_eq_some_iff.mp hc1).1
      refine ⟨s2.conn, List.getElem?_set_self hlt, hlog1.trans ?_⟩
      rcases hf with ⟨rs, -, hf⟩ | ⟨r, rs, -, hf⟩
      · exact tally_log.of_onReadyWrite hf
      · exact tally_log.of_onReadyRead hc1 hf
  · exact ⟨c1, (step_conns_of_ne hs (Ne.symm hk)).trans hc1, hlog1⟩

/-- A connection has skipped a piece, because its peer had not sent the bit.  Whatever happens next,
no connection ever asks for a block of the piece. -/
theorem skipped_for_good (ht : t.Consistent) (hp : t.pieceLength.toInt < 2 ^ 31)
    (hrun : exec step (init t id n) es = some w) (hc : w.conns[k]? = some c)
    (hskip : .skipped p ∈ c.log) (hrun' : exec step w es' = some w')
    (hcalls : (init t id n).requestCalls (es ++ es') < 2 ^ 31) :
    ∀ c' ∈ w'.conns, askedFor c'.log p = [] := by
  have hwhole : exec step (init t id n) (es ++ es') = some w' := by
    rw [exec_append, hrun]
    exact hrun'
  obtain ⟨c1, hc1, hlog⟩ := exec_log hc hrun'
  have hskip1 := hlog.subset hskip
  intro c' hc'
  have hinv := (askInv_open ht hp).forall_conn (askInv_init t) hwhole c' hc'
  refine hinv.askedFor_of_not_took fun htook => ?_
  obtain ⟨k', hk'⟩ := List.getElem?_of_mem hc'
  have heq := drawn_unique hwhole hcalls hc1 hk' (skipped_mem_drawnPieces hskip1)
    (took_mem_drawnPieces htook)
  cases heq
  cases Option.some.inj (hc1.symm.trans hk')
  have hnodup := (List.nodup_flatMap.mp (drawn_nodup hwhole hcalls)).1 c1 (List.mem_of_getElem? hc1)
  exact not_nodup_of_took_skipped htook hskip1 hnodup

/-- The other peer has both pieces, but is asked for neither. -/
theorem skipped_for_good_otherPeer :
    ∃ w w', exec step (init Downloader.twoBytes [] 2) secondHalf = some w ∧
      exec step w otherPeer = some w' ∧ ∀ c' ∈ w'.conns, askedFor c'.log 0 = [] := by
  have ht : Downloader.twoBytes.Consistent := ⟨by decide, by decide, by decide⟩
  have hfirst : ((exec step (init Downloader.twoBytes [] 2) secondHalf).bind fun w =>
      w.conns[0]?.map fun c => decide (.skipped 0 ∈ c.log)) = some true := by decide +kernel
  have hthen : (exec step (init Downloader.twoBytes [] 2) (secondHalf ++ otherPeer)).isSome = true := by
    decide +kernel
  obtain ⟨w, hrun, hw⟩ := Option.bind_eq_some_iff.mp hfirst
  obtain ⟨c, hc, hskip⟩ := Option.map_eq_some_iff.mp hw
  obtain ⟨w', hrun'⟩ := Option.isSome_iff_exists.mp hthen
  rw [exec_append, hrun, Option.bind_some] at hrun'
  exact ⟨w, w', hrun, hrun',
    skipped_for_good ht (by decide) hrun hc (of_decide_eq_true hskip) hrun' (by decide +kernel)⟩

end Swarm

end NodeLink
