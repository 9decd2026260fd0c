import Mathlib.Data.List.Nodup
import NodeLink.Download.Swarm

/-!
# The calls of `GetNextPieceToRequest`

The connections of a download draw the pieces they ask for from one counter.
The counter is an `int` and wraps around, so that a piece is handed out once is
a statement about runs with fewer than `2 ^ 31` calls.

The state does not hold the number of calls.  `findPieceCalls` to `callCount`
count them along the code, from one search to one event, and `requestCalls` adds
them up over a run.  `Called m s s'` says what `m` calls do between two states:
the counter moves on by `m`, and the pieces that were taken are candidates in
between, in increasing order.  From this, a run keeps `Dealt`: no piece is taken
twice, on one connection or on two.
-/

namespace NodeLink

open Cpp

/-- The piece an event took. -/
def Event.took? : Event → Option Int32
  | .took i => some i
  | _ => none

/-- The pieces a log took, in order. -/
def tookPieces (log : List Event) : List Int32 := log.filterMap Event.took?

theorem tookPieces_append (log log' : List Event) :
    tookPieces (log ++ log') = tookPieces log ++ tookPieces log' :=
  List.filterMap_append

theorem mem_tookPieces {log : List Event} {i : Int32} : i ∈ tookPieces log ↔ .took i ∈ log := by
  simp only [tookPieces, List.mem_filterMap]
  constructor
  · rintro ⟨e, he, hi⟩
    cases e <;> cases hi
    exact he
  · intro h
    exact ⟨.took i, h, rfl⟩

/-- Candidates from `a` up to `b`, in increasing order. -/
structure Fresh (a b : Nat) (is : List Int32) : Prop where
  sorted : is.Pairwise fun i j => i.toInt < j.toInt
  bounds : ∀ i ∈ is, (a : Int) ≤ i.toInt ∧ i.toInt < b

theorem Fresh.nil (a b : Nat) : Fresh a b [] := ⟨.nil, nofun⟩

theorem Fresh.append {a b c : Nat} {is js : List Int32} (h : Fresh a b is) (h' : Fresh b c js)
    (hab : a ≤ b) (hbc : b ≤ c) : Fresh a c (is ++ js) where
  sorted := by
    refine List.pairwise_append.mpr ⟨h.sorted, h'.sorted, fun i hi j hj => ?_⟩
    have h1 := h.bounds i hi
    have h2 := h'.bounds j hj
    omega
  bounds i hi := by
    rcases List.mem_append.mp hi with hi | hi
    · have := h.bounds i hi
      omega
    · have := h'.bounds i hi
      omega

theorem Fresh.nodup {a b : Nat} {is : List Int32} (h : Fresh a b is) : is.Nodup :=
  h.sorted.imp fun hlt he => by
    rw [he] at hlt
    exact lt_irrefl _ hlt

namespace Session

variable {s s' : Session} {id : UInt8} {payload : Buffer} {m : Nat}

/-! ## Counting -/

/-- The calls of the search. -/
def findPieceCalls : Nat → Session → Nat
  | 0, _ => 1
  | left + 1, s =>
      if s.nextCandidate.1 = -1 ∨ s.nextCandidate.2.conn.hasPiece s.nextCandidate.1 = true then 1
      else 1 + findPieceCalls left (s.nextCandidate.2.skip s.nextCandidate.1)

/-- The calls of `RequestNextBlock`. -/
def requestNextBlockCalls (s : Session) : Nat :=
  if s.conn.choked = true ∨ s.conn.currentPiece ≠ -1 then 0
  else findPieceCalls s.dl.torrent.pieceHashes.length s

/-- The calls of a `PIECE`. -/
def onPieceCalls (s : Session) (payload : Buffer) : Nat :=
  if payload.length < 8 then 0
  else match Downloader.receive s.dl (s.callOf payload) with
    | .ok d => (s.delivered d).requestNextBlockCalls
    | _ => 0

/-- The calls of a message. -/
def dispatchCalls (s : Session) (id : UInt8) (payload : Buffer) : Nat :=
  if id = Message.unchoke then s.unchoked.requestNextBlockCalls
  else if id = Message.piece then s.onPieceCalls payload
  else 0

/-- The calls of one pass of the loop. -/
def passCalls (s : Session) : Nat :=
  let len := Message.readMessageLength s.conn.recvBuffer
  if s.conn.state = .handshaking ∨ len = 0 then 0
  else match takeFrame s.conn.recvBuffer len.toNat with
    | .ok (id, payload, rest) => (s.framed id payload rest).dispatchCalls id payload
    | .error _ => 0

/-! ## What the calls do -/

/-- From `s` to `s'` there are `m` calls. -/
structure Called (m : Nat) (s s' : Session) : Prop where
  counter : s'.dl.nextReqIndex = s.dl.nextReqIndex + Int32.ofNat m
  took : ∃ es, s'.conn.log = s.conn.log ++ es ∧ ∀ a, s.dl.nextReqIndex = Int32.ofNat a →
    a + m < 2 ^ 31 → Fresh a (a + m) (tookPieces es)

/-- Without a call, the counter stays and no piece is taken. -/
theorem Called.none (es : List Event) (hn : s'.dl.nextReqIndex = s.dl.nextReqIndex)
    (hl : s'.conn.log = s.conn.log ++ es) (ht : tookPieces es = []) : Called 0 s s' where
  counter := hn.trans (Int32.add_zero _).symm
  took := ⟨es, hl, fun a _ _ => ht ▸ Fresh.nil a (a + 0)⟩

/-- Without a call and without an event. -/
theorem Called.quiet (hn : s'.dl.nextReqIndex = s.dl.nextReqIndex)
    (hl : s'.conn.log = s.conn.log) : Called 0 s s' :=
  .none [] hn (hl.trans (List.append_nil _).symm) rfl

theorem Called.trans {s1 s2 s3 : Session} {m m' : Nat} (h : Called m s1 s2)
    (h' : Called m' s2 s3) : Called (m + m') s1 s3 where
  counter := by
    rw [h'.counter, h.counter, Int32.add_assoc, Int32.ofNat_add]
  took := by
    obtain ⟨es, hes, hf⟩ := h.took
    obtain ⟨es', hes', hf'⟩ := h'.took
    refine ⟨es ++ es', by rw [hes', hes, List.append_assoc], fun a ha hlt => ?_⟩
    have ha' : s2.dl.nextReqIndex = Int32.ofNat (a + m) := by
      rw [h.counter, ha, Int32.ofNat_add]
    rw [tookPieces_append, ← Nat.add_assoc]
    exact (hf a ha (by omega)).append (hf' (a + m) ha' (by omega)) (by omega) (by omega)

theorem nextCandidate_called (s : Session) : Called 1 s s.nextCandidate.2 where
  counter := by
    simp only [nextCandidate, Downloader.getNextPieceToRequest]
    split <;> rfl
  took := ⟨[], (List.append_nil _).symm, fun a _ _ => Fresh.nil a (a + 1)⟩

/-- The candidate is the counter. -/
theorem nextCandidate_eq (h : s.nextCandidate.1 ≠ -1) : s.nextCandidate.1 = s.dl.nextReqIndex := by
  simp only [nextCandidate, Downloader.getNextPieceToRequest] at h ⊢
  split at h
  next hin => rw [if_pos hin]
  next => exact absurd rfl h

theorem take_called (h : s.nextCandidate.1 ≠ -1) :
    Called 1 s (s.nextCandidate.2.take s.nextCandidate.1) where
  counter := (nextCandidate_called s).counter
  took := by
    refine ⟨[.took s.nextCandidate.1], rfl, fun a ha hlt => ?_⟩
    have hi : s.nextCandidate.1.toInt = a := by
      rw [nextCandidate_eq h, ha]
      exact Int32.toInt_ofNat_of_lt (by omega)
    refine ⟨List.pairwise_singleton _ _, fun i hm => ?_⟩
    cases List.mem_singleton.mp hm
    omega

theorem skip_called (s : Session) : Called 1 s (s.nextCandidate.2.skip s.nextCandidate.1) := by
  have hskip : Called 0 s.nextCandidate.2 (s.nextCandidate.2.skip s.nextCandidate.1) :=
    .none [.skipped s.nextCandidate.1] rfl rfl rfl
  exact (nextCandidate_called s).trans hskip

theorem findPiece_called (left : Nat) (s : Session) :
    Called (findPieceCalls left s) s (findPiece left s).2 := by
  induction left generalizing s with
  | zero =>
      simp only [findPiece, tryCandidate, findPieceCalls]
      split
      · exact nextCandidate_called s
      next hne =>
        split
        · exact take_called hne
        · exact skip_called s
  | succ left ih =>
      simp only [findPiece, tryCandidate, findPieceCalls]
      by_cases hend : s.nextCandidate.1 = -1
      · rw [if_pos hend, if_pos (.inl hend)]
        exact nextCandidate_called s
      · rw [if_neg hend]
        by_cases hhas : s.nextCandidate.2.conn.hasPiece s.nextCandidate.1 = true
        · rw [if_pos hhas, if_pos (.inr hhas)]
          exact take_called hend
        · rw [if_neg hhas, if_neg fun h => h.elim hend hhas]
          exact (skip_called s).trans (ih _)

theorem requestBlock_called (h : s.requestBlock.state? = some s') : Called 0 s s' := by
  have hfin : ∀ (s : Session) n, (s.finishPiece n).dl = s.dl ∧
      (s.finishPiece n).conn.log = s.conn.log := by
    intro s n
    simp only [finishPiece]
    split <;> exact ⟨rfl, rfl⟩
  rcases requestBlock_cases h with ⟨n, -, ⟨-, -, rfl⟩ | ⟨-, -, rfl⟩ | ⟨-, e, -, rfl⟩⟩
  · exact .quiet (congrArg _ (hfin s n).1) (hfin s n).2
  · exact .none [.sent (s.request n)] (congrArg _ (hfin _ n).1) (hfin _ n).2 rfl
  · exact .none [.sent (s.request n)] rfl rfl rfl

theorem requestNextBlock_called (h : s.requestNextBlock.state? = some s') :
    Called s.requestNextBlockCalls s s' := by
  simp only [requestNextBlock, requestNextBlockCalls] at h ⊢
  by_cases hc : s.conn.choked = true
  · rw [if_pos hc] at h
    cases Option.some.inj h
    rw [if_pos (.inl hc)]
    exact .quiet rfl rfl
  rw [if_neg hc] at h
  by_cases hp : s.conn.currentPiece = -1
  · rw [if_pos hp] at h
    rw [if_neg fun h => h.elim hc fun h => h hp]
    have hfind := findPiece_called s.dl.torrent.pieceHashes.length s
    split at h
    · exact hfind.trans (requestBlock_called h)
    · cases Option.some.inj h
      exact hfind
  · rw [if_neg hp] at h
    rw [if_pos (.inr hp)]
    exact requestBlock_called h

theorem delivered_called {c : Downloader.Call} {d : Downloader}
    (h : (Downloader.receive s.dl c).state? = some d) : Called 0 s (s.delivered d) := by
  obtain ⟨-, -, hn⟩ := Downloader.receive_sameFixed h
  exact .quiet hn rfl

theorem onPiece_called (h : (s.onPiece payload).state? = some s') :
    Called (s.onPieceCalls payload) s s' := by
  simp only [onPieceCalls]
  rcases onPiece_cases h with ⟨h8, rfl, -⟩ | ⟨h8, d, hd, ⟨e, hr, -, rfl⟩ | ⟨hr, -, hn⟩⟩
  · rw [if_pos h8]
    exact .quiet rfl rfl
  · rw [if_neg (by omega), hr]
    exact delivered_called hd
  · rw [if_neg (by omega), hr]
    have hcalled := (delivered_called hd).trans (requestNextBlock_called hn)
    rwa [Nat.zero_add] at hcalled

theorem dispatch_called (h : (s.dispatch id payload).state? = some s') :
    Called (s.dispatchCalls id payload) s s' := by
  have hquiet : ∀ s1 : Session, s1.dl = s.dl → s1.conn.log = s.conn.log → Called 0 s s1 :=
    fun s1 hdl hlog => .quiet (congrArg _ hdl) hlog
  simp only [dispatchCalls]
  rcases dispatch_cases s id payload with
      ⟨hid, hd⟩ | ⟨hid, hd⟩ | ⟨hid, hd⟩ | ⟨hid, hd⟩ | ⟨h1, -, -, h2, hd⟩ <;> rw [hd] at h
  · rw [if_pos hid]
    have hcalled := (hquiet s.unchoked rfl rfl).trans (requestNextBlock_called h)
    rwa [Nat.zero_add] at hcalled
  · cases Option.some.inj h
    rw [hid]
    exact hquiet _ rfl rfl
  · cases Option.some.inj h
    rw [hid]
    exact hquiet _ rfl rfl
  · rw [hid]
    exact onPiece_called h
  · cases Option.some.inj h
    rw [if_neg h1, if_neg h2]
    exact hquiet _ rfl rfl

theorem pass_called {o : Outcome Exn Fault Session} (hp : s.pass = some o)
    (ho : o.state? = some s') : Called s.passCalls s s' := by
  simp only [passCalls]
  rcases pass_state_cases hp ho with
      ⟨hs, rest, hst, -, -, rfl⟩ | ⟨rest, hst, hb, rfl⟩ | ⟨id, payload, rest, hst, hb, hlen, rfl⟩
  · rw [if_pos (.inl hst)]
    exact .none [.handshake hs, .sent Message.buildInterested] rfl
      (List.append_assoc ..) rfl
  · rw [hb, if_pos (.inr (Message.readMessageLength_keepAlive rest))]
    exact .none [.keepAlive] rfl rfl rfl
  · obtain ⟨h0, htake⟩ := takeFrame_announced id hlen rest
    rw [hb, if_neg fun h => h.elim hst h0, htake]
    have hframed : Called 0 s (s.framed id payload rest) :=
      .none [.frame id payload] rfl rfl rfl
    have hcalled := hframed.trans (dispatch_called ho)
    rwa [Nat.zero_add] at hcalled

theorem processBuffer_called (h : s.processBuffer.state? = some s') :
    Called (consumer.drainCost passCalls s) s s' := by
  simp only [processBuffer] at h
  induction s using Stream.Consumer.drain_induction (c := consumer) with
  | step s ih =>
      rw [Stream.Consumer.drain_eq] at h
      cases hp : consumer.pass s with
      | none =>
          rw [hp] at h
          cases Option.some.inj h
          rw [Stream.Consumer.drainCost_of_none hp]
          exact .quiet rfl rfl
      | some o =>
          rw [hp] at h
          cases o with
          | ok s1 =>
              rw [Stream.Consumer.drainCost_of_ok hp]
              exact (pass_called hp rfl).trans (ih s1 hp h)
          | throw e s1 =>
              cases Option.some.inj h
              rw [Stream.Consumer.drainCost_of_throw hp]
              exact pass_called hp rfl
          | fault f => cases h

end Session

namespace Swarm

open Session

variable {t : TorrentFile} {id : Str} {n m : Nat} {w w' : Swarm} {e : Call} {es : List Call}

/-! ## Runs -/

/-- The calls of one event. -/
def callCount (w : Swarm) : Call → Nat
  | .read k (some chunk) results =>
      match w.conns[k]? with
      | some c =>
          if c.socket ∧ chunk.bytes ≠ [] then
            consumer.drainCost passCalls ((⟨c, w.dl, results⟩ : Session).append chunk.bytes)
          else 0
      | none => 0
  | _ => 0

/-- The calls of a run. -/
def requestCalls (w : Swarm) (es : List Call) : Nat :=
  ((steps step w es).map fun p => p.1.callCount p.2).sum

theorem onReadyWrite_called {s s' : Session} (h : s.onReadyWrite.state? = some s') :
    Called 0 s s' := by
  rcases onReadyWrite_cases s with ⟨-, hw⟩ | ⟨-, -, hw | hw⟩ <;> rw [hw] at h <;>
    cases Option.some.inj h
  · exact .quiet rfl rfl
  · exact .none [.sent _] rfl rfl rfl
  · exact .none [.sent _] rfl rfl rfl

theorem onReadyRead_called {c : Connection} {rs : List Bool} {k : Nat}
    {r : Option Chunk} {s' : Session} (hc : w.conns[k]? = some c)
    (h : (onReadyRead ⟨c, w.dl, rs⟩ r).state? = some s') :
    Called (w.callCount (.read k r rs)) ⟨c, w.dl, rs⟩ s' := by
  rcases onReadyRead_cases ⟨c, w.dl, rs⟩ r with
      ⟨hcl, hr⟩ | ⟨-, hempty, hr⟩ | ⟨hopen, chunk, rfl, hne, hr⟩ <;> rw [hr] at h
  · have h0 : w.callCount (.read k r rs) = 0 := by
      cases r with
      | none => rfl
      | some chunk =>
          simp only [callCount]
          rw [hc]
          exact if_neg fun h => Bool.false_ne_true (hcl.symm.trans h.1)
    cases Option.some.inj h
    rw [h0]
    exact .quiet rfl rfl
  · have h0 : w.callCount (.read k r rs) = 0 := by
      cases r with
      | none => rfl
      | some chunk =>
          simp only [callCount]
          rw [hc]
          exact if_neg fun h => h.2 (hempty chunk rfl)
    cases Option.some.inj h
    rw [h0]
    exact .quiet rfl rfl
  · have hcount : w.callCount (.read k (some chunk) rs) = consumer.drainCost passCalls
        ((⟨c, w.dl, rs⟩ : Session).append chunk.bytes) := by
      simp only [callCount]
      rw [hc]
      exact if_pos ⟨hopen, hne⟩
    rw [hcount]
    have hdrain : ∀ s1, ((⟨c, w.dl, rs⟩ : Session).append chunk.bytes).processBuffer.state? = some s1 →
        Called (consumer.drainCost passCalls ((⟨c, w.dl, rs⟩ : Session).append chunk.bytes))
          ⟨c, w.dl, rs⟩ s1 := fun s1 h1 =>
      ⟨(processBuffer_called h1).counter, (processBuffer_called h1).took⟩
    rcases catching_state? h with ho | ⟨ex, s1, ho, rfl⟩
    · exact hdrain s' (congrArg Outcome.state? ho)
    · have h1 := hdrain s1 (congrArg Outcome.state? ho)
      exact ⟨h1.counter, h1.took⟩

/-- After `m` calls: the counter, and the pieces that were taken. -/
structure Dealt (m : Nat) (w : Swarm) : Prop where
  counter : w.dl.nextReqIndex = Int32.ofNat m
  nodup : m < 2 ^ 31 → (w.conns.flatMap fun c => tookPieces c.log).Nodup
  bound : m < 2 ^ 31 → ∀ c ∈ w.conns, ∀ i ∈ tookPieces c.log, i.toInt < m

theorem dealt_init (t : TorrentFile) (id : Str) (n : Nat) : Dealt 0 (init t id n) where
  counter := rfl
  nodup _ := by
    rw [List.flatMap_eq_nil_iff.mpr fun c hc => by rw [List.eq_of_mem_replicate hc]; rfl]
    exact .nil
  bound _ c hc i hi := by
    rw [List.eq_of_mem_replicate hc] at hi
    exact absurd hi List.not_mem_nil

/-- The list with one entry changed, up to the order of what the entries stand for. -/
theorem flatMap_set_perm {l : List Connection} {k : Nat} {c c' : Connection} {is : List Int32}
    (f : Connection → List Int32) (hc : l[k]? = some c) (hf : f c' = f c ++ is) :
    ((l.set k c').flatMap f).Perm (l.flatMap f ++ is) := by
  obtain ⟨hk, rfl⟩ := List.getElem?_eq_some_iff.mp hc
  have hl : l = l.take k ++ l[k] :: l.drop (k + 1) := by
    rw [← List.drop_eq_getElem_cons hk, List.take_append_drop]
  rw [List.set_eq_take_append_cons_drop, if_pos hk]
  conv_rhs => rw [hl]
  simp only [List.flatMap_append, List.flatMap_cons, hf, List.append_assoc]
  exact ((List.perm_append_comm).append_left _).append_left _

theorem Dealt.called {k : Nat} {c : Connection} {s' : Session} {rs : List Bool} {m' : Nat}
    (h : Dealt m w) (hc : w.conns[k]? = some c) (hs : Called m' ⟨c, w.dl, rs⟩ s') :
    Dealt (m + m') ⟨w.conns.set k s'.conn, s'.dl⟩ := by
  obtain ⟨hn, log, hlog, hfresh⟩ := hs
  have htook : tookPieces s'.conn.log = tookPieces c.log ++ tookPieces log := by
    rw [hlog, tookPieces_append]
  refine ⟨by rw [hn, h.counter, Int32.ofNat_add], fun hlt => ?_, fun hlt c' hc' i hi => ?_⟩
  · have hf := hfresh m h.counter hlt
    refine (flatMap_set_perm (fun c => tookPieces c.log) hc htook).nodup_iff.mpr ?_
    refine List.nodup_append'.mpr ⟨h.nodup (by omega), hf.nodup, fun i hi hi' => ?_⟩
    obtain ⟨c', hc', hi⟩ := List.mem_flatMap.mp hi
    have h1 := h.bound (by omega) c' hc' i hi
    have h2 := hf.bounds i hi'
    omega
  · have hf := hfresh m h.counter hlt
    rcases List.mem_or_eq_of_mem_set hc' with hc' | rfl
    · have := h.bound (by omega) c' hc' i hi
      omega
    · rw [htook] at hi
      rcases List.mem_append.mp hi with hi | hi
      · have := h.bound (by omega) c (List.mem_of_getElem? hc) i hi
        omega
      · have := (hf.bounds i hi).2
        omega

theorem Dealt.step (h : Dealt m w) (hs : (w.step e).state? = some w') :
    Dealt (m + w.callCount e) w' := by
  rcases step_cases hs with ⟨hnone, rfl⟩ | ⟨c, s', hc, rfl, ⟨rs, he, hf⟩ | ⟨r, rs, he, hf⟩⟩
  · have h0 : w'.callCount e = 0 := by
      rcases e with ⟨k, rs⟩ | ⟨k, r, rs⟩
      · rfl
      · change w'.conns[k]? = none at hnone
        cases r with
        | none => rfl
        | some chunk =>
            simp only [callCount]
            rw [hnone]
    rwa [h0]
  · rw [he]
    exact h.called hc (onReadyWrite_called hf)
  · rw [he]
    exact h.called hc (onReadyRead_called hc hf)

theorem requestCalls_concat (hrun : exec Swarm.step w es = some w') :
    w.requestCalls (es ++ [e]) = w.requestCalls es + w'.callCount e := by
  simp only [requestCalls]
  rw [steps_concat hrun, List.map_append, List.sum_append]
  rfl

/-- After every run, by the number of its calls. -/
theorem dealt_run (hrun : exec Swarm.step (init t id n) es = some w) :
    Dealt ((init t id n).requestCalls es) w := by
  induction es using List.reverseRecOn generalizing w with
  | nil =>
      cases Option.some.inj hrun
      exact dealt_init t id n
  | append_singleton es e ih =>
      obtain ⟨w1, hrun1, hstep⟩ := exec_concat_eq_some hrun
      rw [requestCalls_concat hrun1]
      exact (ih hrun1).step hstep

/-- No connection takes a piece twice. -/
theorem Dealt.nodup_conn (h : Dealt m w) (hm : m < 2 ^ 31) {c : Connection} (hc : c ∈ w.conns) :
    (tookPieces c.log).Nodup :=
  (List.nodup_flatMap.mp (h.nodup hm)).1 c hc

/-- No two connections take the same piece. -/
theorem Dealt.conn_unique (h : Dealt m w) (hm : m < 2 ^ 31) {k k' : Nat} {c c' : Connection}
    (hc : w.conns[k]? = some c) (hc' : w.conns[k']? = some c') {i : Int32}
    (hi : .took i ∈ c.log) (hi' : .took i ∈ c'.log) : k = k' := by
  have hpair := List.pairwise_iff_getElem.mp (List.nodup_flatMap.mp (h.nodup hm)).2
  obtain ⟨hk, rfl⟩ := List.getElem?_eq_some_iff.mp hc
  obtain ⟨hk', rfl⟩ := List.getElem?_eq_some_iff.mp hc'
  have hlt : ∀ {j j'} (hj : j < w.conns.length) (hj' : j' < w.conns.length),
      .took i ∈ (w.conns[j]).log → .took i ∈ (w.conns[j']).log → ¬ j < j' :=
    fun hj hj' hm hm' hjj => hpair _ _ hj hj' hjj (mem_tookPieces.mpr hm) (mem_tookPieces.mpr hm')
  have h1 := hlt hk hk' hi hi'
  have h2 := hlt hk' hk hi' hi
  omega

end Swarm

end NodeLink
