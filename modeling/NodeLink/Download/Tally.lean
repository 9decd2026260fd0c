import NodeLink.Download.Candidates

/-!
# What the calls of `GetNextPieceToRequest` add up to

`requestCalls` counts the calls along the code.  A relation between two states
that says what `m` calls do is shown for a whole event from what it says of a
single call: the counter is past the pieces, the peer has the candidate, or it
does not.  `Tally R` is this, with the composition of calls and the steps that
make none; `Tally.onReadyWrite` and `Tally.onReadyRead` are the events.
-/

namespace NodeLink

open Cpp

/-- The piece an event drew from the counter. -/
def Event.drawn? : Event → Option Int32
  | .took i => some i
  | .skipped i => some i
  | _ => none

/-- The pieces a log drew, in order. -/
def drawnPieces (log : List Event) : List Int32 := log.filterMap Event.drawn?

theorem drawnPieces_append (log log' : List Event) :
    drawnPieces (log ++ log') = drawnPieces log ++ drawnPieces log' :=
  List.filterMap_append

namespace Session

variable {s s' : Session} {id : UInt8} {payload : Buffer} {m : Nat}

/-- What `m` calls do, from what one call does. -/
structure Tally (R : Nat → Session → Session → Prop) : Prop where
  none : ∀ {s s'} es, s'.dl.torrent = s.dl.torrent → s'.dl.nextReqIndex = s.dl.nextReqIndex →
    s'.conn.log = s.conn.log ++ es → drawnPieces es = [] → R 0 s s'
  trans : ∀ {m m' s1 s2 s3}, R m s1 s2 → R m' s2 s3 → R (m + m') s1 s3
  ended : ∀ {s : Session}, s.nextCandidate.1 = -1 → R 1 s s.nextCandidate.2
  took : ∀ {s : Session}, s.nextCandidate.1 ≠ -1 → R 1 s (s.nextCandidate.2.take s.nextCandidate.1)
  skipped : ∀ {s : Session}, s.nextCandidate.1 ≠ -1 →
    R 1 s (s.nextCandidate.2.skip s.nextCandidate.1)

variable {R : Nat → Session → Session → Prop} (hR : Tally R)

include hR

/-- Without a call and without an event. -/
theorem Tally.quiet (ht : s'.dl.torrent = s.dl.torrent)
    (hn : s'.dl.nextReqIndex = s.dl.nextReqIndex) (hl : s'.conn.log = s.conn.log) : R 0 s s' :=
  hR.none [] ht hn (hl.trans (List.append_nil _).symm) rfl

theorem Tally.of_findPiece (left : Nat) (s : Session) :
    R (findPieceCalls left s) s (findPiece left s).2 := by
  induction left generalizing s with
  | zero =>
      simp only [findPiece, tryCandidate, findPieceCalls]
      by_cases hend : s.nextCandidate.1 = -1
      · rw [if_pos hend]
        exact hR.ended hend
      · rw [if_neg hend]
        split
        · exact hR.took hend
        · exact hR.skipped hend
  | succ left ih =>
      simp only [findPiece, tryCandidate, findPieceCalls]
      by_cases hend : s.nextCandidate.1 = -1
      · rw [if_pos hend, if_pos (.inl hend)]
        exact hR.ended hend
      · rw [if_neg hend]
        by_cases hhas : s.nextCandidate.2.conn.hasPiece s.nextCandidate.1 = true
        · rw [if_pos hhas, if_pos (.inr hhas)]
          exact hR.took hend
        · rw [if_neg hhas, if_neg fun h => h.elim hend hhas]
          exact hR.trans (hR.skipped hend) (ih _)

theorem Tally.of_requestBlock (h : s.requestBlock.state? = some s') : R 0 s s' := by
  have hfin : ∀ (s : Session) n, (s.finishPiece n).dl = s.dl ∧
      (s.finishPiece n).conn.log = s.conn.log := by
    intro s n
    simp only [finishPiece]
    split <;> exact ⟨rfl, rfl⟩
  rcases requestBlock_cases h with ⟨n, -, ⟨-, -, rfl⟩ | ⟨-, -, rfl⟩ | ⟨-, e, -, rfl⟩⟩
  · exact hR.quiet (congrArg _ (hfin s n).1) (congrArg _ (hfin s n).1) (hfin s n).2
  · exact hR.none [.sent (s.request n)] (congrArg _ (hfin _ n).1) (congrArg _ (hfin _ n).1)
      (hfin _ n).2 rfl
  · exact hR.none [.sent (s.request n)] rfl rfl rfl rfl

theorem Tally.of_requestNextBlock (h : s.requestNextBlock.state? = some s') :
    R s.requestNextBlockCalls s s' := by
  simp only [requestNextBlock, requestNextBlockCalls] at h ⊢
  by_cases hc : s.conn.choked = true
  · rw [if_pos hc] at h
    cases Option.some.inj h
    rw [if_pos (.inl hc)]
    exact hR.quiet rfl rfl rfl
  rw [if_neg hc] at h
  by_cases hp : s.conn.currentPiece = -1
  · rw [if_pos hp] at h
    rw [if_neg fun h => h.elim hc fun h => h hp]
    have hfind := hR.of_findPiece s.dl.torrent.pieceHashes.length s
    split at h
    · exact hR.trans hfind (hR.of_requestBlock h)
    · cases Option.some.inj h
      exact hfind
  · rw [if_neg hp] at h
    rw [if_pos (.inr hp)]
    exact hR.of_requestBlock h

theorem Tally.of_delivered {c : Downloader.Call} {d : Downloader}
    (h : (Downloader.receive s.dl c).state? = some d) : R 0 s (s.delivered d) := by
  obtain ⟨ht, -, hn⟩ := Downloader.receive_sameFixed h
  exact hR.quiet ht hn rfl

theorem Tally.of_onPiece (h : (s.onPiece payload).state? = some s') :
    R (s.onPieceCalls payload) s s' := by
  simp only [onPieceCalls]
  rcases onPiece_cases h with ⟨h8, rfl, -⟩ | ⟨h8, d, hd, ⟨e, hr, -, rfl⟩ | ⟨hr, -, hn⟩⟩
  · rw [if_pos h8]
    exact hR.quiet rfl rfl rfl
  · rw [if_neg (by omega), hr]
    exact hR.of_delivered hd
  · rw [if_neg (by omega), hr]
    have htally := hR.trans (hR.of_delivered hd) (hR.of_requestNextBlock hn)
    rwa [Nat.zero_add] at htally

theorem Tally.of_dispatch (h : (s.dispatch id payload).state? = some s') :
    R (s.dispatchCalls id payload) s s' := by
  have hquiet : ∀ s1 : Session, s1.dl = s.dl → s1.conn.log = s.conn.log → R 0 s s1 :=
    fun s1 hdl hlog => hR.quiet (congrArg _ hdl) (congrArg _ hdl) hlog
  simp only [dispatchCalls]
  rcases dispatch_cases s id payload with
      ⟨hid, hd⟩ | ⟨hid, hd⟩ | ⟨hid, hd⟩ | ⟨hid, hd⟩ | ⟨h1, -, -, h2, hd⟩ <;> rw [hd] at h
  · rw [if_pos hid]
    have htally := hR.trans (hquiet s.unchoked rfl rfl) (hR.of_requestNextBlock h)
    rwa [Nat.zero_add] at htally
  · cases Option.some.inj h
    rw [hid]
    exact hquiet _ rfl rfl
  · cases Option.some.inj h
    rw [hid]
    exact hquiet _ rfl rfl
  · rw [hid]
    exact hR.of_onPiece h
  · cases Option.some.inj h
    rw [if_neg h1, if_neg h2]
    exact hquiet _ rfl rfl

theorem Tally.of_pass {o : Outcome Exn Fault Session} (hp : s.pass = some o)
    (ho : o.state? = some s') : R s.passCalls s s' := by
  simp only [passCalls]
  rcases pass_state_cases hp ho with
      ⟨hs, rest, hst, -, -, rfl⟩ | ⟨rest, hst, hb, rfl⟩ | ⟨id, payload, rest, hst, hb, hlen, rfl⟩
  · rw [if_pos (.inl hst)]
    exact hR.none [.handshake hs, .sent Message.buildInterested] rfl rfl
      (List.append_assoc ..) rfl
  · rw [hb, if_pos (.inr (Message.readMessageLength_keepAlive rest))]
    exact hR.none [.keepAlive] rfl rfl rfl rfl
  · obtain ⟨h0, htake⟩ := takeFrame_announced id hlen rest
    rw [hb, if_neg fun h => h.elim hst h0, htake]
    have hframed : R 0 s (s.framed id payload rest) :=
      hR.none [.frame id payload] rfl rfl rfl rfl
    have htally := hR.trans hframed (hR.of_dispatch ho)
    rwa [Nat.zero_add] at htally

theorem Tally.of_processBuffer (h : s.processBuffer.state? = some s') :
    R (consumer.drainCost passCalls s) s s' := by
  simp only [processBuffer] at h
  induction s using Stream.Consumer.drain_induction (c := consumer) with
  | step s ih =>
      rw [Stream.Consumer.drain_eq] at h
      cases hp : consumer.pass s with
      | none =>
          rw [hp] at h
          cases Option.some.inj h
          rw [Stream.Consumer.drainCost_of_none hp]
          exact hR.quiet rfl rfl rfl
      | some o =>
          rw [hp] at h
          cases o with
          | ok s1 =>
              rw [Stream.Consumer.drainCost_of_ok hp]
              exact hR.trans (hR.of_pass hp rfl) (ih s1 hp h)
          | throw e s1 =>
              cases Option.some.inj h
              rw [Stream.Consumer.drainCost_of_throw hp]
              exact hR.of_pass hp rfl
          | fault f => cases h

theorem Tally.of_onReadyWrite (h : s.onReadyWrite.state? = some s') : R 0 s s' := by
  rcases Swarm.onReadyWrite_cases s with ⟨-, hw⟩ | ⟨-, -, hw | hw⟩ <;> rw [hw] at h <;>
    cases Option.some.inj h
  · exact hR.quiet rfl rfl rfl
  · exact hR.none [.sent _] rfl rfl rfl rfl
  · exact hR.none [.sent _] rfl rfl rfl rfl

omit hR in
theorem callCount_of_none {w : Swarm} {e : Swarm.Call} (h : w.conns[e.conn]? = none) :
    w.callCount e = 0 := by
  rcases e with ⟨k, rs⟩ | ⟨k, r, rs⟩
  · rfl
  · cases r with
    | none => rfl
    | some chunk =>
        change w.conns[k]? = none at h
        simp only [Swarm.callCount]
        rw [h]

omit hR in
/-- A read that reaches no pass makes no call. -/
theorem callCount_read {w : Swarm} {k : Nat} {c : Connection} {r : Option Chunk} {rs : List Bool}
    (hc : w.conns[k]? = some c)
    (hquiet : c.socket = false ∨ ∀ chunk, r = some chunk → chunk.bytes = []) :
    w.callCount (.read k r rs) = 0 := by
  cases r with
  | none => rfl
  | some chunk =>
      simp only [Swarm.callCount]
      rw [hc]
      refine if_neg fun h => ?_
      rcases hquiet with hcl | hempty
      · exact Bool.false_ne_true (hcl.symm.trans h.1)
      · exact h.2 (hempty chunk rfl)

theorem Tally.of_onReadyRead {w : Swarm} {c : Connection} {rs : List Bool} {k : Nat}
    {r : Option Chunk} (hc : w.conns[k]? = some c)
    (h : (onReadyRead ⟨c, w.dl, rs⟩ r).state? = some s') :
    R (w.callCount (.read k r rs)) ⟨c, w.dl, rs⟩ s' := by
  rcases Swarm.onReadyRead_cases ⟨c, w.dl, rs⟩ r with
      ⟨hcl, hr⟩ | ⟨-, hempty, hr⟩ | ⟨hopen, chunk, rfl, hne, hr⟩ <;> rw [hr] at h
  · cases Option.some.inj h
    rw [callCount_read hc (.inl hcl)]
    exact hR.quiet rfl rfl rfl
  · cases Option.some.inj h
    rw [callCount_read hc (.inr hempty)]
    exact hR.quiet rfl rfl rfl
  · have hcount : w.callCount (.read k (some chunk) rs) = consumer.drainCost passCalls
        ((⟨c, w.dl, rs⟩ : Session).append chunk.bytes) := by
      simp only [Swarm.callCount]
      rw [hc]
      exact if_pos ⟨hopen, hne⟩
    have hread : R 0 ⟨c, w.dl, rs⟩ ((⟨c, w.dl, rs⟩ : Session).append chunk.bytes) :=
      hR.quiet rfl rfl rfl
    rw [hcount]
    rcases Swarm.catching_state? h with ho | ⟨ex, s1, ho, rfl⟩
    · have htally := hR.trans hread (hR.of_processBuffer (congrArg Outcome.state? ho))
      rwa [Nat.zero_add] at htally
    · have hclosed : R 0 s1 s1.close := hR.quiet rfl rfl rfl
      have htally := hR.trans hread
        (hR.trans (hR.of_processBuffer (congrArg Outcome.state? ho)) hclosed)
      rwa [Nat.zero_add, Nat.add_zero] at htally

end Session

end NodeLink
