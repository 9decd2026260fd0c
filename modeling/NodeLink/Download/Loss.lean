import NodeLink.Download.Farm
import NodeLink.Download.Fate

/-!
# Pieces nobody asks for any more

A piece belongs to the connection that has taken it, for the rest of the run: no
other connection ever asks for a block of it (`askedFor_of_took`).  So what a
connection has not asked for when its socket is dropped is asked of nobody,
whatever the other peers have and whatever they send (`lost_for_good`).
-/

namespace NodeLink

open Cpp

namespace Swarm

variable {t : TorrentFile} {id : Str} {n k : Nat} {es es' : List Call} {w w' : Swarm}
  {c : Connection} {p : Int32}

/-- Without a socket, a connection stays as it is. -/
theorem exec_conn_of_closed (hc : w.conns[k]? = some c) (hcl : c.socket = false)
    (hrun : exec step w es = some w') : w'.conns[k]? = some c := by
  refine exec_invariant (P := fun w => w.conns[k]? = some c) ?_ hc hrun
  intro w1 e w2 _ hc1 hs
  by_cases hk : e.conn = k
  · rw [step_of_closed (hk ▸ hc1) hcl] at hs
    exact Option.some.inj hs ▸ hc1
  · exact (step_conns_of_ne hs (Ne.symm hk)).trans hc1

/-- A piece that one connection has taken is asked for on no other one. -/
theorem askedFor_of_took (ht : t.Consistent) (hp : t.pieceLength.toInt < 2 ^ 31)
    (hrun : exec step (init t id n) es = some w) (hcalls : (init t id n).requestCalls es < 2 ^ 31)
    (hc : w.conns[k]? = some c) (htook : .took p ∈ c.log) {k' : Nat} {c' : Connection}
    (hc' : w.conns[k']? = some c') (hk : k' ≠ k) : askedFor c'.log p = [] := by
  have hinv := (askInv_open ht hp).forall_conn (askInv_init t) hrun c' (List.mem_of_getElem? hc')
  refine hinv.askedFor_of_not_took fun htook' => ?_
  exact hk ((dealt_run hrun).conn_unique hcalls hc' hc htook' htook)

/-- A connection that has taken a piece has lost its socket.  Whatever happens next, it asks for
nothing more, and no other connection ever asks for a block of the piece. -/
theorem lost_for_good (ht : t.Consistent) (hp : t.pieceLength.toInt < 2 ^ 31)
    (hrun : exec step (init t id n) es = some w) (hc : w.conns[k]? = some c)
    (hcl : c.socket = false) (htook : .took p ∈ c.log) (hrun' : exec step w es' = some w')
    (hcalls : (init t id n).requestCalls (es ++ es') < 2 ^ 31) :
    w'.conns[k]? = some c ∧
      ∀ k' c', w'.conns[k']? = some c' → k' ≠ k → askedFor c'.log p = [] := by
  have hc1 := exec_conn_of_closed hc hcl hrun'
  have hwhole : exec step (init t id n) (es ++ es') = some w' := by
    rw [exec_append, hrun]
    exact hrun'
  exact ⟨hc1, fun k' c' hc' hk => askedFor_of_took ht hp hwhole hcalls hc1 htook hc' hk⟩

/-- A peer that has both pieces unchokes the other connection. -/
def otherPeer : List Call :=
  [.write 1 [], .read 1 (some ⟨List.replicate 68 0, start_length_le⟩) [],
    .read 1 (some ⟨Message.frame Message.bitfield [0xC0] ++ Message.buildUnchoke, has_length_le⟩) []]

/-- It is asked for piece 1 only: piece 0 went with the first connection. -/
theorem lost_for_good_otherPeer :
    ∃ w w' c', exec step (init Downloader.twoBytes [] 2) dropped = some w ∧
      exec step w otherPeer = some w' ∧ w'.conns[1]? = some c' ∧
      asked c'.log = [Request.ofBlock 1 1 0] ∧ askedFor c'.log 0 = [] := by
  have ht : Downloader.twoBytes.Consistent := ⟨by decide, by decide, by decide⟩
  have hfirst : ((exec step (init Downloader.twoBytes [] 2) dropped).bind fun w =>
      w.conns[0]?.map fun c => (c.socket, tookPieces c.log)) = some (false, [0]) := by decide +kernel
  have hthen : ((exec step (init Downloader.twoBytes [] 2) (dropped ++ otherPeer)).bind fun w =>
      w.conns[1]?.map fun c => asked c.log) = some [Request.ofBlock 1 1 0] := by decide +kernel
  obtain ⟨w, hrun, hw⟩ := Option.bind_eq_some_iff.mp hfirst
  obtain ⟨c, hc, hcl⟩ := Option.map_eq_some_iff.mp hw
  obtain ⟨w', hrun', hw'⟩ := Option.bind_eq_some_iff.mp hthen
  obtain ⟨c', hc', hasked⟩ := Option.map_eq_some_iff.mp hw'
  rw [exec_append, hrun, Option.bind_some] at hrun'
  have htook : .took 0 ∈ c.log := by
    rw [← mem_tookPieces, (Prod.mk.inj hcl).2]
    exact List.mem_singleton_self _
  have hlost := lost_for_good ht (by decide) hrun hc (Prod.mk.inj hcl).1 htook hrun'
    (by decide +kernel)
  exact ⟨w, w', c', hrun, hrun', hc', hasked, hlost.2 1 c' hc' (by decide)⟩

end Swarm

end NodeLink
