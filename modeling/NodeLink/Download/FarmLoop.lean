import NodeLink.Download.Farm

/-!
# When the event loop ends

`AddConnection` adds a connection to the vector of the farm if it has a socket
and `epoll_ctl` takes it.  `Run` goes round while the vector is not empty.  It
asks `checkComplete`, waits, and calls the handlers.

A connection whose socket is gone stays in the vector (`run_length`).  So the
loop does not end when the last socket is dropped, and only `checkComplete` or a
failing `epoll_wait` can end it.  `endsOnceDropped_iff` says in which runs it
does not wait any more.
-/

namespace NodeLink

open Cpp

namespace Farm

open Swarm

/-! ## The farm -/

/-- How `AddConnection` goes. -/
structure Attempt where
  /-- `Connect` leaves a socket. -/
  connects : Bool
  /-- `epoll_ctl` takes it. -/
  registers : Bool
deriving DecidableEq, Repr

/-- `AddConnection`. -/
def addConnection (w : Swarm) (a : Attempt) : Swarm :=
  if a.connects then
    if a.registers then ⟨w.conns ++ [.init], w.dl⟩ else w
  else w

/-- The farm after its calls of `AddConnection`. -/
def added (t : TorrentFile) (id : Str) (attempts : List Attempt) : Swarm :=
  attempts.foldl addConnection ⟨[], .init t id⟩

/-- The connection ends up in the vector. -/
def Attempt.Adds (a : Attempt) : Prop := a.connects = true ∧ a.registers = true

instance (a : Attempt) : Decidable a.Adds := inferInstanceAs (Decidable (_ ∧ _))

variable {w w' : Swarm} {evs : List EpollEvent}

theorem addConnection_init (t : TorrentFile) (id : Str) (a : Attempt) (n : Nat) :
    addConnection (init t id n) a = init t id (n + if a.Adds then 1 else 0) := by
  obtain ⟨connects, registers⟩ := a
  cases connects with
  | false => rfl
  | true =>
      cases registers with
      | false => rfl
      | true => exact congrArg (Swarm.mk · _) List.replicate_succ'.symm

/-- A farm is a swarm of as many connections as were added. -/
theorem added_eq_init (t : TorrentFile) (id : Str) (attempts : List Attempt) :
    added t id attempts = init t id (attempts.countP (·.Adds)) := by
  induction attempts using List.reverseRecOn with
  | nil => rfl
  | append_singleton attempts a ih =>
      have hlast : added t id (attempts ++ [a]) = addConnection (added t id attempts) a :=
        List.foldl_concat ..
      rw [hlast, ih, addConnection_init, List.countP_append, List.countP_singleton]
      simp only [decide_eq_true_eq]

theorem added_conns_eq_nil_iff (t : TorrentFile) (id : Str) (attempts : List Attempt) :
    (added t id attempts).conns = [] ↔ ∀ a ∈ attempts, ¬ a.Adds := by
  rw [added_eq_init, init, List.replicate_eq_nil_iff, List.countP_eq_zero]
  simp only [decide_eq_true_eq]

/-! ## The loop -/

/-- What `epoll_wait` returns. -/
inductive Wait where
  /-- An error, with `EINTR`. -/
  | interrupted
  /-- Another error. -/
  | failed
  /-- Its events, none of them if the time is up. -/
  | ready (events : List EpollEvent)

/-- What a turn of the loop meets. -/
structure Round where
  /-- What `checkComplete` returns, or `none` if it throws. -/
  complete : Option Bool
  wait : Wait

/-- `Run`: the states in which it calls `epoll_wait`. -/
def waits (w : Swarm) : List Round → List Swarm
  | [] => []
  | r :: rounds =>
      if w.conns = [] then []
      else
        match r.complete with
        | some false =>
            w :: match r.wait with
              | .interrupted => waits w rounds
              | .failed => []
              | .ready events =>
                  match run w events with
                  | some w' => waits w' rounds
                  | none => []
        | _ => []

/-- Every connection of the farm has dropped its socket. -/
def Dropped (w : Swarm) : Prop := ∀ c ∈ w.conns, c.socket = false

instance (w : Swarm) : Decidable (Dropped w) := inferInstanceAs (Decidable (∀ c ∈ w.conns, _))

/-- Once every connection has dropped its socket, `Run` does not wait. -/
def EndsOnceDropped (w : Swarm) (rounds : List Round) : Prop :=
  ∀ w' ∈ waits w rounds, ¬ Dropped w'

namespace Round

/-- The events of a turn. -/
def events (r : Round) : List EpollEvent :=
  match r.wait with
  | .ready events => events
  | _ => []

/-- A turn that is followed by another one, unless a handler faults. -/
def Continues (r : Round) : Prop := r.complete = some false ∧ r.wait ≠ .failed

end Round

variable {r : Round} {rounds : List Round}

/-! ## The vector does not shrink -/

theorem step_length {e : Call} (h : (step w e).state? = some w') :
    w'.conns.length = w.conns.length := by
  obtain ⟨-, rfl⟩ | ⟨c, s', -, rfl, -⟩ := step_cases h
  · rfl
  · exact List.length_set

theorem run_length (h : run w evs = some w') : w'.conns.length = w.conns.length :=
  exec_invariant (P := fun w' => w'.conns.length = w.conns.length)
    (fun _ _ _ _ hlen hstep => (step_length hstep).trans hlen) rfl h

theorem run_ne_nil (h : run w evs = some w') (hne : w.conns ≠ []) : w'.conns ≠ [] := by
  rw [← List.length_pos_iff] at hne ⊢
  rw [run_length h]
  exact hne

theorem run_append (w : Swarm) (evs evs' : List EpollEvent) :
    run w (evs ++ evs') = (run w evs).bind fun w' => run w' evs' := by
  rw [run, calls, List.flatMap_append, exec_append]
  rfl

/-! ## When it waits -/

theorem waits_nil (h : w.conns = []) (rounds : List Round) : waits w rounds = [] := by
  cases rounds with
  | nil => rfl
  | cons r rounds => exact if_pos h

/-- The first turn waits if `checkComplete` returns `false`, and then the others may. -/
theorem mem_waits_cons (hne : w.conns ≠ []) :
    w' ∈ waits w (r :: rounds) ↔ r.complete = some false ∧
      (w' = w ∨ r.Continues ∧ ∃ w1, run w r.events = some w1 ∧ w' ∈ waits w1 rounds) := by
  obtain ⟨complete, wait⟩ := r
  rw [waits, if_neg hne]
  obtain _ | _ | _ := complete
  · simp
  · cases wait with
    | interrupted =>
        have hrun : run w (Round.events ⟨some false, .interrupted⟩) = some w := rfl
        simp [hrun, Round.Continues]
    | failed => simp [Round.Continues]
    | ready events =>
        have hevents : Round.events ⟨some false, .ready events⟩ = events := rfl
        rw [hevents]
        cases hrun : run w events with
        | none => simp [hrun]
        | some w1 => simp [hrun, Round.Continues]
  · simp

/-- `Run` waits in the states that the events of the turns before lead to, where the farm has a
connection and `checkComplete` returns `false`. -/
theorem mem_waits_iff : w' ∈ waits w rounds ↔ w.conns ≠ [] ∧ ∃ pre r post,
    rounds = pre ++ r :: post ∧ (∀ q ∈ pre, q.Continues) ∧
      run w (pre.flatMap Round.events) = some w' ∧ r.complete = some false := by
  by_cases hne : w.conns = []
  · rw [waits_nil hne]
    exact ⟨fun h => absurd h List.not_mem_nil, fun h => absurd hne h.1⟩
  induction rounds generalizing w with
  | nil =>
      refine ⟨fun h => absurd h List.not_mem_nil, ?_⟩
      rintro ⟨-, pre, r, post, h, -⟩
      exact absurd h.symm (List.append_ne_nil_of_right_ne_nil pre (List.cons_ne_nil r post))
  | cons r rounds ih =>
      rw [mem_waits_cons hne]
      constructor
      · rintro ⟨hr, rfl | ⟨hcont, w1, hrun, hw⟩⟩
        · exact ⟨hne, [], r, rounds, rfl, fun q hq => absurd hq List.not_mem_nil, rfl, hr⟩
        · obtain ⟨-, pre, r', post, rfl, hpre, hrun', hr'⟩ := (ih (run_ne_nil hrun hne)).mp hw
          refine ⟨hne, r :: pre, r', post, rfl, List.forall_mem_cons.mpr ⟨hcont, hpre⟩, ?_, hr'⟩
          rw [List.flatMap_cons, run_append, hrun]
          exact hrun'
      · rintro ⟨-, pre, r', post, heq, hpre, hrun, hr'⟩
        cases pre with
        | nil =>
            cases heq
            exact ⟨hr', .inl (Option.some.inj hrun).symm⟩
        | cons q pre =>
            cases heq
            obtain ⟨hcont, hpre⟩ := List.forall_mem_cons.mp hpre
            rw [List.flatMap_cons, run_append] at hrun
            obtain ⟨w1, hrun1, hrun⟩ := Option.bind_eq_some_iff.mp hrun
            refine ⟨hcont.1, .inr ⟨hcont, w1, hrun1, ?_⟩⟩
            exact (ih (run_ne_nil hrun1 hne)).mpr
              ⟨run_ne_nil hrun1 hne, pre, r', post, rfl, hpre, hrun, hr'⟩

/-! ## Without a socket -/

theorem step_of_dropped (h : Dropped w) (e : Call) : step w e = .ok w := by
  cases hc : w.conns[e.conn]? with
  | none => cases e <;> simp only [Call.conn] at hc <;> simp only [step, onConn, hc]
  | some c => exact step_of_closed hc (h c (List.mem_of_getElem? hc))

theorem run_of_dropped (h : Dropped w) (evs : List EpollEvent) : run w evs = some w := by
  rw [run]
  induction calls evs with
  | nil => rfl
  | cons e es ih =>
      rw [exec_cons_of_state? (by rw [step_of_dropped h e, Outcome.state?_ok])]
      exact ih

/-- A farm whose sockets are all gone waits as long as `checkComplete` returns `false` and
`epoll_wait` does not fail, and nothing changes. -/
theorem waits_of_dropped (h : Dropped w) (hne : w.conns ≠ [])
    (hrounds : ∀ r ∈ rounds, r.Continues) : waits w rounds = List.replicate rounds.length w := by
  induction rounds with
  | nil => rfl
  | cons r rounds ih =>
      obtain ⟨⟨hcomplete, hwait⟩, hrest⟩ := List.forall_mem_cons.mp hrounds
      obtain ⟨complete, wait⟩ := r
      obtain rfl : complete = some false := hcomplete
      rw [waits, if_neg hne, List.length_cons, List.replicate_succ, ← ih hrest]
      cases wait with
      | interrupted => rfl
      | failed => exact absurd rfl hwait
      | ready events => simp only [run_of_dropped h events]

/-- In every run of every farm: `Run` does not wait once every socket is dropped if and only if the
farm was empty from the start, or `checkComplete` does not return `false` where the turns before
have left no socket. -/
theorem endsOnceDropped_iff (t : TorrentFile) (id : Str) (attempts : List Attempt)
    (rounds : List Round) :
    EndsOnceDropped (added t id attempts) rounds ↔ (∀ a ∈ attempts, ¬ a.Adds) ∨
      ∀ pre r post w, rounds = pre ++ r :: post → (∀ q ∈ pre, q.Continues) →
        run (added t id attempts) (pre.flatMap Round.events) = some w → Dropped w →
          r.complete ≠ some false := by
  rw [← added_conns_eq_nil_iff t id]
  constructor
  · intro h
    refine or_iff_not_imp_left.mpr fun hne pre r post w hrounds hpre hrun hdropped hr => ?_
    exact h w (mem_waits_iff.mpr ⟨hne, pre, r, post, hrounds, hpre, hrun, hr⟩) hdropped
  · intro h w hw hdropped
    obtain ⟨hne, pre, r, post, hrounds, hpre, hrun, hr⟩ := mem_waits_iff.mp hw
    exact h.resolve_left hne pre r post w hrounds hpre hrun hdropped hr

/-- A peer that ends the stream, and a turn after it. -/
def hangUp : List Round :=
  [⟨some false, .ready [⟨0, none, some (some ⟨[], Nat.zero_le _⟩, [])⟩]⟩, ⟨some false, .ready []⟩]

/-- The only connection has dropped its socket, and `Run` waits again. -/
theorem not_endsOnceDropped_hangUp :
    ¬ EndsOnceDropped (added Downloader.twoBytes [] [⟨true, true⟩]) hangUp := by
  intro h
  refine h ⟨[Connection.init.close], .init Downloader.twoBytes []⟩ ?_ (by decide)
  exact List.mem_cons_of_mem _ List.mem_cons_self

end Farm

end NodeLink
