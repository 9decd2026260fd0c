import NodeLink.Download.FarmLoop
import NodeLink.Download.Shared
import NodeLink.Tracker.CompactPeers

/-!
# `Start`

`runWith` is `Farm::Run(checkComplete)` for a `checkComplete` that looks at the
state, with what `epoll_wait` returns turn by turn.  `start` is
`Downloader::Start`: at most five connections, and `IsComplete` as the test.

`IsComplete` never comes true for a torrent with a positive length, because
`downloaded_bytes` stays zero.  So `Start` does not return because a download is
complete (`start_returned_iff`).  It waits in `epoll_wait`, whatever the
handlers have done (`start_waiting_iff`).
-/

namespace NodeLink

open Cpp

namespace Farm

open Swarm

/-- How far a call that runs the event loop has come. -/
inductive End where
  /-- It has thrown. -/
  | threw (e : Exn)
  /-- It has returned. -/
  | returned (w : Swarm)
  /-- It is in `epoll_wait`. -/
  | waiting (w : Swarm)
  /-- A handler has run into undefined behaviour. -/
  | faulted

/-- `Run`, for the first results of `epoll_wait`. -/
def runWith (checkComplete : Swarm → Bool) (w : Swarm) : List Wait → End
  | [] => if w.conns = [] then .returned w else if checkComplete w then .returned w else .waiting w
  | r :: rs =>
      if w.conns = [] then .returned w
      else if checkComplete w then .returned w
      else
        match r with
        | .interrupted => runWith checkComplete w rs
        | .failed => .returned w
        | .ready events =>
            match run w events with
            | some w' => runWith checkComplete w' rs
            | none => .faulted

/-- `Run` without an argument. -/
def runForever (w : Swarm) (rs : List Wait) : End := runWith (fun _ => false) w rs

/-- The events a result of `epoll_wait` reports. -/
def Wait.events : Wait → List EpollEvent
  | .ready events => events
  | _ => []

/-- `epoll_wait` fails in one of the turns, and the turns before go through. -/
def Fails (w : Swarm) (rs : List Wait) : Prop :=
  ∃ pre post, rs = pre ++ .failed :: post ∧ .failed ∉ pre ∧
    (run w (pre.flatMap Wait.events)).isSome = true

variable {checkComplete : Swarm → Bool} {w w' : Swarm} {r : Wait} {rs : List Wait}

theorem not_fails_nil : ¬ Fails w [] := by
  rintro ⟨pre, post, h, -⟩
  exact absurd h.symm (List.append_ne_nil_of_right_ne_nil pre (List.cons_ne_nil _ _))

theorem fails_cons : Fails w (r :: rs) ↔ r = .failed ∨
    r ≠ .failed ∧ ∃ w', run w r.events = some w' ∧ Fails w' rs := by
  constructor
  · rintro ⟨pre, post, h, hpre, hrun⟩
    cases pre with
    | nil => exact .inl (List.cons.inj h).1
    | cons q pre =>
        obtain ⟨rfl, rfl⟩ := List.cons.inj h
        rw [List.flatMap_cons, run_append] at hrun
        obtain ⟨w2, hw2⟩ := Option.isSome_iff_exists.mp hrun
        obtain ⟨w1, hw1, hw2⟩ := Option.bind_eq_some_iff.mp hw2
        refine .inr ⟨fun hq => hpre (hq ▸ List.mem_cons_self), w1, hw1, pre, post, rfl, ?_, ?_⟩
        · exact fun hm => hpre (List.mem_cons_of_mem _ hm)
        · rw [hw2]
          rfl
  · rintro (rfl | ⟨hr, w1, hw1, pre, post, rfl, hpre, hrun⟩)
    · exact ⟨[], rs, rfl, List.not_mem_nil, rfl⟩
    · refine ⟨r :: pre, post, rfl, ?_, ?_⟩
      · rw [List.mem_cons, not_or]
        exact ⟨fun h => hr h.symm, hpre⟩
      · rw [List.flatMap_cons, run_append, hw1]
        exact hrun

/-- A loop whose test stays false is left only by an error of `epoll_wait`, if it is entered. -/
theorem runWith_returned_iff {P : Swarm → Prop}
    (hP : ∀ w evs w', P w → run w evs = some w' → P w') (hcheck : ∀ w, P w → checkComplete w = false)
    (h0 : P w) : (∃ w', runWith checkComplete w rs = .returned w') ↔ w.conns = [] ∨ Fails w rs := by
  by_cases hne : w.conns = []
  · refine ⟨fun _ => .inl hne, fun _ => ⟨w, ?_⟩⟩
    cases rs <;> exact if_pos hne
  rw [or_iff_right hne]
  induction rs generalizing w with
  | nil =>
      refine iff_of_false ?_ not_fails_nil
      rintro ⟨w', h⟩
      rw [runWith, if_neg hne, hcheck w h0] at h
      cases h
  | cons r rs ih =>
      rw [fails_cons]
      cases r with
      | interrupted =>
          have hrun : run w Wait.interrupted.events = some w := rfl
          simp only [runWith]
          rw [if_neg hne, hcheck w h0, if_neg Bool.false_ne_true, ih h0 hne, hrun]
          simp
      | failed =>
          simp only [runWith]
          rw [if_neg hne, hcheck w h0, if_neg Bool.false_ne_true]
          simp
      | ready events =>
          have hevents : (Wait.ready events).events = events := rfl
          simp only [runWith]
          rw [if_neg hne, hcheck w h0, if_neg Bool.false_ne_true, hevents]
          cases hrun : run w events with
          | none => simp
          | some w1 =>
              dsimp only
              rw [ih (hP w events w1 h0 hrun) (run_ne_nil hrun hne)]
              simp

/-- Where a loop whose test stays false waits after the results so far: in the state the handlers have
left. -/
theorem runWith_waiting_iff {P : Swarm → Prop}
    (hP : ∀ w evs w', P w → run w evs = some w' → P w') (hcheck : ∀ w, P w → checkComplete w = false)
    (h0 : P w) : runWith checkComplete w rs = .waiting w' ↔
      w.conns ≠ [] ∧ .failed ∉ rs ∧ run w (rs.flatMap Wait.events) = some w' := by
  by_cases hne : w.conns = []
  · refine iff_of_false (fun h => ?_) fun h => h.1 hne
    cases rs <;> simp [runWith, hne] at h
  induction rs generalizing w with
  | nil =>
      rw [runWith, if_neg hne, hcheck w h0, if_neg Bool.false_ne_true]
      have hrun : run w (([] : List Wait).flatMap Wait.events) = some w := rfl
      rw [hrun]
      simp [hne]
  | cons r rs ih =>
      rw [List.flatMap_cons, run_append, List.mem_cons, not_or]
      cases r with
      | interrupted =>
          have hrun : run w Wait.interrupted.events = some w := rfl
          simp only [runWith]
          rw [if_neg hne, hcheck w h0, if_neg Bool.false_ne_true, ih h0 hne, hrun]
          simp
      | failed =>
          simp only [runWith]
          rw [if_neg hne, hcheck w h0, if_neg Bool.false_ne_true]
          simp
      | ready events =>
          have hevents : (Wait.ready events).events = events := rfl
          simp only [runWith]
          rw [if_neg hne, hcheck w h0, if_neg Bool.false_ne_true, hevents]
          cases hrun : run w events with
          | none => simp
          | some w1 =>
              have hne1 := run_ne_nil hrun hne
              dsimp only
              rw [ih (hP w events w1 h0 hrun) hne1]
              simp [hne, hne1]

/-- The turns of `Run`, each with what `checkComplete` returns in it. -/
def rounds (checkComplete : Swarm → Bool) (w : Swarm) : List Wait → List Round
  | [] => []
  | r :: rs =>
      ⟨some (checkComplete w), r⟩ :: match run w r.events with
        | some w' => rounds checkComplete w' rs
        | none => []

/-- Where it is in `epoll_wait` after the results so far, one of its turns waits there. -/
theorem mem_waits_rounds (h : runWith checkComplete w rs = .waiting w') (next : Wait) :
    w' ∈ waits w (rounds checkComplete w (rs ++ [next])) := by
  induction rs generalizing w with
  | nil =>
      simp only [runWith] at h
      split_ifs at h with h1 h2
      cases h
      refine (mem_waits_cons h1).mpr ⟨?_, .inl rfl⟩
      exact congrArg some (Bool.eq_false_iff.mpr h2)
  | cons r rs ih =>
      have hne : w.conns ≠ [] := fun h0 => by
        cases r <;> simp [runWith, h0] at h
      have hcheck : checkComplete w = false := Bool.eq_false_iff.mpr fun h0 => by
        cases r <;> simp [runWith, hne, h0] at h
      have hgo : ∃ w1, run w r.events = some w1 ∧ r ≠ .failed ∧
          runWith checkComplete w1 rs = .waiting w' := by
        cases r with
        | interrupted => exact ⟨w, rfl, nofun, by simpa [runWith, hne, hcheck] using h⟩
        | failed => simp [runWith, hne, hcheck] at h
        | ready events =>
            cases hrun : run w events with
            | none => simp [runWith, hne, hcheck, hrun] at h
            | some w1 => exact ⟨w1, hrun, nofun, by simpa [runWith, hne, hcheck, hrun] using h⟩
      obtain ⟨w1, hrun, hr, hrest⟩ := hgo
      have hround : Round.events ⟨some (checkComplete w), r⟩ = r.events := rfl
      refine (mem_waits_cons hne).mpr
        ⟨congrArg some hcheck, .inr ⟨⟨congrArg some hcheck, hr⟩, w1, ?_, ?_⟩⟩
      · rw [hround, hrun]
      · simp only [hrun]
        exact ih hrest

end Farm

namespace Downloader

open Farm

/-- The peers `Start` makes connections to, where it has made `count` of them. -/
def chosen (count : Nat) : List Peer → List Peer
  | [] => []
  | p :: rest => if count ≥ 5 then [] else p :: chosen (count + 1) rest

/-- They are the first five. -/
theorem chosen_eq_take (count : Nat) (peers : List Peer) :
    chosen count peers = peers.take (5 - count) := by
  induction peers generalizing count with
  | nil => rw [chosen, List.take_nil]
  | cons p rest ih =>
      rw [chosen]
      by_cases hc : count ≥ 5
      · rw [if_pos hc, Nat.sub_eq_zero_of_le hc, List.take_zero]
      · have hsub : 5 - count = 5 - (count + 1) + 1 := by omega
        rw [if_neg hc, ih, hsub, List.take_succ_cons]

/-- What `Start` meets. -/
structure Surroundings where
  /-- `epoll_create1` makes an instance. -/
  epoll : Bool
  /-- How a peer's connection is added. -/
  attempt : Nat → Peer → Attempt
  /-- What `epoll_wait` returns, turn by turn. -/
  waits : List Wait

/-- The calls of `AddConnection`. -/
def Surroundings.attempts (env : Surroundings) (peers : List Peer) : List Attempt :=
  (chosen 0 peers).mapIdx env.attempt

/-- `Start`. -/
def start (t : TorrentFile) (id : Str) (peers : List Peer) (env : Surroundings) : End :=
  if !env.epoll then .threw (.runtimeError "Failed to create epoll")
  else runWith (fun w => w.dl.isComplete) (added t id (env.attempts peers)) env.waits

variable {t : TorrentFile} {id : Str} {peers : List Peer} {env : Surroundings} {w : Swarm}

/-- Nothing is counted as downloaded. -/
def Uncounted (t : TorrentFile) (d : Downloader) : Prop := d.torrent = t ∧ d.downloadedBytes = 0

theorem dlInvariant_uncounted (t : TorrentFile) : DlInvariant (Uncounted t) where
  block := fun h hr => ⟨(receive_sameFixed hr).1.trans h.1, (receive_downloadedBytes hr).trans h.2⟩
  counter := fun _ h => h

theorem Uncounted.isComplete_iff {d : Downloader} (h : Uncounted t d) :
    d.isComplete = true ↔ t.length.toInt ≤ 0 := by
  obtain ⟨rfl, h0⟩ := h
  rw [isComplete, decide_eq_true_iff, h0]
  exact Iff.rfl

theorem uncounted_added (attempts : List Attempt) : Uncounted t (added t id attempts).dl := by
  rw [added_eq_init]
  exact ⟨rfl, rfl⟩

theorem uncounted_run {evs : List EpollEvent} {w' : Swarm} (h : Uncounted t w.dl)
    (hr : run w evs = some w') : Uncounted t w'.dl :=
  (dlInvariant_uncounted t).exec h hr

theorem not_isComplete (hpos : 0 < t.length.toInt) (h : Uncounted t w.dl) :
    w.dl.isComplete = false :=
  Bool.eq_false_iff.mpr fun hc => absurd (h.isComplete_iff.mp hc) (Int.not_le.mpr hpos)

/-- `Start` returns if there is an epoll instance, and the file is empty by its length, or no
connection is added, or `epoll_wait` fails.  What has been downloaded does not count. -/
theorem start_returned_iff : (∃ w, start t id peers env = .returned w) ↔ env.epoll = true ∧
    (t.length.toInt ≤ 0 ∨ (∀ a ∈ env.attempts peers, ¬ a.Adds) ∨
      Fails (added t id (env.attempts peers)) env.waits) := by
  have h0 : Uncounted t (added t id (env.attempts peers)).dl := uncounted_added _
  rw [start]
  cases env.epoll with
  | false => simp
  | true =>
      simp only [Bool.not_true, Bool.false_eq_true, if_false, true_and]
      by_cases hpos : 0 < t.length.toInt
      · rw [runWith_returned_iff (P := fun w => Uncounted t w.dl) (fun _ _ _ => uncounted_run)
          (fun _ => not_isComplete hpos) h0, added_conns_eq_nil_iff,
          or_iff_right (Int.not_le.mpr hpos)]
      · have hle : t.length.toInt ≤ 0 := Int.not_lt.mp hpos
        have hc := h0.isComplete_iff.mpr hle
        refine iff_of_true ⟨added t id (env.attempts peers), ?_⟩ (.inl hle)
        cases env.waits <;> simp [runWith, hc]

/-- Otherwise it waits, in the state the handlers have left. -/
theorem start_waiting_iff : start t id peers env = .waiting w ↔
    env.epoll = true ∧ 0 < t.length.toInt ∧ (∃ a ∈ env.attempts peers, a.Adds) ∧
      .failed ∉ env.waits ∧
      run (added t id (env.attempts peers)) (env.waits.flatMap Wait.events) = some w := by
  have h0 : Uncounted t (added t id (env.attempts peers)).dl := uncounted_added _
  rw [start]
  cases env.epoll with
  | false => simp
  | true =>
      simp only [Bool.not_true, Bool.false_eq_true, if_false, true_and]
      by_cases hpos : 0 < t.length.toInt
      · rw [runWith_waiting_iff (P := fun w => Uncounted t w.dl) (fun _ _ _ => uncounted_run)
          (fun _ => not_isComplete hpos) h0, Ne, added_conns_eq_nil_iff]
        simp [hpos]
      · have hc := h0.isComplete_iff.mpr (Int.not_lt.mp hpos)
        refine iff_of_false (fun h => ?_) fun h => hpos h.1
        cases hw : env.waits <;> simp [runWith, hw, hc] at h

end Downloader

end NodeLink
