import NodeLink.Download.Disk

/-!
# The writer comes to its end

Once the destructor waits in `join`, only the consumer and the return of `join`
are left, and every action brings the end closer (`remaining`).  No state before
the end is stuck.  So however the actions go on, `join` returns after a bounded
number of them, and then every job has been written (`join_returns`).

Before the destructor begins, the consumer can empty the queue and go to sleep
(`empties`).
-/

namespace NodeLink

namespace WriterThread

variable {w w' : WriterThread} {as bs : List Action} {a : Action} {opened : Bool}

/-- The destructor waits in `join`, or has returned. -/
structure Joining (w : WriterThread) : Prop where
  exits : ExitInv w
  sleeps : SleepInv w
  joins : w.destructor = .joining ∨ w.destructor = .returned

/-- How many actions are left: those of the consumer, and the return of `join`. -/
def remaining (w : WriterThread) : Nat := w.distance + if w.destructor = .returned then 0 else 1

theorem run_sleepInv (h : (machine opened).run as = some w) : SleepInv w :=
  (Machine.run_induction (P := fun _ w => ExitInv w ∧ SleepInv w) ⟨exitInv_init, sleepInv_init⟩
    (fun _ _ _ _ hi hs => ⟨step_exitInv hi.1 hs, step_sleepInv hi.1 hi.2 hs⟩) h).2

namespace Joining

theorem stopFlag (h : Joining w) : w.stopFlag = true :=
  h.exits.1.mpr (by rcases h.joins with hd | hd <;> rw [hd] <;> nofun)

theorem not_asleep (h : Joining w) : w.consumer ≠ .asleep := by
  intro hc
  rcases (h.sleeps hc).2 with hd | hd <;> rcases h.joins with hd' | hd' <;> rw [hd] at hd' <;> cases hd'

/-- A section under the lock takes a job or leaves the loop. -/
theorem next_distance (h : Joining w) (top : Consumer) :
    (w.next top).destructor = w.destructor ∧ (w.next top).distance < 2 * w.q.length + 1 := by
  rcases next_cases w top with ⟨j, q, hq, hn⟩ | ⟨hq, hn⟩ <;> rw [hn]
  · refine ⟨rfl, ?_⟩
    simp only [distance]
    rw [hq, List.length_cons]
    omega
  · refine ⟨rfl, ?_⟩
    simp only [distance, h.stopFlag, if_true]
    omega

/-- Every action that is possible brings the end closer. -/
theorem step (h : Joining w) (hs : step w a = some w') : Joining w' ∧ w'.remaining < w.remaining := by
  have hexit := step_exitInv h.exits hs
  have hsleep := step_sleepInv h.exits h.sleeps hs
  rcases step_cases hs with ⟨b, offset, rfl, hd, rfl⟩ | ⟨rfl, hd, rfl⟩ | ⟨rfl, hd, rfl⟩ |
    ⟨rfl, hd, hc, rfl⟩ | ⟨rfl, hc, rfl⟩ | ⟨rfl, hc, rfl⟩ | ⟨j, rfl, hc, rfl⟩ | ⟨rfl, hc, rfl⟩
  · rcases h.joins with hd' | hd' <;> rw [hd] at hd' <;> cases hd'
  · rcases h.joins with hd' | hd' <;> rw [hd] at hd' <;> cases hd'
  · rcases h.joins with hd' | hd' <;> rw [hd] at hd' <;> cases hd'
  · refine ⟨⟨hexit, hsleep, .inr rfl⟩, ?_⟩
    simp only [remaining, distance, hd, hc, if_true]
    exact Nat.lt_succ_self _
  · exact absurd hc h.not_asleep
  · obtain ⟨hd, hlt⟩ := h.next_distance .asleep
    refine ⟨⟨hexit, hsleep, hd ▸ h.joins⟩, ?_⟩
    have hdist : w.distance = 2 * w.q.length + 1 := by simp only [distance, hc]
    simp only [remaining]
    rw [hd, hdist]
    omega
  · refine ⟨⟨hexit, hsleep, h.joins⟩, ?_⟩
    have hdist : w.distance = 2 * w.q.length + 2 := by simp only [distance, hc]
    simp only [remaining]
    rw [hdist]
    simp only [distance]
    omega
  · obtain ⟨hd, hlt⟩ := h.next_distance .ready
    refine ⟨⟨hexit, hsleep, hd ▸ h.joins⟩, ?_⟩
    have hdist : w.distance = 2 * w.q.length + 1 := by simp only [distance, hc]
    simp only [remaining]
    rw [hd, hdist]
    omega

/-- Nothing is added any more. -/
theorem jobs (h : Joining w) (hs : WriterThread.step w a = some w') : w'.jobs = w.jobs := by
  rw [step_jobs hs]
  cases a with
  | add b offset =>
      have hidle : w.destructor = .idle := by
        by_contra hd
        simp only [WriterThread.step] at hs
        rw [if_neg hd] at hs
        cases hs
      rcases h.joins with hd | hd <;> rw [hidle] at hd <;> cases hd
  | _ => exact List.append_nil _

/-- Until `join` has returned, some action is possible. -/
theorem not_stuck (h : Joining w) (hd : w.destructor ≠ .returned) :
    ∃ a w', WriterThread.step w a = some w' := by
  have hj : w.destructor = .joining := h.joins.resolve_right hd
  cases hc : w.consumer with
  | exited => exact ⟨.join, _, if_pos ⟨hj, hc⟩⟩
  | asleep => exact absurd hc h.not_asleep
  | ready => exact ⟨.enter, _, if_pos hc⟩
  | relocking => exact ⟨.relock, _, if_pos hc⟩
  | writing j =>
      refine ⟨.write, { w with
        out := w.out.write j, consumer := .relocking, written := w.written ++ [j] }, ?_⟩
      simp only [WriterThread.step]
      rw [hc]

end Joining

theorem joining_of_run (h : (machine opened).run as = some w) (hd : w.destructor = .joining) :
    Joining w :=
  ⟨run_exitInv h, run_sleepInv h, .inl hd⟩

/-- Once the destructor waits in `join`, nothing goes on for ever and nothing is stuck: however the
actions follow each other, there are at most two for each job in the queue and three more, and if
`join` has not returned one more is possible.  When it has, the writes of all jobs ever added have
been made, in order. -/
theorem join_returns (h : (machine opened).run as = some w) (hd : w.destructor = .joining)
    (h' : (machine opened).runFrom w bs = some w') :
    bs.length ≤ 2 * w.q.length + 3 ∧
      (w'.destructor ≠ .returned → ∃ a w'', (machine opened).step w' a = some w'') ∧
      (w'.destructor = .returned →
        w'.written = added as ∧ w'.out = (OutFile.fresh opened).writeAll (added as)) := by
  obtain ⟨⟨hjoin, hjobs⟩, hlen⟩ := Machine.runFrom_length_le (μ := remaining)
    (I := fun w1 => Joining w1 ∧ w1.jobs = w.jobs)
    (fun _ _ _ hi hs => ⟨⟨(hi.1.step hs).1, (hi.1.jobs hs).trans hi.2⟩, (hi.1.step hs).2⟩)
    ⟨joining_of_run h hd, rfl⟩ h'
  have hbound : w.remaining ≤ 2 * w.q.length + 3 := by
    rw [remaining, if_neg (by rw [hd]; nofun)]
    simp only [distance]
    split <;> omega
  refine ⟨by omega, hjoin.not_stuck, fun hret => ?_⟩
  have hwritten : w'.written = added as := by
    have hexited := hjoin.exits.2.2 hret
    rw [← run_jobs h, ← hjobs, jobs, inHand, hexited, (hjoin.exits.2.1 hexited).1]
    exact (List.append_nil _).symm
  refine ⟨hwritten, ?_⟩
  rw [← hwritten]
  exact run_out (Machine.run_append_of_runFrom h h')

/-- The destructor comes while a job waits in the queue. -/
theorem join_returns_oneJob :
    ∃ w w', (machine true).run [.enter, .add [1] 0, .stop, .notify] = some w ∧
      (machine true).runFrom w [.enter, .write, .relock, .join] = some w' ∧
      w'.destructor = .returned ∧ w'.written = [⟨[1], 0⟩] := by
  refine ⟨_, _, rfl, rfl, rfl, ?_⟩
  exact ((@join_returns _ _ [.enter, .add [1] 0, .stop, .notify] [.enter, .write, .relock, .join] true
    rfl rfl rfl).2.2 rfl).1

/-! ## Before the end -/

/-- An action of the consumer. -/
def Action.Consumes (a : Action) : Prop := a = .enter ∨ a = .write ∨ a = .relock

theorem Action.Consumes.jobs (h : a.Consumes) : a.job? = none ∧ a ≠ .stop := by
  rcases h with rfl | rfl | rfl <;> exact ⟨rfl, nofun⟩

theorem next_destructor (w : WriterThread) (top : Consumer) :
    (w.next top).destructor = w.destructor := by
  rcases next_cases w top with ⟨j, q, -, hn⟩ | ⟨-, hn⟩ <;> rw [hn]

theorem step_destructor (ha : a.Consumes) (hs : step w a = some w') :
    w'.destructor = w.destructor := by
  rcases ha with rfl | rfl | rfl <;> simp only [step] at hs
  · cases Option.some.inj (Option.ite_none_right_eq_some.mp hs).2
    exact next_destructor w _
  · split at hs
    · cases Option.some.inj hs
      rfl
    · cases hs
  · cases Option.some.inj (Option.ite_none_right_eq_some.mp hs).2
    exact next_destructor w _

/-- How far the consumer is from its sleep, as long as nothing is added. -/
def untilAsleep (w : WriterThread) : Nat :=
  match w.consumer with
  | .asleep | .exited => 0
  | .ready => 3 * w.q.length + 1
  | .relocking => 3 * w.q.length + 2
  | .writing _ => 3 * w.q.length + 3

/-- A section under the lock that finds the flag down takes a job or goes to `top`. -/
theorem next_untilAsleep (hs : w.stopFlag = false) (top : Consumer) :
    (w.next top).untilAsleep ≤ 3 * w.q.length ∧ w.q ≠ [] ∨
      w.q = [] ∧ w.next top = { w with consumer := top } := by
  rcases next_cases w top with ⟨j, q, hq, hn⟩ | ⟨hq, hn⟩
  · refine .inl ⟨?_, by rw [hq]; exact List.cons_ne_nil j q⟩
    rw [hn, hq]
    exact Nat.le_refl _
  · refine .inr ⟨hq, ?_⟩
    rw [hn, hs]
    rfl

/-- The destructor has not begun, and the jobs are those of some state. -/
structure Idle (js : List Job) (w : WriterThread) : Prop where
  exits : ExitInv w
  sleeps : SleepInv w
  idle : w.destructor = .idle
  jobs : w.jobs = js

namespace Idle

variable {js : List Job}

theorem stopFlag (h : Idle js w) : w.stopFlag = false := by
  by_contra hs
  exact h.exits.1.mp (by simpa using hs) h.idle

theorem step (h : Idle js w) (ha : a.Consumes) (hs : step w a = some w') : Idle js w' where
  exits := step_exitInv h.exits hs
  sleeps := step_sleepInv h.exits h.sleeps hs
  idle := (step_destructor ha hs).trans h.idle
  jobs := by
    rw [step_jobs hs, ha.jobs.1, ← h.jobs]
    exact List.append_nil _

/-- Awake, the consumer can take an action that brings it closer to its sleep. -/
theorem progress (h : Idle js w) (hc : w.consumer ≠ .asleep) :
    ∃ a w', a.Consumes ∧ WriterThread.step w a = some w' ∧ w'.untilAsleep < w.untilAsleep := by
  cases hcon : w.consumer with
  | asleep => exact absurd hcon hc
  | exited =>
      have := (h.exits.2.1 hcon).2
      rw [h.stopFlag] at this
      cases this
  | ready =>
      refine ⟨.enter, _, .inl rfl, if_pos hcon, ?_⟩
      rw [show w.untilAsleep = 3 * w.q.length + 1 by simp only [untilAsleep, hcon]]
      rcases next_untilAsleep h.stopFlag .asleep with ⟨hle, -⟩ | ⟨-, hn⟩
      · omega
      · rw [hn]
        exact Nat.succ_pos _
  | relocking =>
      refine ⟨.relock, _, .inr (.inr rfl), if_pos hcon, ?_⟩
      rw [show w.untilAsleep = 3 * w.q.length + 2 by simp only [untilAsleep, hcon]]
      rcases next_untilAsleep h.stopFlag .ready with ⟨hle, -⟩ | ⟨hq, hn⟩
      · omega
      · rw [hn]
        exact Nat.lt_succ_self _
  | writing j =>
      refine ⟨.write, { w with
        out := w.out.write j, consumer := .relocking, written := w.written ++ [j] },
        .inr (.inl rfl), ?_, ?_⟩
      · simp only [WriterThread.step]
        rw [hcon]
      · rw [show w.untilAsleep = 3 * w.q.length + 3 by simp only [untilAsleep, hcon]]
        exact Nat.lt_succ_self _

end Idle

end WriterThread

end NodeLink
