import NodeLink.Lib.Machine
import NodeLink.Download.Worker

/-!
# The thread of the writer

`WriterThread` is the `Writer` with its consumer thread, from the return of
`start` to that of the destructor.  Every section of the code that holds `mx` is
one action, and so is the write between two of them.  Between any two actions of
the consumer the producer may add jobs and the destructor may begin.

`cv.wait` is a loop: where its predicate fails the consumer falls asleep, and it
tries again when it is notified, or for no reason, which the standard library
allows.

The jobs are never lost, doubled or reordered (`written_inHand_queue`).  The
consumer does not sleep through a job or the end (`SleepInv`), and once the
destructor has notified it, it comes closer to its exit with every action it
takes (`consumer_progress`).
-/

namespace NodeLink

/-- Where the consumer thread is. -/
inductive Consumer where
  /-- In front of the lock at the top of the loop, or awake in `cv.wait`. -/
  | ready
  /-- Blocked in `cv.wait`. -/
  | asleep
  /-- Behind `lock.unlock()`, with the job it took off the queue. -/
  | writing (j : Job)
  /-- In front of `lock.lock()`. -/
  | relocking
  | exited
deriving DecidableEq, Repr

/-- Where the destructor is. -/
inductive Destructor where
  | idle
  /-- Behind the block that sets `stop_flag`. -/
  | stopped
  /-- Behind `cv.notify_one()`. -/
  | joining
  | returned
deriving DecidableEq, Repr

/-- The writer and its thread.  `written` records the jobs that were written to `out`. -/
structure WriterThread where
  q : List Job
  stopFlag : Bool
  out : OutFile
  consumer : Consumer
  destructor : Destructor
  written : List Job
deriving DecidableEq, Repr

namespace WriterThread

/-- What can happen next. -/
inductive Action where
  /-- A call of `add`. -/
  | add (b : Buffer) (offset : Int64)
  /-- The destructor sets `stop_flag`. -/
  | stop
  /-- The destructor calls `notify_one`. -/
  | notify
  /-- The destructor's `join` returns. -/
  | join
  /-- `cv.wait` wakes up for no reason. -/
  | wake
  /-- The consumer has the lock at the top of the loop: it tests the predicate. -/
  | enter
  /-- The consumer writes its job. -/
  | write
  /-- The consumer has the lock again. -/
  | relock
deriving DecidableEq, Repr

/-- The state `start` leaves behind.  `opened` says whether the constructor could open the file. -/
def init (opened : Bool) : WriterThread := ⟨[], false, .fresh opened, .ready, .idle, []⟩

/-- `notify_one`: a consumer in `cv.wait` wakes up. -/
def notified : Consumer → Consumer
  | .asleep => .ready
  | c => c

/-- The test of the inner loop, and of the one behind it, under the lock: take the next job, or
leave the loop, or go back to the top. -/
def next (w : WriterThread) (top : Consumer) : WriterThread :=
  match w.q with
  | j :: q => { w with q := q, consumer := .writing j }
  | [] => { w with consumer := if w.stopFlag then .exited else top }

/-- One action, where it is possible. -/
def step (w : WriterThread) : Action → Option WriterThread
  | .add b offset =>
      if w.destructor = .idle then
        some { w with q := (Writer.add ⟨w.q⟩ b offset).1.q, consumer := notified w.consumer }
      else none
  | .stop =>
      if w.destructor = .idle then some { w with stopFlag := true, destructor := .stopped } else none
  | .notify =>
      if w.destructor = .stopped then
        some { w with consumer := notified w.consumer, destructor := .joining }
      else none
  | .join =>
      if w.destructor = .joining ∧ w.consumer = .exited then some { w with destructor := .returned }
      else none
  | .wake => if w.consumer = .asleep then some { w with consumer := .ready } else none
  | .enter =>
      -- with an empty queue and no flag the predicate is false, and the thread goes to sleep
      if w.consumer = .ready then some (w.next .asleep) else none
  | .write =>
      match w.consumer with
      | .writing j =>
          some { w with out := w.out.write j, consumer := .relocking, written := w.written ++ [j] }
      | _ => none
  | .relock => if w.consumer = .relocking then some (w.next .ready) else none

/-- The writer as a machine. -/
def machine (opened : Bool) : Machine WriterThread Action := ⟨init opened, step⟩

/-- The job the consumer has taken and not yet written. -/
def inHand (w : WriterThread) : List Job :=
  match w.consumer with
  | .writing j => [j]
  | _ => []

/-- The job a call of `add` hands over. -/
def Action.job? : Action → Option Job
  | .add b offset => some ⟨b, offset⟩
  | _ => none

/-- The jobs handed over in a run, in order. -/
def added (as : List Action) : List Job := as.filterMap Action.job?

theorem added_concat (as : List Action) (a : Action) :
    added (as ++ [a]) = added as ++ a.job?.toList := by
  simp only [added, List.filterMap_append, List.filterMap_cons, List.filterMap_nil]
  cases a.job? <;> rfl

variable {w w' : WriterThread} {a : Action} {opened : Bool}

/-! ## One action -/

/-- Everything an action can do. -/
theorem step_cases (h : step w a = some w') :
    (∃ b offset, a = .add b offset ∧ w.destructor = .idle ∧
      w' = { w with q := w.q ++ [⟨b, offset⟩], consumer := notified w.consumer }) ∨
    (a = .stop ∧ w.destructor = .idle ∧
      w' = { w with stopFlag := true, destructor := .stopped }) ∨
    (a = .notify ∧ w.destructor = .stopped ∧
      w' = { w with consumer := notified w.consumer, destructor := .joining }) ∨
    (a = .join ∧ w.destructor = .joining ∧ w.consumer = .exited ∧
      w' = { w with destructor := .returned }) ∨
    (a = .wake ∧ w.consumer = .asleep ∧ w' = { w with consumer := .ready }) ∨
    (a = .enter ∧ w.consumer = .ready ∧ w' = w.next .asleep) ∨
    (∃ j, a = .write ∧ w.consumer = .writing j ∧
      w' = { w with out := w.out.write j, consumer := .relocking, written := w.written ++ [j] }) ∨
    (a = .relock ∧ w.consumer = .relocking ∧ w' = w.next .ready) := by
  cases a with
  | add b offset =>
      simp only [step, Option.ite_none_right_eq_some] at h
      exact .inl ⟨b, offset, rfl, h.1, (Option.some.inj h.2).symm⟩
  | stop =>
      simp only [step, Option.ite_none_right_eq_some] at h
      exact .inr (.inl ⟨rfl, h.1, (Option.some.inj h.2).symm⟩)
  | notify =>
      simp only [step, Option.ite_none_right_eq_some] at h
      exact .inr (.inr (.inl ⟨rfl, h.1, (Option.some.inj h.2).symm⟩))
  | join =>
      simp only [step, Option.ite_none_right_eq_some] at h
      exact .inr (.inr (.inr (.inl ⟨rfl, h.1.1, h.1.2, (Option.some.inj h.2).symm⟩)))
  | wake =>
      simp only [step, Option.ite_none_right_eq_some] at h
      exact .inr (.inr (.inr (.inr (.inl ⟨rfl, h.1, (Option.some.inj h.2).symm⟩))))
  | enter =>
      simp only [step, Option.ite_none_right_eq_some] at h
      exact .inr (.inr (.inr (.inr (.inr (.inl ⟨rfl, h.1, (Option.some.inj h.2).symm⟩)))))
  | write =>
      cases hc : w.consumer with
      | writing j =>
          simp only [step] at h
          rw [hc] at h
          exact .inr (.inr (.inr (.inr (.inr (.inr (.inl ⟨j, rfl, rfl, (Option.some.inj h).symm⟩))))))
      | _ =>
          simp only [step] at h
          rw [hc] at h
          cases h
  | relock =>
      simp only [step, Option.ite_none_right_eq_some] at h
      exact .inr (.inr (.inr (.inr (.inr (.inr (.inr ⟨rfl, h.1, (Option.some.inj h.2).symm⟩))))))

/-- The section under the lock takes the job at the front, or finds the queue empty. -/
theorem next_cases (w : WriterThread) (top : Consumer) :
    (∃ j q, w.q = j :: q ∧ w.next top = { w with q := q, consumer := .writing j }) ∨
    (w.q = [] ∧ w.next top = { w with consumer := if w.stopFlag then .exited else top }) := by
  simp only [next]
  cases hq : w.q with
  | nil => exact .inr ⟨rfl, rfl⟩
  | cons j q => exact .inl ⟨j, q, rfl, rfl⟩

/-! ## No job is lost, doubled or reordered -/

@[simp] theorem inHand_notified (w : WriterThread) :
    ({ w with consumer := notified w.consumer } : WriterThread).inHand = w.inHand := by
  simp only [inHand, notified]
  cases w.consumer <;> rfl

/-- The jobs in the order in which the consumer reaches them. -/
def jobs (w : WriterThread) : List Job := w.written ++ (w.inHand ++ w.q)

/-- A section under the lock moves a job from the queue into the consumer's hands. -/
theorem next_jobs {top : Consumer} (h : w.inHand = [])
    (htop : ∀ j, top ≠ .writing j) : (w.next top).jobs = w.jobs := by
  rcases next_cases w top with ⟨j, q, hq, hn⟩ | ⟨hq, hn⟩
  · simp only [jobs]
    rw [h, hn, hq]
    rfl
  · simp only [jobs]
    rw [h, hn]
    simp only [inHand]
    split
    · rename_i j hj
      split at hj
      · cases hj
      · exact absurd hj (htop j)
    · rfl

/-- Only `add` changes the list of the jobs: it appends one. -/
theorem step_jobs (h : step w a = some w') : w'.jobs = w.jobs ++ a.job?.toList := by
  rcases step_cases h with ⟨b, offset, rfl, -, rfl⟩ | ⟨rfl, -, rfl⟩ | ⟨rfl, -, rfl⟩ |
    ⟨rfl, -, hc, rfl⟩ | ⟨rfl, hc, rfl⟩ | ⟨rfl, hc, rfl⟩ | ⟨j, rfl, hc, rfl⟩ | ⟨rfl, hc, rfl⟩
  · have hh := inHand_notified w
    simp only [jobs, inHand] at hh ⊢
    rw [hh]
    simp [Action.job?]
  · exact (List.append_nil _).symm
  · have hh := inHand_notified w
    simp only [jobs, inHand] at hh ⊢
    rw [hh]
    exact (List.append_nil _).symm
  · exact (List.append_nil _).symm
  · simp only [jobs, inHand]
    rw [hc]
    exact (List.append_nil _).symm
  · have hn : (w.next .asleep).jobs = w.jobs :=
      next_jobs (by simp only [inHand]; rw [hc]) fun _ => nofun
    rw [hn]
    exact (List.append_nil _).symm
  · simp only [jobs, inHand]
    rw [hc]
    simp [Action.job?]
  · have hn : (w.next .ready).jobs = w.jobs :=
      next_jobs (by simp only [inHand]; rw [hc]) fun _ => nofun
    rw [hn]
    exact (List.append_nil _).symm

/-- A consumer that has left its loop has left an empty queue behind, and nothing is added any
more. -/
def ExitInv (w : WriterThread) : Prop :=
  (w.stopFlag = true ↔ w.destructor ≠ .idle) ∧
    (w.consumer = .exited → w.q = [] ∧ w.stopFlag = true) ∧
    (w.destructor = .returned → w.consumer = .exited)

theorem exitInv_init : ExitInv (init opened) :=
  ⟨⟨fun h => absurd h Bool.false_ne_true, fun h => absurd rfl h⟩, nofun, nofun⟩

theorem notified_eq_exited {c : Consumer} : notified c = .exited ↔ c = .exited := by
  cases c <;> simp [notified]

theorem next_exitInv {top : Consumer} (h : ExitInv w) (hc : w.consumer ≠ .exited)
    (htop : top ≠ .exited) : ExitInv (w.next top) := by
  obtain ⟨h1, -, h3⟩ := h
  have hret : w.destructor ≠ .returned := fun hd => hc (h3 hd)
  rcases next_cases w top with ⟨j, q, -, hn⟩ | ⟨hq, hn⟩
  · rw [hn]
    exact ⟨h1, nofun, fun hd => absurd hd hret⟩
  · rw [hn]
    refine ⟨h1, fun he => ?_, fun hd => absurd hd hret⟩
    cases hs : w.stopFlag with
    | true => exact ⟨hq, rfl⟩
    | false =>
        simp only [hs, Bool.false_eq_true, if_false] at he
        exact absurd he htop

theorem step_exitInv (hi : ExitInv w) (h : step w a = some w') : ExitInv w' := by
  obtain ⟨h1, h2, h3⟩ := hi
  rcases step_cases h with ⟨b, offset, rfl, hd, rfl⟩ | ⟨rfl, hd, rfl⟩ | ⟨rfl, hd, rfl⟩ |
    ⟨rfl, hd, hc, rfl⟩ | ⟨rfl, hc, rfl⟩ | ⟨rfl, hc, rfl⟩ | ⟨j, rfl, hc, rfl⟩ | ⟨rfl, hc, rfl⟩
  · -- the producer is still there, so the flag is down and the consumer in its loop
    have hs : ¬w.stopFlag = true := fun hs => h1.mp hs hd
    refine ⟨h1, fun he => ?_, fun hr => ?_⟩
    · exact absurd (h2 (notified_eq_exited.mp he)).2 hs
    · have hidle : w.destructor = .returned := hr
      rw [hd] at hidle
      cases hidle
  · refine ⟨⟨fun _ => nofun, fun _ => rfl⟩, fun he => ⟨(h2 he).1, rfl⟩, nofun⟩
  · refine ⟨⟨fun _ => nofun, fun _ => h1.mpr (by rw [hd]; nofun)⟩, fun he => ?_, nofun⟩
    exact h2 (notified_eq_exited.mp he)
  · exact ⟨⟨fun _ => nofun, fun _ => h1.mpr (by rw [hd]; nofun)⟩, h2, fun _ => hc⟩
  · refine ⟨h1, nofun, fun hr => ?_⟩
    have := h3 hr
    rw [hc] at this
    cases this
  · exact next_exitInv ⟨h1, h2, h3⟩ (by rw [hc]; nofun) nofun
  · refine ⟨h1, nofun, fun hr => ?_⟩
    have := h3 hr
    rw [hc] at this
    cases this
  · exact next_exitInv ⟨h1, h2, h3⟩ (by rw [hc]; nofun) nofun

theorem next_out (w : WriterThread) (top : Consumer) :
    (w.next top).out = w.out ∧ (w.next top).written = w.written := by
  rcases next_cases w top with ⟨j, q, -, hn⟩ | ⟨-, hn⟩ <;> rw [hn] <;> exact ⟨rfl, rfl⟩

/-- The file is what the jobs written so far make of it. -/
theorem step_out (hi : w.out = (OutFile.fresh opened).writeAll w.written) (h : step w a = some w') :
    w'.out = (OutFile.fresh opened).writeAll w'.written := by
  rcases step_cases h with ⟨b, offset, rfl, -, rfl⟩ | ⟨rfl, -, rfl⟩ | ⟨rfl, -, rfl⟩ |
    ⟨rfl, -, -, rfl⟩ | ⟨rfl, -, rfl⟩ | ⟨rfl, -, rfl⟩ | ⟨j, rfl, -, rfl⟩ | ⟨rfl, -, rfl⟩
  · exact hi
  · exact hi
  · exact hi
  · exact hi
  · exact hi
  · rw [(next_out w _).1, (next_out w _).2]
    exact hi
  · simp only [OutFile.writeAll, List.foldl_append, List.foldl_cons, List.foldl_nil] at hi ⊢
    rw [← hi]
  · rw [(next_out w _).1, (next_out w _).2]
    exact hi

/-- In every reachable state the jobs written so far, the job in the consumer's hands and the queue
are the jobs added, in order, and the stream, opened or not, is what the writes so far make of it.
When the consumer has exited, and so when the destructor has returned, the queue is empty and every
job has been written once. -/
theorem written_inHand_queue {as : List Action} (h : (machine opened).run as = some w) :
    w.written ++ w.inHand ++ w.q = added as ∧ w.out = (OutFile.fresh opened).writeAll w.written ∧
    (w.consumer = .exited → w.q = [] ∧ w.written = added as) ∧
    (w.destructor = .returned → w.consumer = .exited) := by
  have hjobs : w.jobs = added as :=
    Machine.run_induction (P := fun as w => w.jobs = added as) rfl
      (fun as w a w' hi hs => by rw [step_jobs hs, hi, added_concat]) h
  have hout : w.out = (OutFile.fresh opened).writeAll w.written :=
    Machine.run_induction (P := fun _ w => w.out = (OutFile.fresh opened).writeAll w.written) rfl
      (fun _ _ _ _ hi hs => step_out hi hs) h
  have hexit : ExitInv w :=
    Machine.run_induction (P := fun _ w => ExitInv w) exitInv_init
      (fun _ _ _ _ hi hs => step_exitInv hi hs) h
  refine ⟨by rw [List.append_assoc]; exact hjobs, hout, fun hc => ?_, hexit.2.2⟩
  have hq := (hexit.2.1 hc).1
  refine ⟨hq, ?_⟩
  simp only [jobs, inHand] at hjobs
  rw [hc, hq, List.append_nil, List.append_nil] at hjobs
  exact hjobs

/-- Two jobs, the second added while the first is written, and the destructor right behind. -/
theorem written_inHand_queue_twoJobs :
    let as : List Action := [.enter, .add [1] 0, .enter, .add [2] 1, .stop, .write, .relock,
      .notify, .write, .relock, .join]
    ∃ w, (machine true).run as = some w ∧ w.destructor = .returned ∧
      w.written ++ w.inHand ++ w.q = added as ∧ w.out = (OutFile.fresh true).writeAll w.written ∧
      (w.consumer = .exited → w.q = [] ∧ w.written = added as) ∧
      (w.destructor = .returned → w.consumer = .exited) := by
  refine ⟨_, rfl, rfl, written_inHand_queue rfl⟩

/-! ## Nothing is slept through -/

/-- A consumer asleep has an empty queue, and if the flag is up its wake-up call is still to
come. -/
def SleepInv (w : WriterThread) : Prop :=
  w.consumer = .asleep → w.q = [] ∧ (w.destructor = .idle ∨ w.destructor = .stopped)

theorem sleepInv_init : SleepInv (init opened) := nofun

theorem notified_ne_asleep (c : Consumer) : notified c ≠ .asleep := by
  cases c <;> nofun

theorem step_sleepInv (he : ExitInv w) (hi : SleepInv w) (h : step w a = some w') :
    SleepInv w' := by
  rcases step_cases h with ⟨b, offset, rfl, -, rfl⟩ | ⟨rfl, -, rfl⟩ | ⟨rfl, -, rfl⟩ |
    ⟨rfl, -, hc, rfl⟩ | ⟨rfl, -, rfl⟩ | ⟨rfl, -, rfl⟩ | ⟨j, rfl, -, rfl⟩ | ⟨rfl, -, rfl⟩
  · exact fun hs => absurd hs (notified_ne_asleep _)
  · exact fun hs => ⟨(hi hs).1, .inr rfl⟩
  · exact fun hs => absurd hs (notified_ne_asleep _)
  · intro hs
    have hs : w.consumer = .asleep := hs
    rw [hc] at hs
    cases hs
  · nofun
  · -- it falls asleep only where the flag is down
    intro hs
    rcases next_cases w .asleep with ⟨j, q, -, hn⟩ | ⟨hq, hn⟩
    · rw [hn] at hs
      cases hs
    · rw [hn] at hs ⊢
      refine ⟨hq, .inl ?_⟩
      by_contra hd
      simp only [he.1.mpr hd, if_true] at hs
      cases hs
  · nofun
  · intro hs
    rcases next_cases w .ready with ⟨j, q, -, hn⟩ | ⟨hq, hn⟩
    · rw [hn] at hs
      cases hs
    · rw [hn] at hs
      cases hf : w.stopFlag <;> simp [hf] at hs

/-- How far the consumer is from its exit, once the flag is up. -/
def distance (w : WriterThread) : Nat :=
  match w.consumer with
  | .exited => 0
  | .ready | .asleep | .relocking => 2 * w.q.length + 1
  | .writing _ => 2 * w.q.length + 2

/-- Once the destructor waits in `join`, the consumer can take an action until it has exited, and
every action it takes brings it closer to that. -/
theorem consumer_progress {as : List Action} (h : (machine opened).run as = some w)
    (hd : w.destructor = .joining) (hc : w.consumer ≠ .exited) :
    ∃ a w', (a = .enter ∨ a = .write ∨ a = .relock) ∧ step w a = some w' ∧
      w'.destructor = .joining ∧ w'.distance < w.distance := by
  have hinv : ExitInv w ∧ SleepInv w :=
    Machine.run_induction (P := fun _ w => ExitInv w ∧ SleepInv w) ⟨exitInv_init, sleepInv_init⟩
      (fun _ _ _ _ hi hs => ⟨step_exitInv hi.1 hs, step_sleepInv hi.1 hi.2 hs⟩) h
  obtain ⟨⟨hflag, -, -⟩, hsleep⟩ := hinv
  have hstop : w.stopFlag = true := hflag.mpr (by rw [hd]; nofun)
  have hnext : ∀ top, (w.next top).destructor = .joining ∧
      (w.next top).distance < 2 * w.q.length + 1 := by
    intro top
    rcases next_cases w top with ⟨j, q, hq, hn⟩ | ⟨hq, hn⟩
    · rw [hn]
      refine ⟨hd, ?_⟩
      simp only [distance]
      rw [hq, List.length_cons]
      omega
    · rw [hn]
      refine ⟨hd, ?_⟩
      simp only [distance, hstop, if_true]
      omega
  cases hcon : w.consumer with
  | exited => exact absurd hcon hc
  | asleep =>
      rcases (hsleep hcon).2 with h1 | h1 <;> rw [hd] at h1 <;> cases h1
  | ready =>
      refine ⟨.enter, w.next .asleep, .inl rfl, ?_, (hnext .asleep).1, ?_⟩
      · simp only [step]
        rw [if_pos hcon]
      · rw [show w.distance = 2 * w.q.length + 1 by simp only [distance]; rw [hcon]]
        exact (hnext .asleep).2
  | relocking =>
      refine ⟨.relock, w.next .ready, .inr (.inr rfl), ?_, (hnext .ready).1, ?_⟩
      · simp only [step]
        rw [if_pos hcon]
      · rw [show w.distance = 2 * w.q.length + 1 by simp only [distance]; rw [hcon]]
        exact (hnext .ready).2
  | writing j =>
      have hw : step w .write = some
          { w with out := w.out.write j, consumer := .relocking, written := w.written ++ [j] } := by
        simp only [step]
        rw [hcon]
      refine ⟨.write, _, .inr (.inl rfl), hw, hd, ?_⟩
      simp only [distance]
      rw [hcon]
      exact Nat.lt_succ_self _

end WriterThread

end NodeLink
