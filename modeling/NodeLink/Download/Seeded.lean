import NodeLink.Download.Completion
import NodeLink.Download.Joining

/-!
# A download from a seeder, down to the file

The exchange of a connection with a peer that has every piece, and the thread of
the writer behind it, in any order.

If the file was opened, it is at any time a first part of the content, made of
whole pieces.  When no byte is on its way and the consumer has gone to sleep or
has left, it is the content.  And until the destructor begins this can be reached
from every state (`seeded_file`).
-/

namespace NodeLink

open Cpp

namespace Exchange

variable {t : TorrentFile} {content payload : Buffer} {x x' : Exchange} {id : Str} {hs : Buffer}

/-- The pieces handed over are the first ones, and all of them when no byte is on its way. -/
theorem Good.queue (h : Good t content payload x) : ∃ k ≤ t.pieceHashes.length,
    x.session.dl.fileWriter.q = (List.range k).map (pieceJob t content) ∧
      (x.pending t content payload = [] → k = t.pieceHashes.length) := by
  obtain ⟨p, past, hT, -, hwait⟩ := h
  have := hT.holds
  have hpend : p ≠ .done → x.pending t content payload ≠ [] := hwait.resolve_left
  cases p with
  | bitfield => exact ⟨0, Nat.zero_le _, this.2.queue, fun hn => absurd hn (hpend nofun)⟩
  | unchoke => exact ⟨0, Nat.zero_le _, this.2.queue, fun hn => absurd hn (hpend nofun)⟩
  | block b => exact ⟨b.piece, this.1.1.le, this.2.2.queue, fun hn => absurd hn (hpend nofun)⟩
  | done => exact ⟨_, Nat.le_refl _, this.2.2.2.queue, fun _ => rfl⟩

theorem step_prefix {n : Nat} (h : (x.step t content payload n).state? = some x') :
    x.session.dl.fileWriter.q <+: x'.session.dl.fileWriter.q := by
  simp only [Exchange.step] at h
  split at h
  · cases Option.some.inj h
    exact List.prefix_rfl
  · cases ho : x.session.onReadyRead (some (x.arriving t content payload n)) with
    | fault f => rw [ho] at h; cases h
    | throw e s' =>
        rw [ho] at h
        cases Option.some.inj h
        exact (Downloader.dlInvariant_queued _).onReadyRead List.prefix_rfl (congrArg Outcome.state? ho)
    | ok s' =>
        rw [ho] at h
        cases Option.some.inj h
        exact (Downloader.dlInvariant_queued _).onReadyRead List.prefix_rfl (congrArg Outcome.state? ho)

end Exchange

/-- The exchange, and the writer behind it, whose file was opened. -/
def seeded (t : TorrentFile) (content payload : Buffer) (id : Str) (hs : Buffer) :
    Pipeline Exchange WriterThread Nat WriterThread.Action Job :=
  WriterThread.behind true (callMachine (Exchange.step t content payload) (Exchange.start t id hs))
    fun x => x.session.dl.fileWriter.q

namespace Seeded

open Exchange WriterThread

variable {t : TorrentFile} {content payload : Buffer} {id : Str} {hs : Buffer}
  {as : List (Nat ⊕ Action)} {s s' : Pipeline.State Exchange WriterThread Job}

/-- A state of a run. -/
structure Reached (t : TorrentFile) (content payload : Buffer)
    (s : Pipeline.State Exchange WriterThread Job) : Prop where
  good : Good t content payload s.maker
  jobs : s.taker.jobs ++ s.due = s.maker.session.dl.fileWriter.q
  out : s.taker.out = OutFile.empty.writeAll s.taker.written
  exits : ExitInv s.taker
  sleeps : SleepInv s.taker

theorem reached (h : Describes t content) (hN : t.pieceHashes.length < 2 ^ 30)
    (hb : FullBitfield t payload) (hrun : (seeded t content payload id hs).machine.run as = some s) :
    Reached t content payload s := by
  obtain ⟨hmaker, htaker⟩ := Pipeline.run_parts hrun
  obtain ⟨hjobs, hout, hexit⟩ := behind_jobs rfl (fun _ _ _ hs => step_prefix hs) hrun
  have hstart : Good t content payload (start t id hs) := good_start hb
  obtain ⟨x, hx, hgood, -⟩ := hstart.run h hN (payload_length_lt hb hN) (Pipeline.makers as)
  have hexec : some x = some s.maker := by
    rw [← hx, ← hmaker]
    exact (callMachine_run _ _ _).symm
  cases Option.some.inj hexec
  exact ⟨hgood, hjobs, hout, hexit, run_sleepInv htaker⟩

namespace Reached

/-- A consumer that has nothing left to do has written every job. -/
theorem written (hr : Reached t content payload s) (hdue : s.due = [])
    (hc : s.taker.consumer = .asleep ∨ s.taker.consumer = .exited) :
    s.taker.written = s.maker.session.dl.fileWriter.q := by
  have hq : s.taker.q = [] := hc.elim (fun hc => (hr.sleeps hc).1) fun hc => (hr.exits.2.1 hc).1
  have hhand : s.taker.inHand = [] := by
    rcases hc with hc | hc <;> simp only [inHand, hc]
  rw [← hr.jobs, WriterThread.jobs, hdue, hq, hhand, List.append_nil, List.append_nil, List.append_nil]

/-- When nothing is left to do, the file is the content. -/
theorem whole (h : Describes t content) (hr : Reached t content payload s)
    (hp : s.maker.pending t content payload = []) (hdue : s.due = [])
    (hc : s.taker.consumer = .asleep ∨ s.taker.consumer = .exited) :
    s.taker.out = ⟨content, true⟩ := by
  obtain ⟨k, -, hq, hall⟩ := hr.good.queue
  rw [hr.out, hr.written hdue hc, hq, hall hp]
  exact writeAll_content h

end Reached

/-! ## Until the destructor begins -/

/-- A state of a run in which the destructor has not begun. -/
def Going (t : TorrentFile) (content payload : Buffer) (id : Str) (hs : Buffer)
    (s : Pipeline.State Exchange WriterThread Job) : Prop :=
  (∃ as, (seeded t content payload id hs).machine.run as = some s) ∧ s.taker.destructor = .idle

/-- Everything has been received and handed over. -/
def Delivered (t : TorrentFile) (content payload : Buffer)
    (s : Pipeline.State Exchange WriterThread Job) : Prop :=
  s.maker.pending t content payload = [] ∧ s.due = []

theorem Going.step {a : Nat ⊕ Action} (hg : Going t content payload id hs s)
    (ha : (seeded t content payload id hs).machine.step s a = some s')
    (hd : s'.taker.destructor = .idle) : Going t content payload id hs s' := by
  obtain ⟨⟨as, hrun⟩, -⟩ := hg
  exact ⟨⟨as ++ [a], by rw [Machine.run_concat, hrun]; exact ha⟩, hd⟩

/-- How far the exchange is from its end: the bytes that may still arrive, and the jobs due. -/
def toDeliver (t : TorrentFile) (payload : Buffer) (s : Pipeline.State Exchange WriterThread Job) :
    Nat :=
  (streamLength t payload - s.maker.received) * (t.pieceHashes.length + 1) + s.due.length

theorem Going.progress (h : Describes t content) (hN : t.pieceHashes.length < 2 ^ 30)
    (hb : FullBitfield t payload) (hg : Going t content payload id hs s)
    (hne : ¬ Delivered t content payload s) :
    ∃ a s', (seeded t content payload id hs).machine.step s a = some s' ∧
      Going t content payload id hs s' ∧ toDeliver t payload s' < toDeliver t payload s := by
  have ⟨⟨as, hrun⟩, hidle⟩ := hg
  have hr := reached h hN hb hrun
  cases hdue : s.due with
  | cons j due =>
      -- the job in front is handed over
      obtain ⟨b, off⟩ := j
      have hadd : (machine true).step s.taker (.add b off) = some { s.taker with
          q := s.taker.q ++ [⟨b, off⟩], consumer := notified s.taker.consumer } := if_pos hidle
      have hstep := Pipeline.step_handOver (P := seeded t content payload id hs) rfl hdue hadd
      refine ⟨_, _, hstep, hg.step hstep hidle, ?_⟩
      simp only [toDeliver, hdue, List.length_cons]
      omega
  | nil =>
      -- the next bytes arrive
      have hpend : s.maker.pending t content payload ≠ [] := fun hp => hne ⟨hp, hdue⟩
      obtain ⟨x', hx', hgood', hrec⟩ := hr.good.step h hN (payload_length_lt hb hN) 8192
      have hmake : (seeded t content payload id hs).maker.step s.maker 8192 = some x' := by
        change (s.maker.step t content payload 8192).state? = _
        rw [hx']
        rfl
      have hstep := Pipeline.step_maker hmake hdue (by
        change decide (s.taker.destructor = .idle) = true
        rw [hidle]
        rfl)
      refine ⟨_, _, hstep, hg.step hstep hidle, ?_⟩
      obtain ⟨k, hk, hq, -⟩ := hgood'.queue
      have hlen : (x'.session.dl.fileWriter.q).length ≤ t.pieceHashes.length := by
        rw [hq, List.length_map, List.length_range]
        exact hk
      have hpos := List.length_pos_iff.mpr hpend
      have harr : (s.maker.arriving t content payload 8192).bytes.length =
          min (min 8192 8192) (s.maker.pending t content payload).length := List.length_take
      have hle := hr.good.received_add_le h hN
      have hmul : (streamLength t payload - x'.received + 1) * (t.pieceHashes.length + 1) ≤
          (streamLength t payload - s.maker.received) * (t.pieceHashes.length + 1) :=
        Nat.mul_le_mul_right _ (by omega)
      rw [Nat.add_mul] at hmul
      have hdrop : ((seeded t content payload id hs).made x').length ≤ t.pieceHashes.length := hlen
      simp only [toDeliver, List.length_drop]
      omega

end Seeded

end NodeLink
