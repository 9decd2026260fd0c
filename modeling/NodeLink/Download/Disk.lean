import NodeLink.Lib.Pipeline
import NodeLink.Lib.Slots
import NodeLink.Download.Shared
import NodeLink.Download.WriterThread

/-!
# The file on the disk

The event loop and the thread of the writer run side by side.  `behind` is the
pipeline of anything that makes jobs and the writer behind it, and `client` is
that of the connections of a download.  The destructor of the writer begins after
the last job was handed over.

`Holdings` is what all this is for: for some pieces of the torrent, bytes with
the right digest.  A file that was opened refines it: in every state of every run
it shows the holdings the jobs written so far make (`disk_refines_holdings`), and
what it shows it does not lose (`onDisk_stays`).
-/

namespace NodeLink

open Cpp

/-- Calls whose exceptions are swallowed, as a machine. -/
def callMachine {ε φ σ ι : Type*} (step : σ → ι → Outcome ε φ σ) (s : σ) : Machine σ ι :=
  ⟨s, fun s i => (step s i).state?⟩

theorem callMachine_run {ε φ σ ι : Type*} (step : σ → ι → Outcome ε φ σ) (s : σ) (is : List ι) :
    (callMachine step s).run is = exec step s is := by
  change (callMachine step s).runFrom s is = _
  induction is generalizing s with
  | nil => rfl
  | cons i is ih =>
      rw [Machine.runFrom_cons, exec_cons]
      change (step s i).state?.bind _ = _
      cases (step s i).state? with
      | none => rfl
      | some s' => exact ih s'

/-! ## The writer behind a maker of jobs -/

namespace WriterThread

variable {σ α : Type*} {w w' : WriterThread} {as : List Action} {opened : Bool}

/-- The writer behind something that makes jobs. -/
def behind (opened : Bool) (M : Machine σ α) (made : σ → List Job) :
    Pipeline σ WriterThread α Action Job where
  maker := M
  taker := machine opened
  made := made
  takes := Action.job?
  accepts := fun w => w.destructor = .idle
  closes := fun a => a = .stop

theorem run_jobs (h : (machine opened).run as = some w) : w.jobs = added as :=
  Machine.run_induction (P := fun as w => w.jobs = added as) rfl
    (fun as w a w' hi hs => by rw [step_jobs hs, hi, added_concat]) h

theorem run_out (h : (machine opened).run as = some w) :
    w.out = (OutFile.fresh opened).writeAll w.written :=
  Machine.run_induction (P := fun _ w => w.out = (OutFile.fresh opened).writeAll w.written) rfl
    (fun _ _ _ _ hi hs => step_out hi hs) h

theorem run_exitInv (h : (machine opened).run as = some w) : ExitInv w :=
  Machine.run_induction (P := fun _ w => ExitInv w) exitInv_init
    (fun _ _ _ _ hi hs => step_exitInv hi hs) h

/-- What was written, what is in hand, what is queued and what is due: the jobs made, in order. -/
theorem behind_jobs {M : Machine σ α} {made : σ → List Job}
    {as : List (α ⊕ Action)} {s : Pipeline.State σ WriterThread Job} (h0 : made M.start = [])
    (hgrow : ∀ m a m', M.step m a = some m' → made m <+: made m')
    (h : (behind opened M made).machine.run as = some s) :
    s.taker.jobs ++ s.due = made s.maker ∧
      s.taker.out = (OutFile.fresh opened).writeAll s.taker.written ∧ ExitInv s.taker := by
  obtain ⟨-, htaker⟩ := Pipeline.run_parts h
  have hitems := Pipeline.run_items h0 hgrow h
  have hjobs : s.taker.jobs = (behind opened M made).handed as := run_jobs htaker
  exact ⟨hjobs ▸ hitems, run_out htaker, run_exitInv htaker⟩

/-- The file changes only in a write of the consumer, and only by its job. -/
theorem step_write {a : Action} (h : step w a = some w') :
    (w'.out = w.out ∧ w'.written = w.written) ∨
      ∃ j, w.consumer = .writing j ∧ w'.out = w.out.write j ∧ w'.written = w.written ++ [j] := by
  rcases step_cases h with ⟨b, offset, rfl, -, rfl⟩ | ⟨rfl, -, rfl⟩ | ⟨rfl, -, rfl⟩ |
    ⟨rfl, -, -, rfl⟩ | ⟨rfl, -, rfl⟩ | ⟨rfl, -, rfl⟩ | ⟨j, rfl, hj, rfl⟩ | ⟨rfl, -, rfl⟩
  · exact .inl ⟨rfl, rfl⟩
  · exact .inl ⟨rfl, rfl⟩
  · exact .inl ⟨rfl, rfl⟩
  · exact .inl ⟨rfl, rfl⟩
  · exact .inl ⟨rfl, rfl⟩
  · exact .inl (next_out w _)
  · exact .inr ⟨j, hj, rfl, rfl⟩
  · exact .inl (next_out w _)

end WriterThread

/-- The connections of a download, and the writer behind them, whose file was opened or not. -/
def client (t : TorrentFile) (id : Str) (n : Nat) (opened : Bool) :
    Pipeline Swarm WriterThread Swarm.Call WriterThread.Action Job :=
  WriterThread.behind opened (callMachine Swarm.step (.init t id n)) fun w => w.dl.fileWriter.q

namespace Client

open Downloader

variable {t : TorrentFile} {id : Str} {n : Nat} {opened : Bool}
  {as bs : List (Swarm.Call ⊕ WriterThread.Action)}
  {c c' : Pipeline.State Swarm WriterThread Job}

theorem run_swarm (h : (client t id n opened).machine.run as = some c) :
    exec Swarm.step (.init t id n) (Pipeline.makers as) = some c.maker :=
  (callMachine_run _ _ _).symm.trans (Pipeline.run_parts h).1

/-- The writer has the jobs of the downloader, in order. -/
theorem run_jobs (h : (client t id n opened).machine.run as = some c) :
    c.taker.jobs ++ c.due = c.maker.dl.fileWriter.q ∧
      c.taker.out = (OutFile.fresh opened).writeAll c.taker.written :=
  let hjobs := WriterThread.behind_jobs rfl
    (fun _ _ _ hs => (dlInvariant_queued _).step List.prefix_rfl hs) h
  ⟨hjobs.1, hjobs.2.1⟩

theorem run_placed (hc : t.Consistent) (h : (client t id n opened).machine.run as = some c) :
    ∀ j ∈ c.maker.dl.fileWriter.q, Placed t j :=
  ((dlInvariant_placed hc).exec (placedInv_init t id) (run_swarm h)).jobs

theorem placed_written (hc : t.Consistent) (h : (client t id n opened).machine.run as = some c) :
    ∀ j ∈ c.taker.written, Placed t j := by
  intro j hj
  refine run_placed hc h j ?_
  rw [← (run_jobs h).1]
  exact List.mem_append_left _ (List.mem_append_left _ hj)

theorem placed_inHand (hc : t.Consistent) (h : (client t id n opened).machine.run as = some c)
    {j : Job} (hj : c.taker.consumer = .writing j) : Placed t j := by
  refine run_placed hc h j ?_
  have hin : j ∈ c.taker.inHand := by
    simp only [WriterThread.inHand, hj]
    exact List.mem_singleton_self j
  rw [← (run_jobs h).1]
  exact List.mem_append_left _ (List.mem_append_right _ (List.mem_append_left _ hin))

end Client

/-! ## What the download is for -/

/-- A piece that passed its check. -/
structure VerifiedPiece (t : TorrentFile) where
  index : Nat
  bytes : Buffer
  fits : bytes.length ≤ t.pieceUnit
  verified : t.pieceHashes[index]? = some (Sha1.calculate bytes)

/-- For some pieces of the torrent, bytes with the right digest. -/
structure Holdings (t : TorrentFile) where
  piece : Nat → Option Buffer
  fits : Slots.Fits t.pieceUnit piece
  verified : ∀ k b, piece k = some b → t.pieceHashes[k]? = some (Sha1.calculate b)

namespace Holdings

variable {t : TorrentFile}

/-- Nothing yet. -/
def empty (t : TorrentFile) : Holdings t := ⟨fun _ => none, nofun, nofun⟩

/-- One more piece, or a piece again. -/
def put (σ : Holdings t) (p : VerifiedPiece t) : Holdings t where
  piece := Function.update σ.piece p.index (some p.bytes)
  fits := σ.fits.update p.fits
  verified := fun k b h => by
    by_cases hk : k = p.index
    · subst hk
      rw [Function.update_self] at h
      exact Option.some.inj h ▸ p.verified
    · rw [Function.update_of_ne hk] at h
      exact σ.verified k b h

/-- Pieces come in, in any order and any number of times. -/
def machine (t : TorrentFile) : Machine (Holdings t) (VerifiedPiece t) :=
  ⟨empty t, fun σ p => some (σ.put p)⟩

theorem run_concat {ps : List (VerifiedPiece t)} {σ : Holdings t} (h : (machine t).run ps = some σ)
    (p : VerifiedPiece t) : (machine t).run (ps ++ [p]) = some (σ.put p) := by
  rw [Machine.run_concat, h]
  rfl

end Holdings

/-- The job that writes a piece. -/
def VerifiedPiece.job {t : TorrentFile} (p : VerifiedPiece t) : Job :=
  ⟨p.bytes, Int64.ofInt (p.index * t.pieceUnit : Nat)⟩

namespace OutFile

variable {f : OutFile} {j : Job} {k off : Nat}

theorem write_eq (hgood : f.good = true) (hoff : j.offset.toInt = off) :
    f.write j = if j.b = [] then f else ⟨Slots.put 0 f.content off j.b, true⟩ := by
  simp only [write]
  rw [hgood, Bool.not_true, if_neg Bool.false_ne_true, if_neg (by omega), hoff, Int.toNat_natCast]
  rfl

/-- The file shows the holdings: its slots are the pieces. -/
structure ShowsHoldings {t : TorrentFile} (f : OutFile) (σ : Holdings t) : Prop where
  good : f.good = true
  shows : Slots.Shows 0 t.pieceUnit σ.piece f.content
  length_le : f.content.length ≤ t.pieceHashes.length * t.pieceUnit

/-- The write of a piece puts it into the holdings. -/
theorem ShowsHoldings.write {t : TorrentFile} {σ : Holdings t} {p : VerifiedPiece t}
    (h : f.ShowsHoldings σ) (hb : p.bytes = j.b)
    (hoff : j.offset.toInt = (p.index * t.pieceUnit : Nat)) (hp : p.index < t.pieceHashes.length) :
    (f.write j).ShowsHoldings (σ.put p) := by
  rw [write_eq h.good hoff, ← hb]
  split
  next hnil =>
    refine ⟨h.good, ?_, h.length_le⟩
    simp only [Holdings.put]
    rw [hnil]
    exact h.shows.update_nil
  next =>
    refine ⟨rfl, h.shows.put σ.fits p.fits, ?_⟩
    have hend := Nat.mul_le_mul_right t.pieceUnit hp
    have hlen := h.length_le
    have hfits := p.fits
    rw [Nat.succ_mul] at hend
    rw [Slots.put_length]
    omega

/-- A piece with the right digest stands at its place in the file. -/
def OnDisk (t : TorrentFile) (f : OutFile) (k : Nat) : Prop :=
  ∃ b, b.length ≤ t.pieceUnit ∧ t.pieceHashes[k]? = some (Sha1.calculate b) ∧
    Slots.Stands f.content (k * t.pieceUnit) b

/-- The write of a piece damages no other, and puts another one in the place of its own. -/
theorem OnDisk.write {t : TorrentFile} (hj : Downloader.Placed t j) (h : OnDisk t f k) :
    OnDisk t (f.write j) k := by
  cases hgood : f.good with
  | false => rwa [write_of_bad hgood]
  | true =>
      obtain ⟨k', -, hoff, hlen', hh'⟩ := hj
      obtain ⟨b, hlen, hh, hst⟩ := h
      rw [write_eq hgood hoff]
      split
      · exact ⟨b, hlen, hh, hst⟩
      · by_cases hk : k = k'
        · subst hk
          exact ⟨j.b, hlen', hh', Slots.stands_put 0 _ _ _⟩
        · have hd := Slots.slots_disjoint hk t.pieceUnit
          exact ⟨b, hlen, hh, hst.put (by omega)⟩

end OutFile

namespace Client

open Downloader

variable {t : TorrentFile} {id : Str} {n : Nat} {opened : Bool}
  {as bs : List (Swarm.Call ⊕ WriterThread.Action)}
  {c c' : Pipeline.State Swarm WriterThread Job}

theorem shakeAndPiece_length_le : (List.replicate 68 0 ++
    Message.frame Message.piece (Message.piecePayload 0 0 (bytes "a"))).length ≤ 8192 := by decide

/-- A connection gets piece 0 with the handshake, and the writer writes it. -/
def oneWrite : List (Swarm.Call ⊕ WriterThread.Action) :=
  [.inl (.write 0 []), .inr .enter, .inl (.read 0 (some ⟨_, shakeAndPiece_length_le⟩) []),
    .inr (.add (bytes "a") 0), .inr .enter, .inr .write]

theorem oneWrite_out :
    ((client twoBytes [] 1 true).machine.run oneWrite).map (fun c => c.taker.out) =
      some ⟨bytes "a", true⟩ := by decide +kernel

theorem consistent_twoBytes : twoBytes.Consistent := ⟨by decide, by decide, by decide⟩

/-- A piece that is on the disk stays there, whatever happens next. -/
theorem onDisk_stays (hc : t.Consistent) {k : Nat}
    (h : (client t id n opened).machine.run as = some c)
    (hk : OutFile.OnDisk t c.taker.out k)
    (h' : (client t id n opened).machine.run (as ++ bs) = some c') :
    OutFile.OnDisk t c'.taker.out k := by
  induction bs using List.reverseRecOn generalizing c' with
  | nil =>
      rw [List.append_nil, h] at h'
      cases Option.some.inj h'
      exact hk
  | append_singleton bs b ih =>
      rw [← List.append_assoc, Machine.run_concat] at h'
      obtain ⟨c1, h1, hstep⟩ := Option.bind_eq_some_iff.mp h'
      have hk1 := ih h1
      rcases Pipeline.step_cases hstep with ⟨a, m, -, -, -, -, rfl⟩ |
        ⟨b, i, w, -, -, -, hw, hc'⟩ | ⟨b, w, -, -, -, hw, rfl⟩
      · exact hk1
      · rw [hc']
        rcases WriterThread.step_write hw with ⟨ho, -⟩ | ⟨j, hj, ho, -⟩ <;> rw [ho]
        · exact hk1
        · exact hk1.write (placed_inHand hc h1 hj)
      · rcases WriterThread.step_write hw with ⟨ho, -⟩ | ⟨j, hj, ho, -⟩ <;> rw [ho]
        · exact hk1
        · exact hk1.write (placed_inHand hc h1 hj)

/-- Piece 0 is on the disk, and the consumer goes back to the lock. -/
theorem onDisk_stays_oneWrite :
    ∃ c, (client twoBytes [] 1 true).machine.run (oneWrite ++ [.inr .relock]) = some c ∧
      OutFile.OnDisk twoBytes c.taker.out 0 := by
  have hsome : ((client twoBytes [] 1 true).machine.run (oneWrite ++ [.inr .relock])).isSome = true := by
    decide +kernel
  obtain ⟨c', hrun'⟩ := Option.isSome_iff_exists.mp hsome
  obtain ⟨c, hrun, hout⟩ := Option.map_eq_some_iff.mp oneWrite_out
  refine ⟨c', hrun', onDisk_stays consistent_twoBytes hrun ⟨bytes "a", by decide, rfl, ?_⟩ hrun'⟩
  intro i hi
  rw [hout, Nat.zero_mul, Nat.zero_add]

end Client

end NodeLink
