import NodeLink.Download.Swarm
import NodeLink.Download.VerifiedWrites

/-!
# What happens to the downloader

Whatever the connections do, the downloader they share changes only in calls of
`OnBlockReceived` and in the request counter.  `DlInvariant` asks this much of a
property, and `DlInvariant.exec` gives it in every state of every run.

So a job is a piece with the right digest, at its place, in every run, also where
memory runs out (`PlacedInv`): a change of piece that fails leaves a buffer of
another piece's size behind, and no piece is longer than `piece_length`.
-/

namespace NodeLink

open Cpp Session

/-- What a block and a request preserve of the downloader. -/
structure DlInvariant (P : Downloader → Prop) : Prop where
  block : ∀ {d d' : Downloader} {c : Downloader.Call}, P d →
    (Downloader.receive d c).state? = some d' → P d'
  counter : ∀ {d : Downloader} (i : Int32), P d → P { d with nextReqIndex := i }

namespace DlInvariant

variable {P : Downloader → Prop} {s s' : Session} {w w' : Swarm}

theorem requestNextBlock (h : DlInvariant P) (hP : P s.dl)
    (hs : s.requestNextBlock.state? = some s') : P s'.dl := by
  rw [(requestNextBlock_frame hs).dl]
  exact h.counter _ hP

theorem dispatch {id : UInt8} {payload : Buffer} (h : DlInvariant P) (hP : P s.dl)
    (hs : (s.dispatch id payload).state? = some s') : P s'.dl := by
  rcases dispatch_cases s id payload with
      ⟨-, hd⟩ | ⟨-, hd⟩ | ⟨-, hd⟩ | ⟨-, hd⟩ | ⟨-, -, -, -, hd⟩ <;> rw [hd] at hs
  · exact h.requestNextBlock (s := s.unchoked) hP hs
  · cases Option.some.inj hs
    exact hP
  · cases Option.some.inj hs
    exact hP
  · rcases onPiece_cases hs with ⟨-, rfl, -⟩ | ⟨-, d, hd, ⟨e, -, -, rfl⟩ | ⟨-, -, hn⟩⟩
    · exact hP
    · exact h.block hP hd
    · exact h.requestNextBlock (s := s.delivered d) (h.block hP hd) hn
  · cases Option.some.inj hs
    exact hP

theorem pass {o : Outcome Exn Fault Session} (h : DlInvariant P) (hP : P s.dl)
    (hp : s.pass = some o) (ho : o.state? = some s') : P s'.dl := by
  rcases pass_state_cases hp ho with
      ⟨hs, rest, -, -, -, rfl⟩ | ⟨rest, -, -, rfl⟩ | ⟨id, payload, rest, -, -, -, rfl⟩
  · exact hP
  · exact hP
  · exact h.dispatch (s := s.framed id payload rest) hP ho

theorem processBuffer (h : DlInvariant P) (hP : P s.dl) (hs : s.processBuffer.state? = some s') :
    P s'.dl :=
  Stream.Consumer.drain_invariant (c := consumer) (P := fun s => P s.dl)
    (fun _ _ _ hP hp ho => h.pass hP hp ho) hP hs

theorem onReadyRead {r : Option Chunk} (h : DlInvariant P) (hP : P s.dl)
    (hs : (s.onReadyRead r).state? = some s') : P s'.dl := by
  rcases Swarm.onReadyRead_cases s r with ⟨-, hr⟩ | ⟨-, -, hr⟩ | ⟨-, chunk, -, -, hr⟩ <;> rw [hr] at hs
  · cases Option.some.inj hs
    exact hP
  · cases Option.some.inj hs
    exact hP
  · rcases Swarm.catching_state? hs with ho | ⟨e, s1, ho, rfl⟩
    · exact h.processBuffer (s := s.append chunk.bytes) hP (by rw [ho]; rfl)
    · have hs1 : (s.append chunk.bytes).processBuffer.state? = some s1 := by rw [ho]; rfl
      have hP1 : P s1.dl := h.processBuffer (s := s.append chunk.bytes) hP hs1
      exact hP1

theorem step {e : Swarm.Call} (h : DlInvariant P) (hP : P w.dl)
    (hs : (w.step e).state? = some w') : P w'.dl := by
  rcases Swarm.step_cases hs with ⟨-, rfl⟩ | ⟨c, s', -, rfl, ⟨rs, -, hf⟩ | ⟨r, rs, -, hf⟩⟩
  · exact hP
  · rcases Swarm.onReadyWrite_cases ⟨c, w.dl, rs⟩ with ⟨-, ho⟩ | ⟨-, -, ho | ho⟩ <;> rw [ho] at hf <;>
      cases Option.some.inj hf <;> exact hP
  · exact h.onReadyRead (s := ⟨c, w.dl, rs⟩) hP hf

/-- It holds in every state a run reaches. -/
theorem exec {es : List Swarm.Call} (h : DlInvariant P) (hP : P w.dl)
    (hrun : Cpp.exec Swarm.step w es = some w') : P w'.dl :=
  exec_invariant (P := fun w => P w.dl) (fun _ _ _ _ hP hs => h.step hP hs) hP hrun

end DlInvariant

/-! ## The queue -/

namespace Downloader

variable {d d' : Downloader} {c : Call} {t : TorrentFile}

/-- A call hands over at most one job, behind the others. -/
theorem receive_fileWriter (h : (receive d c).state? = some d') :
    d'.fileWriter = d.fileWriter ∨ ∃ b off, d'.fileWriter.q = d.fileWriter.q ++ [⟨b, off⟩] := by
  rcases receive_cases h with ⟨e, -, -, rfl⟩ | ⟨d1, d2, -, h1, h2, h3⟩
  · exact .inl rfl
  have hw : d2.fileWriter = d.fileWriter :=
    (copyBlock_fileWriter h2).1.trans (switchPiece_fileWriter h1).1
  rcases checkIntegrity_cases h3 with ⟨-, -, rfl⟩ | ⟨-, rfl⟩
  · exact .inr ⟨d2.pieceBuffer, d2.globalOffset c.pieceIndex, by
      rw [written_fileWriter, Writer.add_q, addSpeed_fileWriter, hw]
      rfl⟩
  · exact .inl hw

/-- Nothing is taken back from the writer. -/
theorem dlInvariant_queued (q : List Job) : DlInvariant fun d => q <+: d.fileWriter.q where
  block := fun hq hr => by
    rcases receive_fileWriter hr with hw | ⟨b, off, hw⟩ <;> rw [hw]
    · exact hq
    · exact hq.trans (List.prefix_append _ _)
  counter := fun _ hq => hq

/-- A job is a piece with the right digest at its place, and no longer than any piece is. -/
def Placed (t : TorrentFile) (j : Job) : Prop :=
  ∃ k < t.pieceHashes.length, j.offset.toInt = (k * t.pieceUnit : Nat) ∧
    j.b.length ≤ t.pieceUnit ∧ t.pieceHashes[k]? = some (Sha1.calculate j.b)

/-- The buffer holds no more than a piece, and every job is placed. -/
structure PlacedInv (t : TorrentFile) (d : Downloader) : Prop where
  torrent_eq : d.torrent = t
  buffer : d.pieceBuffer.length ≤ t.pieceUnit
  jobs : ∀ j ∈ d.fileWriter.q, Placed t j

theorem placedInv_init (t : TorrentFile) (id : Str) : PlacedInv t (init t id) where
  torrent_eq := rfl
  buffer := Nat.zero_le _
  jobs := fun _ hj => absurd hj List.not_mem_nil

theorem placedInv_switchPiece {alloc : Bool} {i : Int32} (hc : t.Consistent) (h : PlacedInv t d)
    (h1 : switchPiece alloc d i = .ok d') : PlacedInv t d' := by
  rcases switchPiece_cases h1 with ⟨-, rfl⟩ | ⟨-, n, hn, -, -, rfl⟩
  · exact h
  refine ⟨h.torrent_eq, ?_, h.jobs⟩
  obtain ⟨n', hn', h0, hle⟩ := hc.pieceLen_ok i.toInt
  have hunit := hc.pieceUnit_eq
  have hlt := t.pieceLength.toInt_lt
  rw [h.torrent_eq, hn'] at hn
  cases hn
  rw [cleared_pieceBuffer, List.length_replicate, toSizeT]
  omega

theorem placedInv_copyBlock {offset : Int32} {data : Buffer} (h : PlacedInv t d)
    (h2 : copyBlock d offset data = .ok d') : PlacedInv t d' := by
  rcases copyBlock_cases h2 with ⟨-, ⟨h0, hle⟩, rfl⟩ | ⟨-, rfl⟩
  · refine ⟨h.torrent_eq, ?_, h.jobs⟩
    rw [copied_pieceBuffer, Splice.overwrite_length (by omega)]
    exact h.buffer
  · exact h

/-- The place of a piece is inside the range of the offsets. -/
theorem globalOffset_toInt (hc : d.torrent.Consistent) {i : Int32} {k : Nat} (hi : i.toInt = k)
    (hk : k < d.torrent.pieceHashes.length) :
    (d.globalOffset i).toInt = (k * d.torrent.pieceUnit : Nat) := by
  have hend := hc.offset_add_pieceSize_le hk
  have hsz := hc.size_lt
  have hprod : i.toInt * d.torrent.pieceLength.toInt = (k * d.torrent.pieceUnit : Nat) := by
    rw [hi, ← hc.pieceUnit_eq]
    push_cast
    rfl
  rw [globalOffset, hprod, toInt_ofInt64]
  omega

theorem placed_written {i : Int32} (hc : d.torrent.Consistent) (hlen : d.pieceBuffer.length ≤
    d.torrent.pieceUnit) (hh : d.torrent.hashAt i.toInt = some (Sha1.calculate d.pieceBuffer)) :
    Placed d.torrent ⟨d.pieceBuffer, d.globalOffset i⟩ := by
  have hr := TorrentFile.inRange_of_hashAt hh
  obtain ⟨k, hk⟩ := Int.eq_ofNat_of_zero_le hr.1
  have hkN : k < d.torrent.pieceHashes.length := by
    have := hr.2
    omega
  refine ⟨k, hkN, globalOffset_toInt hc hk hkN, hlen, ?_⟩
  rw [TorrentFile.hashAt, if_pos hr.1, hk] at hh
  exact hh

theorem placedInv_receive (hc : t.Consistent) (h : PlacedInv t d)
    (hr : (receive d c).state? = some d') : PlacedInv t d' := by
  rcases receive_cases hr with ⟨e, -, -, rfl⟩ | ⟨d1, d2, -, h1, h2, h3⟩
  · exact ⟨h.torrent_eq, h.buffer, h.jobs⟩
  obtain ⟨rfl, hbuf, hjobs⟩ := placedInv_copyBlock (placedInv_switchPiece hc h h1) h2
  rcases checkIntegrity_cases h3 with ⟨-, hh, rfl⟩ | ⟨-, rfl⟩
  · refine ⟨rfl, Nat.zero_le _, fun j hj => ?_⟩
    rw [written_fileWriter, Writer.add_q] at hj
    rcases List.mem_append.mp hj with hj | hj
    · exact hjobs j hj
    · cases List.mem_singleton.mp hj
      exact placed_written (d := d2.addSpeed c.data.length) hc hbuf hh
  · exact ⟨rfl, hbuf, hjobs⟩

theorem dlInvariant_placed (hc : t.Consistent) : DlInvariant (PlacedInv t) where
  block := fun h hr => placedInv_receive hc h hr
  counter := fun _ h => ⟨h.torrent_eq, h.buffer, h.jobs⟩

end Downloader

end NodeLink
