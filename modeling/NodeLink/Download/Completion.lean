import NodeLink.Download.Transfer

/-!
# The download completes

Every run of an exchange stays in some phase (`Good`), so it never faults, and
what has been asked for are the first blocks of all.  A step that receives a
byte moves on in a stream of bounded length (`peerStream_length_le`), so enough
of them receive it all.  Then the writer has every piece once, in order, and the
file it writes is the content (`writeAll_pieceJobs`).
-/

namespace NodeLink

open Cpp

variable {t : TorrentFile} {content payload : Buffer} {b : Delivery} {p : Phase}

/-! ## The length of the stream -/

theorem mem_allBlocks : b ∈ allBlocks t ↔ b.InTorrent t := by
  obtain ⟨k, c⟩ := b
  simp [allBlocks, blocksOf, Delivery.InTorrent]

theorem Phase.asked_prefix {s : Session} (h : Describes t content)
    (hp : p.Holds t content payload s) : p.asked t <+: allBlocks t := by
  cases p with
  | bitfield => exact List.nil_prefix
  | unchoke => exact List.nil_prefix
  | block b =>
      rw [Phase.asked, ← blocksBefore_next hp.1]
      rcases Delivery.next_cases h hp.1 with hin | hend
      · exact blocksBefore_prefix hin.1
      · exact hend ▸ blocksBefore_end ▸ List.prefix_rfl
  | done => exact List.prefix_rfl

theorem peerStream_length_le (h : Describes t content) (hN : t.pieceHashes.length < 2 ^ 30)
    {log : List Event} {bs : List Delivery} (hbs : bs <+: allBlocks t)
    (hreq : requests log = bs.map (requestOf t)) :
    (peerStream t content payload log).length ≤ streamLength t payload := by
  have hanswers : ((requests log).flatMap (answer t content)).length =
      (bs.map fun b => blockLen (t.lengthOfPiece b.piece) b.block + 13).sum := by
    rw [hreq, List.length_flatMap, List.map_map]
    refine congrArg List.sum (List.map_congr_left fun b hb => ?_)
    have hin := mem_allBlocks.mp (hbs.subset hb)
    change (answer t content (requestOf t b)).length = _
    rw [answer_requestOf h hN hin, Message.frame_length, pieceMessage_length h hin]
  obtain ⟨rest, hrest⟩ := hbs
  simp only [peerStream, streamLength]
  rw [List.length_append, List.length_append, Message.frame_length, Message.frame_length,
    hanswers, ← hrest, List.map_append, List.sum_append, List.length_nil]
  omega

/-! ## The file -/

/-- The writer puts the pieces one behind the other. -/
theorem writeAll_pieceJobs (h : Describes t content) {k : Nat} (hk : k ≤ t.pieceHashes.length) :
    OutFile.empty.writeAll ((List.range k).map (pieceJob t content)) =
      ⟨content.take (k * t.pieceUnit), true⟩ := by
  induction k with
  | zero =>
      rw [Nat.zero_mul]
      rfl
  | succ k ih =>
      have hoff := Downloader.pieceJob_offset h hk
      have hend := h.consistent.offset_add_pieceSize_le hk
      have hlen := h.pieceData_length hk
      have hpos := h.lengthOfPiece_pos hk
      have hat : (content.take (k * t.pieceUnit)).length = k * t.pieceUnit := by
        rw [List.length_take, h.length_eq]
        omega
      have hne : pieceData t content k ≠ [] := fun h0 => by
        rw [h0, List.length_nil] at hlen
        omega
      have hover := Splice.overwrite_end (content.take (k * t.pieceUnit)) (pieceData t content k)
      rw [hat] at hover
      simp only [OutFile.writeAll] at ih ⊢
      rw [List.range_succ, List.map_append, List.foldl_append, ih (Nat.le_of_succ_le hk),
        List.map_singleton, List.foldl_cons, List.foldl_nil, OutFile.write, hoff]
      dsimp only
      rw [Bool.not_true, if_neg Bool.false_ne_true, if_neg (by omega), if_neg (by exact hne),
        Int.toNat_natCast, hat, Nat.sub_self, List.replicate_zero, List.append_nil]
      change OutFile.mk (Splice.overwrite _ _ (pieceData t content k)) true = _
      rw [hover, pieceData, Tiling.take_append_tile]

/-- All the pieces are the content. -/
theorem writeAll_content (h : Describes t content) :
    OutFile.empty.writeAll ((List.range t.pieceHashes.length).map (pieceJob t content)) =
      ⟨content, true⟩ := by
  have hall : content.length ≤ t.pieceHashes.length * t.pieceUnit := by
    rw [h.length_eq, h.consistent.count_eq]
    exact Tiling.le_count_mul h.consistent.pieceUnit_pos
  rw [writeAll_pieceJobs h (le_refl _), List.take_of_length_le hall]

namespace Exchange

variable {x x' : Exchange} {id : Str} {hs : Buffer}

/-! ## Steps -/

/-- The exchange is in some phase.  It has nothing to wait for, or some bytes are on their way. -/
def Good (t : TorrentFile) (content payload : Buffer) (x : Exchange) : Prop :=
  ∃ p past, Talk t content payload p x.session past (x.pending t content payload) ∧
    past.length = x.received ∧ (p = .done ∨ x.pending t content payload ≠ [])

theorem payload_length_lt (hb : FullBitfield t payload) (hN : t.pieceHashes.length < 2 ^ 30) :
    payload.length + 5 < 2 ^ 32 := by
  have := hb.length_eq
  omega

theorem good_start (hb : FullBitfield t payload) :
    Good t content payload (start t id hs) := by
  have hreq : requests (Session.shookHandsWith t id hs).conn.log = [] := rfl
  have hpend : (start t id hs).pending t content payload =
      Message.frame Message.bitfield payload ++ Message.frame Message.unchoke [] := by
    simp only [pending, peerStream, start]
    rw [hreq]
    exact List.append_nil _
  refine ⟨.bitfield, [], ⟨⟨⟨⟨rfl, rfl, fun j hj => ?_, rfl⟩, rfl, rfl⟩, Downloader.due_init t content id⟩,
    rfl, rfl, rfl, ?_, rfl⟩, rfl, .inr ?_⟩
  · exact ((Connection.markPieces_getD [] _ payload j).2).mpr ⟨hj, .inr (hb.bits j hj)⟩
  · exact hpend
  · rw [hpend]
    exact List.append_ne_nil_of_right_ne_nil _ (List.cons_ne_nil _ _)

/-- What the connection has received is not longer than the whole stream. -/
theorem Good.received_add_le (h : Describes t content) (hN : t.pieceHashes.length < 2 ^ 30)
    (hx : Good t content payload x) :
    x.received + (x.pending t content payload).length ≤ streamLength t payload := by
  obtain ⟨p, past, hT, hpast, -⟩ := hx
  have hle : (peerStream t content payload x.session.conn.log).length ≤ streamLength t payload :=
    peerStream_length_le h hN (Phase.asked_prefix h hT.holds) hT.asked
  rw [hT.sent, List.length_append, hpast] at hle
  exact hle

theorem step_of_nothing {n : Nat} (hn : (x.arriving t content payload n).bytes = []) :
    x.step t content payload n = .ok x := if_pos hn

/-- One step keeps the exchange in some phase. -/
theorem Good.step (h : Describes t content) (hN : t.pieceHashes.length < 2 ^ 30)
    (hb : payload.length + 5 < 2 ^ 32) (hx : Good t content payload x) (n : Nat) :
    ∃ x', x.step t content payload n = .ok x' ∧ Good t content payload x' ∧
      x'.received = x.received + (x.arriving t content payload n).bytes.length := by
  by_cases hn : (x.arriving t content payload n).bytes = []
  · exact ⟨x, step_of_nothing hn, hx, by rw [hn]; rfl⟩
  obtain ⟨p, past, hT, hpast, -⟩ := hx
  generalize hc : x.arriving t content payload n = chunk at hn
  have hsplit : chunk.bytes ++ (x.pending t content payload).drop (min n 8192) =
      x.pending t content payload := by
    rw [← hc]
    exact List.take_append_drop ..
  have hT1 : Talk t content payload p (x.session.append chunk.bytes) (past ++ chunk.bytes)
      ((x.pending t content payload).drop (min n 8192)) := by
    refine ⟨?_, hT.socket, hT.state, hT.asked, ?_, ?_⟩
    · have := hT.holds
      cases p with
      | bitfield => exact ⟨⟨⟨this.1.torrent, this.1.choked, this.1.bits, this.1.results⟩,
          this.1.current, this.1.next⟩, this.2⟩
      | unchoke => exact ⟨⟨⟨this.1.torrent, this.1.choked, this.1.bits, this.1.results⟩,
          this.1.current, this.1.next⟩, this.2⟩
      | block b => exact ⟨this.1, this.2.1.congr rfl rfl rfl rfl rfl rfl rfl, this.2.2⟩
      | done => exact this
    · change (x.session.conn.recvBuffer ++ chunk.bytes) ++ _ = _
      rw [List.append_assoc, hsplit]
      exact hT.stream
    · rw [List.append_assoc, hsplit]
      exact hT.sent
  obtain ⟨p', s', more', hs', hwait, hT'⟩ := hT1.processBuffer h hN hb
  have hread : x.session.onReadyRead (some chunk) = .ok s' := by
    rw [Session.onReadyRead, if_pos hT.socket, if_neg hn, hs', Outcome.catching_ok]
  have hmore : more' = pending t content payload ⟨s', x.received + chunk.bytes.length⟩ := by
    rw [pending, hT'.sent, ← hpast, ← List.length_append, List.drop_left]
  refine ⟨⟨s', x.received + chunk.bytes.length⟩, ?_, ⟨p', past ++ chunk.bytes, ?_, ?_, ?_⟩, rfl⟩
  · simp only [Exchange.step]
    rw [hc, if_neg hn, hread]
    rfl
  · exact hmore ▸ hT'
  · rw [List.length_append, hpast]
  · exact hmore ▸ hwait

/-! ## Runs -/

/-- Where no byte is on its way, nothing happens. -/
theorem exec_of_nothing (hx : x.pending t content payload = []) (ns : List Nat) :
    exec (Exchange.step t content payload) x ns = some x := by
  induction ns with
  | nil => rfl
  | cons n ns ih =>
      have hn : (x.arriving t content payload n).bytes = [] := by
        change (x.pending t content payload).take _ = []
        rw [hx, List.take_nil]
      rw [exec_cons_of_state? (by rw [step_of_nothing hn]; rfl)]
      exact ih

/-- A run stays in some phase, and receives a byte in every step until there are no more. -/
theorem Good.run (h : Describes t content) (hN : t.pieceHashes.length < 2 ^ 30)
    (hb : payload.length + 5 < 2 ^ 32) (hx : Good t content payload x) (ns : List Nat) :
    ∃ x', exec (Exchange.step t content payload) x ns = some x' ∧ Good t content payload x' ∧
      (x'.pending t content payload ≠ [] →
        x.received + (ns.filter (0 < ·)).length ≤ x'.received) := by
  induction ns generalizing x with
  | nil => exact ⟨x, rfl, hx, fun _ => le_refl _⟩
  | cons n ns ih =>
      by_cases hp : x.pending t content payload = []
      · exact ⟨x, exec_of_nothing hp _, hx, fun hne => absurd hp hne⟩
      obtain ⟨x1, hx1, hgood, hrec⟩ := hx.step h hN hb n
      obtain ⟨x', hx', hgood', hle⟩ := ih hgood
      refine ⟨x', ?_, hgood', fun hne => ?_⟩
      · rw [exec_cons_of_state? (by rw [hx1]; rfl)]
        exact hx'
      · have h1 := hle hne
        have hlen : (x.arriving t content payload n).bytes.length =
            min (min n 8192) (x.pending t content payload).length := List.length_take
        have hpos := List.length_pos_iff.mpr hp
        rw [List.filter_cons]
        split
        next h0 =>
          have := of_decide_eq_true h0
          rw [List.length_cons]
          omega
        next => omega

/-- One connection of a fresh downloader, with a peer that has every piece and answers every request
with the bytes asked for.  Whatever the sizes of the chunks, a run does not fault, and the requests
so far are those of the first blocks, each once and in order, and the jobs so far those of the first
pieces.  As many chunks as the stream has bytes, none empty, leave no byte on its way.  When none is,
every block has been asked for, every piece has been handed to the writer, what it writes is the
content, and the connection, even if asked for a request, sends none. -/
theorem download_complete (h : Describes t content) (hN : t.pieceHashes.length < 2 ^ 30)
    (hb : FullBitfield t payload) (id : Str) (hs : Buffer) (ns : List Nat) :
    ∃ x, exec (step t content payload) (start t id hs) ns = some x ∧
      requests x.session.conn.log <+: (allBlocks t).map (requestOf t) ∧
      (∃ k ≤ t.pieceHashes.length,
        x.session.dl.fileWriter.q = (List.range k).map (pieceJob t content)) ∧
      (streamLength t payload ≤ (ns.filter (0 < ·)).length → x.pending t content payload = []) ∧
      (x.pending t content payload = [] →
        requests x.session.conn.log = (allBlocks t).map (requestOf t) ∧
        x.session.dl.fileWriter.q = (List.range t.pieceHashes.length).map (pieceJob t content) ∧
        OutFile.empty.writeAll x.session.dl.fileWriter.q = ⟨content, true⟩ ∧
        ∃ s', x.session.requestNextBlock = .ok s' ∧
          requests s'.conn.log = requests x.session.conn.log) := by
  have hstart : Good t content payload (start t id hs) := good_start hb
  obtain ⟨x, hx, hgood, hprog⟩ := hstart.run h hN (payload_length_lt hb hN) ns
  have hbound := hgood.received_add_le h hN
  obtain ⟨p, past, hT, hpast, hwait⟩ := hgood
  refine ⟨x, hx, ?_, ?_, fun hlen => ?_, fun hnone => ?_⟩
  · rw [hT.asked]
    exact (Phase.asked_prefix h hT.holds).map _
  · have := hT.holds
    cases p with
    | bitfield => exact ⟨0, Nat.zero_le _, this.2.queue⟩
    | unchoke => exact ⟨0, Nat.zero_le _, this.2.queue⟩
    | block b => exact ⟨b.piece, this.1.1.le, this.2.2.queue⟩
    | done => exact ⟨_, le_refl _, this.2.2.2.queue⟩
  · by_contra hne
    have h1 := hprog hne
    have hpos := List.length_pos_iff.mpr hne
    have h0 : (start t id hs).received = 0 := rfl
    omega
  · obtain rfl : p = .done := hwait.resolve_right fun hne => hne hnone
    obtain ⟨hc, hcur, hnext, hdue⟩ := hT.holds
    refine ⟨hT.asked, hdue.queue, ?_, _, Session.requestNextBlock_ended hc hcur ?_, rfl⟩
    · rw [hdue.queue]
      exact writeAll_content h
    · rw [hdue.torrent]
      exact hnext

/-- The law at the torrent of two pieces of two blocks, where the bitfield has two bits. -/
theorem download_complete_twoPieces :
    ∃ x, exec (step Downloader.twoPieces Downloader.zeros [192])
        (start Downloader.twoPieces [] []) (List.replicate 32833 8192) = some x ∧
      OutFile.empty.writeAll x.session.dl.fileWriter.q = ⟨Downloader.zeros, true⟩ := by
  have hbits : FullBitfield Downloader.twoPieces [192] := ⟨by decide, by decide⟩
  obtain ⟨x, hx, -, -, hall, hend⟩ := download_complete Downloader.describes_twoPieces (by decide)
    hbits [] [] (List.replicate 32833 8192)
  have hlen : streamLength Downloader.twoPieces [192] = 32833 := by decide
  rw [hlen, List.filter_replicate, if_pos (by decide), List.length_replicate] at hall
  exact ⟨x, hx, (hend (hall (le_refl _))).2.2.1⟩

end Exchange

end NodeLink
