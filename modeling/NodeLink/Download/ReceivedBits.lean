import NodeLink.Download.Bitfield
import NodeLink.Download.Integrity
import NodeLink.Download.Handlers

/-!
# The pieces a peer has announced

After any sequence of messages, `HasPiece` is true of the pieces of the torrent
whose bit some `BITFIELD` had set (`hasPiece_iff_received`).

The functions with a `?` are those of the source with every access to
`peer_pieces` in sight: an access that is out of range is `none`.  There is none.
-/

namespace NodeLink

open Cpp

namespace Connection

/-! ## Accesses -/

/-- `peer_pieces[k] = true`. -/
def setAt? (peerPieces : List Bool) (k : Nat) : Option (List Bool) :=
  if k < peerPieces.length then some (peerPieces.set k true) else none

/-- `HasPiece`, with its access in sight. -/
def hasPiece? (c : Connection) (index : Int32) : Option Bool :=
  if index.toInt < 0 ∨ index.toInt ≥ c.peerPieces.length then some false
  else c.peerPieces[index.toInt.toNat]?

/-- The test of one bit, with its access in sight. -/
def markBit? (i : Nat) (byte : UInt8) (peerPieces : List Bool) (bit : Nat) : Option (List Bool) :=
  if byte.toNat.testBit (7 - bit) then
    let pieceIndex := i * 8 + bit
    if pieceIndex < peerPieces.length then setAt? peerPieces pieceIndex else some peerPieces
  else some peerPieces

/-- The eight bits of one byte, with their accesses in sight. -/
def markByte? (peerPieces : List Bool) (b : UInt8 × Nat) : Option (List Bool) :=
  (List.range 8).foldlM (markBit? b.2 b.1) peerPieces

/-- `peer_pieces` after a bitfield, with the accesses in sight. -/
def markPieces? (peerPieces : List Bool) (n : Nat) (payload : Buffer) : Option (List Bool) :=
  payload.zipIdx.foldlM markByte?
    (peerPieces.take n ++ List.replicate (n - peerPieces.length) false)

/-- A loop whose rounds are all defined is. -/
theorem foldlM_some {α β : Type*} {f : α → β → Option α} {g : α → β → α}
    (h : ∀ a b, f a b = some (g a b)) (l : List β) (a : α) : l.foldlM f a = some (l.foldl g a) := by
  induction l generalizing a with
  | nil => rfl
  | cons b l ih =>
      rw [List.foldlM_cons, h, List.foldl_cons]
      exact ih (g a b)

theorem markBit?_eq (i : Nat) (byte : UInt8) (pp : List Bool) (bit : Nat) :
    markBit? i byte pp bit = some (markBit i byte pp bit) := by
  simp only [markBit?, markBit]
  split
  · split
    next hlt => rw [setAt?, if_pos hlt]
    next => rfl
  · rfl

theorem markByte?_eq (pp : List Bool) (b : UInt8 × Nat) :
    markByte? pp b = some (markByte pp b) :=
  foldlM_some (markBit?_eq b.2 b.1) (List.range 8) pp

/-- A bitfield writes inside `peer_pieces`. -/
theorem markPieces?_eq (pp : List Bool) (n : Nat) (payload : Buffer) :
    markPieces? pp n payload = some (markPieces pp n payload) :=
  foldlM_some markByte?_eq payload.zipIdx _

/-- `HasPiece` reads inside `peer_pieces`. -/
theorem hasPiece?_eq (c : Connection) (index : Int32) :
    c.hasPiece? index = some (c.hasPiece index) := by
  simp only [hasPiece?, hasPiece]
  split
  · rfl
  next hin =>
    have hlt : index.toInt.toNat < c.peerPieces.length := by omega
    rw [List.getD_eq_getElem?_getD, List.getElem?_eq_getElem hlt]
    rfl

/-- A bit that is set lies inside the payload. -/
theorem bitSet_iff {payload : Buffer} {k : Nat} :
    BitSet payload k ↔
      k / 8 < payload.length ∧ (payload.getD (k / 8) 0).toNat.testBit (7 - k % 8) = true := by
  constructor
  · intro h
    refine ⟨?_, h⟩
    by_contra hge
    rw [BitSet, List.getD_eq_getElem?_getD, List.getElem?_eq_none (by omega)] at h
    simp at h
  · rintro ⟨-, h⟩
    exact h

end Connection

namespace Session

variable {t : TorrentFile} {s s' : Session} {id : UInt8} {payload : Buffer}
  {ms : List (UInt8 × Buffer)}

/-! ## Messages -/

/-- The messages a connection has processed, and where that leaves it.  In between, everything but
the torrent and `peer_pieces` may change. -/
inductive Processed (t : TorrentFile) : List (UInt8 × Buffer) → Session → Prop where
  | start {s : Session} : s.dl.torrent = t → s.conn.peerPieces = [] → Processed t [] s
  | elsewhere {ms : List (UInt8 × Buffer)} {s s' : Session} : Processed t ms s →
      s'.dl.torrent = t → s'.conn.peerPieces = s.conn.peerPieces → Processed t ms s'
  | message {ms : List (UInt8 × Buffer)} {s s' : Session} {id : UInt8} {payload rest : Buffer} :
      Processed t ms s → ((s.framed id payload rest).dispatch id payload).state? = some s' →
      Processed t (ms ++ [(id, payload)]) s'

/-- Only a `BITFIELD` changes `peer_pieces`. -/
theorem dispatch_peerPieces (h : (s.dispatch id payload).state? = some s') :
    s'.conn.peerPieces = if id = Message.bitfield then
      Connection.markPieces s.conn.peerPieces s.dl.torrent.pieceHashes.length payload
    else s.conn.peerPieces := by
  rcases dispatch_cases s id payload with
      ⟨hid, hd⟩ | ⟨hid, hd⟩ | ⟨hid, hd⟩ | ⟨hid, hd⟩ | ⟨-, hid, -, -, hd⟩ <;> rw [hd] at h
  · rw [hid, if_neg (by decide)]
    exact (requestNextBlock_frame h).peerPieces
  · cases Option.some.inj h
    rw [hid, if_pos rfl]
    rfl
  · cases Option.some.inj h
    rw [hid, if_neg (by decide)]
    rfl
  · rw [hid, if_neg (by decide)]
    rcases onPiece_cases h with ⟨-, rfl, -⟩ | ⟨-, d, -, ⟨e, -, -, rfl⟩ | ⟨-, -, hn⟩⟩
    · rfl
    · rfl
    · exact (requestNextBlock_frame hn).peerPieces
  · cases Option.some.inj h
    rw [if_neg hid]

/-- One more message brings the bits of its payload, if it is a `BITFIELD`. -/
theorem exists_bitSet_concat (ms : List (UInt8 × Buffer)) (id : UInt8) (payload : Buffer) (k : Nat) :
    (∃ b, (Message.bitfield, b) ∈ ms ++ [(id, payload)] ∧ Connection.BitSet b k) ↔
      (∃ b, (Message.bitfield, b) ∈ ms ∧ Connection.BitSet b k) ∨
        (id = Message.bitfield ∧ Connection.BitSet payload k) := by
  constructor
  · rintro ⟨b, hm, hb⟩
    rcases List.mem_append.mp hm with hm | hm
    · exact .inl ⟨b, hm, hb⟩
    · cases List.mem_singleton.mp hm
      exact .inr ⟨rfl, hb⟩
  · rintro (⟨b, hm, hb⟩ | ⟨rfl, hb⟩)
    · exact ⟨b, List.mem_append_left _ hm, hb⟩
    · exact ⟨payload, List.mem_append_right _ (List.mem_singleton_self _), hb⟩

/-- The bits are those of the payloads, for the pieces of the torrent. -/
theorem Processed.bits (h : Processed t ms s) :
    s.dl.torrent = t ∧ ∀ k, s.conn.peerPieces.getD k false = true ↔
      k < t.pieceHashes.length ∧
        ∃ payload, (Message.bitfield, payload) ∈ ms ∧ Connection.BitSet payload k := by
  induction h with
  | start ht hpp =>
      refine ⟨ht, fun k => ?_⟩
      rw [hpp]
      constructor
      · intro hk
        cases hk
      · rintro ⟨-, payload, hm, -⟩
        cases hm
  | elsewhere _ ht hpp ih =>
      rw [hpp]
      exact ⟨ht, ih.2⟩
  | @message ms s s' id payload rest _ hd ih =>
      obtain ⟨ht, hbits⟩ := ih
      refine ⟨(dispatch_frame hd).torrent.trans ht, fun k => ?_⟩
      rw [dispatch_peerPieces hd, framed_dl, framed_conn, ht]
      change (if id = Message.bitfield then
        Connection.markPieces s.conn.peerPieces t.pieceHashes.length payload
        else s.conn.peerPieces).getD k false = true ↔ _
      rw [exists_bitSet_concat]
      split
      next hid =>
        rw [(Connection.markPieces_getD _ _ _ k).2, hbits k]
        constructor
        · rintro ⟨hk, ⟨-, hold⟩ | hnew⟩
          · exact ⟨hk, .inl hold⟩
          · exact ⟨hk, .inr ⟨hid, hnew⟩⟩
        · rintro ⟨hk, hold | ⟨-, hnew⟩⟩
          · exact ⟨hk, .inl ⟨hk, hold⟩⟩
          · exact ⟨hk, .inr hnew⟩
      next hid =>
        rw [hbits k]
        refine and_congr_right fun _ => ⟨.inl, ?_⟩
        rintro (hold | ⟨hnew, -⟩)
        · exact hold
        · exact absurd hnew hid

/-- A pass of the loop of `ProcessBuffer` processes the message it takes, if it takes one. -/
theorem Processed.pass {o : Outcome Exn Fault Session} (h : Processed t ms s)
    (hp : s.pass = some o) (ho : o.state? = some s') : ∃ ms', ms <+: ms' ∧ Processed t ms' s' := by
  have ht := h.bits.1
  rcases pass_state_cases hp ho with
      ⟨hs, rest, -, -, -, rfl⟩ | ⟨rest, -, -, rfl⟩ | ⟨id, payload, rest, -, -, -, rfl⟩
  · exact ⟨ms, List.prefix_rfl, h.elsewhere ht rfl⟩
  · exact ⟨ms, List.prefix_rfl, h.elsewhere ht rfl⟩
  · exact ⟨_, List.prefix_append ms _, h.message ho⟩

/-- `ProcessBuffer` processes messages. -/
theorem Processed.processBuffer (h : Processed t ms s) (hr : s.processBuffer.state? = some s') :
    ∃ ms', ms <+: ms' ∧ Processed t ms' s' := by
  refine Stream.Consumer.drain_invariant (c := consumer)
    (P := fun s' => ∃ ms', ms <+: ms' ∧ Processed t ms' s') ?_ ⟨ms, List.prefix_rfl, h⟩ hr
  rintro s1 o s2 ⟨ms1, hle, h1⟩ hp ho
  obtain ⟨ms2, hle', h2⟩ := h1.pass hp ho
  exact ⟨ms2, hle.trans hle', h2⟩

/-- `HasPiece` is true of the pieces of the torrent whose bit was in a payload, and no access to
`peer_pieces` is out of range. -/
theorem hasPiece_iff_received (h : Processed t ms s) :
    (∀ i : Int32, s.conn.hasPiece i = true ↔
      0 ≤ i.toInt ∧ i.toInt < t.pieceHashes.length ∧
        ∃ payload, (Message.bitfield, payload) ∈ ms ∧ i.toInt.toNat / 8 < payload.length ∧
          (payload.getD (i.toInt.toNat / 8) 0).toNat.testBit (7 - i.toInt.toNat % 8) = true) ∧
    (∀ i : Int32, s.conn.hasPiece? i = some (s.conn.hasPiece i)) ∧
    ∀ payload, Connection.markPieces? s.conn.peerPieces s.dl.torrent.pieceHashes.length payload =
      some (Connection.markPieces s.conn.peerPieces s.dl.torrent.pieceHashes.length payload) := by
  refine ⟨fun i => ?_, s.conn.hasPiece?_eq, Connection.markPieces?_eq _ _⟩
  rw [Connection.hasPiece_iff, h.bits.2]
  simp only [← Connection.bitSet_iff]
  refine and_congr_right fun h0 => and_congr_left fun _ => ?_
  omega

/-- A connection of a download of one piece, before the first message. -/
def waiting : Session where
  conn := Connection.init
  dl := Downloader.init Downloader.torrentOfA []
  results := []

/-- A payload of one byte sets the one piece, and its spare bits set none. -/
theorem hasPiece_iff_received_spare :
    ∃ s, Processed Downloader.torrentOfA [(Message.bitfield, [0xff])] s ∧
      s.conn.hasPiece 0 = true ∧ s.conn.hasPiece 1 = false := by
  have h : Processed Downloader.torrentOfA ([] ++ [(Message.bitfield, [0xff])])
      ((waiting.framed Message.bitfield [0xff] []).marked [0xff]) :=
    .message (.start (s := waiting) rfl rfl) rfl
  obtain ⟨hbits, -⟩ := hasPiece_iff_received h
  refine ⟨_, h, (hbits 0).mpr ⟨by decide, by decide, [0xff], by decide, by decide, by decide⟩, ?_⟩
  rw [← Bool.not_eq_true, hbits 1]
  rintro ⟨-, hlt, -⟩
  exact absurd hlt (by decide)

end Session

end NodeLink
