import NodeLink.Download.BlockBounds
import NodeLink.Download.Bitfield
import NodeLink.Download.Blocks
import NodeLink.Download.Swarm

/-!
# What the log of a connection says of its pieces

The log of a connection says which pieces it took and skipped, and what it asked
for.  Two invariants tie it to the state: `BitsInv` to the bits of
`peer_pieces`, and, while the socket is there, `TookInv` to the current piece and
the requests sent for the pieces before it.
-/

namespace NodeLink

open Cpp Session

/-! ## What the log says -/

/-- A bitfield with the bit of piece `i` was received. -/
def SawBit (log : List Event) (i : Int32) : Prop :=
  ∃ payload, .frame Message.bitfield payload ∈ log ∧ Connection.BitSet payload i.toInt.toNat

/-- Every block of piece `i` was asked for. -/
def AllRequested (t : TorrentFile) (log : List Event) (i : Int32) : Prop :=
  ∃ n, t.pieceLen i.toInt = .ok n ∧ n.toInt < 2 ^ 31 ∧
    ∀ k < blockCount n.toInt.toNat, .sent (blockRequest i n.toInt.toNat k) ∈ log

/-- An event that is neither a skipped piece nor a bitfield. -/
def Event.Plain : Event → Prop
  | .skipped _ => False
  | .frame id _ => id ≠ Message.bitfield
  | _ => True

theorem Event.Plain.ne_bitfield {e : Event} (he : e.Plain) (payload : Buffer) :
    e ≠ .frame Message.bitfield payload := by
  rintro rfl
  exact he rfl

theorem sawBit_append {log : List Event} {e : Event} {i : Int32}
    (he : ∀ payload, e ≠ .frame Message.bitfield payload) :
    SawBit (log ++ [e]) i ↔ SawBit log i := by
  constructor
  · rintro ⟨payload, hm, hb⟩
    refine ⟨payload, ?_, hb⟩
    cases List.mem_append.mp hm with
    | inl hm => exact hm
    | inr hm => exact absurd (List.mem_singleton.mp hm).symm (he payload)
  · rintro ⟨payload, hm, hb⟩
    exact ⟨payload, List.mem_append_left _ hm, hb⟩

/-- An event of a longer log is an event of the log before, or the last one. -/
theorem split_concat {log pre post : List Event} {e x : Event} (h : log ++ [e] = pre ++ x :: post) :
    (log = pre ∧ e = x ∧ post = []) ∨ ∃ post', post = post' ++ [e] ∧ log = pre ++ x :: post' := by
  induction post using List.reverseRecOn with
  | nil =>
      obtain ⟨h1, h2⟩ := List.append_inj' h rfl
      exact .inl ⟨h1, List.cons.inj h2 |>.1, rfl⟩
  | append_singleton post y _ =>
      rw [← List.cons_append, ← List.append_assoc] at h
      obtain ⟨h1, h2⟩ := List.append_inj' h rfl
      cases h2
      exact .inr ⟨post, rfl, h1⟩

/-! ## The invariants of a connection -/

variable {t : TorrentFile} {c c' : Connection} {s s' : Session}

/-- The bits of `peer_pieces` are those received, and every skipped piece lacked its bit. -/
structure BitsInv (t : TorrentFile) (c : Connection) : Prop where
  pieces : ∀ i, c.hasPiece i = true ↔ t.InRange i.toInt ∧ SawBit c.log i
  skipped : ∀ pre i post, c.log = pre ++ .skipped i :: post → ¬ SawBit pre i

/-- A piece that was taken is the current one, or all its blocks were asked for; of the current one,
the blocks before the offset were. -/
structure TookInv (t : TorrentFile) (c : Connection) : Prop where
  ne : ∀ i, .took i ∈ c.log → i ≠ -1
  took : ∀ i, .took i ∈ c.log → c.currentPiece = i ∨ AllRequested t c.log i
  progress : c.currentPiece ≠ -1 → ∀ n, t.pieceLen c.currentPiece.toInt = .ok n →
    n.toInt < 2 ^ 31 → ∃ k, c.blockOffset.toInt = blockBegin k ∧
      (k = 0 ∨ (blockBegin k : Int) < n.toInt) ∧
      ∀ j < k, .sent (blockRequest c.currentPiece n.toInt.toNat j) ∈ c.log

/-- One more plain event. -/
theorem BitsInv.plain {e : Event} (h : BitsInv t c) (he : e.Plain)
    (hp : c'.peerPieces = c.peerPieces) (hl : c'.log = c.log ++ [e]) : BitsInv t c' where
  pieces i := by
    rw [hl, sawBit_append he.ne_bitfield, ← h.pieces i, Connection.hasPiece_iff,
      Connection.hasPiece_iff, hp]
  skipped pre i post hlog := by
    rw [hl] at hlog
    rcases split_concat hlog with ⟨-, rfl, -⟩ | ⟨post', -, hlog⟩
    · exact absurd he id
    · exact h.skipped pre i post' hlog

theorem BitsInv.congr (h : BitsInv t c) (hp : c'.peerPieces = c.peerPieces)
    (hl : c'.log = c.log) : BitsInv t c' where
  pieces i := by
    rw [hl, ← h.pieces i, Connection.hasPiece_iff, Connection.hasPiece_iff, hp]
  skipped := by
    rw [hl]
    exact h.skipped

theorem AllRequested.mono {log log' : List Event} {i : Int32} (h : AllRequested t log i)
    (hl : log ⊆ log') : AllRequested t log' i := by
  obtain ⟨n, hn, hlt, hk⟩ := h
  exact ⟨n, hn, hlt, fun k hkn => hl (hk k hkn)⟩

/-- A longer log, without new pieces, for the same current piece. -/
theorem TookInv.mono (h : TookInv t c) (hc : c'.currentPiece = c.currentPiece)
    (ho : c'.blockOffset = c.blockOffset) (hl : c.log ⊆ c'.log)
    (ht : ∀ i, .took i ∈ c'.log → .took i ∈ c.log) : TookInv t c' where
  ne i hi := h.ne i (ht i hi)
  took i hi := by
    rw [hc]
    exact (h.took i (ht i hi)).imp_right fun ha => ha.mono hl
  progress hne n hn hlt := by
    rw [hc] at hne hn ⊢
    rw [ho]
    obtain ⟨k, hk, hkn, hj⟩ := h.progress hne n hn hlt
    exact ⟨k, hk, hkn, fun j hjk => hl (hj j hjk)⟩

/-- The last event takes no piece. -/
theorem took_of_concat {log : List Event} {e : Event} {i : Int32} (he : ∀ i, e ≠ .took i)
    (h : .took i ∈ log ++ [e]) : .took i ∈ log := by
  cases List.mem_append.mp h with
  | inl h => exact h
  | inr h => exact absurd (List.mem_singleton.mp h).symm (he i)

theorem TookInv.plain {e : Event} (h : TookInv t c) (he : ∀ i, e ≠ .took i)
    (hc : c'.currentPiece = c.currentPiece) (ho : c'.blockOffset = c.blockOffset)
    (hl : c'.log = c.log ++ [e]) : TookInv t c' := by
  refine h.mono hc ho ?_ fun i hi => ?_
  · rw [hl]
    exact List.subset_append_left _ _
  · rw [hl] at hi
    exact took_of_concat he hi

/-! ## The search -/

/-- A candidate is a piece of the torrent. -/
theorem nextCandidate_inRange (h : s.nextCandidate.1 ≠ -1) :
    s.dl.torrent.InRange s.nextCandidate.1.toInt := by
  unfold nextCandidate Downloader.getNextPieceToRequest at h ⊢
  dsimp only at h ⊢
  split at h
  next hin => rw [if_pos hin]; exact hin
  next hout => exact absurd rfl h

theorem bitsInv_skip (h : BitsInv t s.conn) {i : Int32} (hin : t.InRange i.toInt)
    (hno : s.conn.hasPiece i = false) : BitsInv t (s.skip i).conn where
  pieces j := by
    have hj : SawBit (s.skip i).conn.log j ↔ SawBit s.conn.log j :=
      sawBit_append fun payload he => Event.noConfusion he
    rw [hj, ← h.pieces j]
    rfl
  skipped pre j post hlog := by
    change s.conn.log ++ [.skipped i] = _ at hlog
    rcases split_concat hlog with ⟨rfl, he, -⟩ | ⟨post', -, hlog⟩
    · cases he
      intro hsaw
      rw [(h.pieces i).mpr ⟨hin, hsaw⟩] at hno
      cases hno
    · exact h.skipped pre j post' hlog

/-- A search that finds a piece leaves it the current one. -/
theorem search_found (hs : Search s true s') : s'.conn.currentPiece ≠ -1 := by
  generalize hf : true = found at hs
  induction hs with
  | ended _ => cases hf
  | hit hne _ => exact hne
  | gaveUp _ _ => cases hf
  | miss _ _ _ ih => exact ih hf

/-! ## The request -/

/-- What holds of a connection in every state. -/
def HandoutInv (t : TorrentFile) (c : Connection) : Prop :=
  BitsInv t c ∧ (c.socket = true → TookInv t c)

/-- One more event that is neither a piece, nor a skipped one, nor a bitfield. -/
theorem HandoutInv.plain {e : Event} (h : HandoutInv t c) (he : e.Plain) (he' : ∀ i, e ≠ .took i)
    (hs : c'.socket = c.socket) (hp : c'.peerPieces = c.peerPieces)
    (hc : c'.currentPiece = c.currentPiece) (ho : c'.blockOffset = c.blockOffset)
    (hl : c'.log = c.log ++ [e]) : HandoutInv t c' :=
  ⟨h.1.plain he hp hl, fun hsock => (h.2 (hs ▸ hsock)).plain he' hc ho hl⟩

/-- A bitfield adds its bits. -/
theorem bitsInv_marked {payload rest : Buffer} (ht : s.dl.torrent = t) (h : BitsInv t s.conn) :
    BitsInv t ((s.framed Message.bitfield payload rest).marked payload).conn where
  pieces i := by
    have hsaw : SawBit (s.conn.log ++ [.frame Message.bitfield payload]) i ↔
        SawBit s.conn.log i ∨ Connection.BitSet payload i.toInt.toNat := by
      constructor
      · rintro ⟨payload', hm, hb⟩
        cases List.mem_append.mp hm with
        | inl hm => exact .inl ⟨payload', hm, hb⟩
        | inr hm => cases List.mem_singleton.mp hm; exact .inr hb
      · rintro (⟨payload', hm, hb⟩ | hb)
        · exact ⟨payload', List.mem_append_left _ hm, hb⟩
        · exact ⟨payload, List.mem_append_right _ (List.mem_singleton_self _), hb⟩
    have hmark := (Connection.markPieces_getD s.conn.peerPieces t.pieceHashes.length payload
      i.toInt.toNat).2
    have hold := h.pieces i
    rw [Connection.hasPiece_iff] at hold ⊢
    change _ ∧ (Connection.markPieces s.conn.peerPieces s.dl.torrent.pieceHashes.length
      payload).getD i.toInt.toNat false = true ↔ _ ∧ SawBit (s.conn.log ++ [_]) i
    rw [ht, hmark, hsaw]
    simp only [TorrentFile.InRange] at hold ⊢
    constructor
    · rintro ⟨h0, hlt, hb | hb⟩
      · exact ⟨⟨h0, by omega⟩, .inl (hold.mp ⟨h0, hb⟩).2⟩
      · exact ⟨⟨h0, by omega⟩, .inr hb⟩
    · rintro ⟨⟨h0, hlt⟩, hb | hb⟩
      · exact ⟨h0, by omega, .inl (hold.mpr ⟨⟨h0, hlt⟩, hb⟩).2⟩
      · exact ⟨h0, by omega, .inr hb⟩
  skipped pre i post hlog := by
    have hlog : s.conn.log ++ [.frame Message.bitfield payload] = pre ++ .skipped i :: post := hlog
    rcases split_concat hlog with ⟨-, he, -⟩ | ⟨post', -, hlog⟩
    · cases he
    · exact h.skipped pre i post' hlog

/-- The handshake is taken and `INTERESTED` sent. -/
theorem HandoutInv.shaken {hs rest : Buffer} (h : HandoutInv t s.conn) :
    HandoutInv t ((s.shaken hs rest).sending Message.buildInterested).conn := by
  have h1 : HandoutInv t (s.shaken hs rest).conn :=
    h.plain (e := .handshake hs) trivial (fun _ => Event.noConfusion) rfl rfl rfl rfl rfl
  exact h1.plain (e := .sent _) trivial (fun _ => Event.noConfusion) rfl rfl rfl rfl rfl

theorem HandoutInv.kept {rest : Buffer} (h : HandoutInv t s.conn) :
    HandoutInv t (s.kept rest).conn :=
  h.plain (e := .keepAlive) trivial (fun _ => Event.noConfusion) rfl rfl rfl rfl rfl

theorem handoutInv_init (t : TorrentFile) : HandoutInv t .init := by
  refine ⟨⟨fun i => ?_, fun pre i post h => ?_⟩, fun _ => ⟨fun i hi => ?_, fun i hi => ?_, fun h => ?_⟩⟩
  · constructor
    · intro h
      rw [Connection.hasPiece_iff] at h
      exact absurd h.2 (by simp [Connection.init])
    · rintro ⟨-, payload, hm, -⟩
      exact absurd hm List.not_mem_nil
  · exact absurd h.symm (by simp [Connection.init])
  · exact absurd hi List.not_mem_nil
  · exact absurd hi List.not_mem_nil
  · exact absurd rfl h

end NodeLink
