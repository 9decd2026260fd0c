import NodeLink.Download.Farm

/-!
# What is checked of a handshake

The peer is to answer the handshake with its own, for the same torrent.
`ProcessBuffer` takes the first 68 bytes it finds in the state `HANDSHAKING` for
that answer and looks at none of them (`handshake_unchecked`).  In the state
`CONNECTING`, before the client's own handshake is sent, it takes messages
(`message_before_handshake`).

`HandshakeChecked` is what a check would give.  It holds in every state of a run in
which the peer sends nothing that a check would refuse (`verified_of_announced`).
Up to the 68th byte this is kept as `Early`: the connection has taken at most
keep-alives.
-/

namespace NodeLink

open Cpp Session

/-- A handshake for the torrent. -/
structure IsHandshake (t : TorrentFile) (b : Buffer) : Prop where
  length_eq : b.length = 68
  first : b.head? = some 19
  protocol : (b.drop 1).take 19 = bytes "BitTorrent protocol"
  infoHash : (b.drop 28).take 20 = t.infoHash

instance (t : TorrentFile) (b : Buffer) : Decidable (IsHandshake t b) :=
  decidable_of_iff (b.length = 68 ∧ b.head? = some 19 ∧
      (b.drop 1).take 19 = bytes "BitTorrent protocol" ∧ (b.drop 28).take 20 = t.infoHash)
    ⟨fun ⟨h1, h2, h3, h4⟩ => ⟨h1, h2, h3, h4⟩, fun h => ⟨h.1, h.2, h.3, h.4⟩⟩

/-- What `BuildHandshake` builds is one. -/
theorem isHandshake_buildHandshake {t : TorrentFile} {peerId : Str} (ht : t.infoHash.length = 20)
    (hp : peerId.length = 20) : IsHandshake t (Message.buildHandshake t peerId) where
  length_eq := Message.buildHandshake_length ht hp
  first := rfl
  protocol := by
    have hb : Message.buildHandshake t peerId =
        [19] ++ (bytes "BitTorrent protocol" ++ (List.replicate 8 0 ++ (t.infoHash ++ peerId))) := by
      simp only [Message.buildHandshake, List.append_assoc]
    have h19 : (bytes "BitTorrent protocol").length = 19 := by decide
    rw [hb, ← h19]
    exact List.take_left
  infoHash := by
    have hb : Message.buildHandshake t peerId =
        ([19] ++ bytes "BitTorrent protocol" ++ List.replicate 8 0) ++ (t.infoHash ++ peerId) := by
      simp only [Message.buildHandshake, List.append_assoc]
    have h28 : ([19] ++ bytes "BitTorrent protocol" ++ List.replicate 8 (0 : UInt8)).length = 28 := by
      decide
    rw [hb, ← h28, List.drop_left, ← ht, List.take_left]

/-- The handshake was checked: only behind one for the torrent does the connection enter
`DOWNLOADING`, send `INTERESTED` or take a message, and after any other 68 bytes its socket is gone. -/
structure HandshakeChecked (t : TorrentFile) (received : Buffer) (c : Connection) : Prop where
  entered : c.handshakeDone = true ∨ c.state = .downloading ∨
      .sent Message.buildInterested ∈ c.log ∨ (∃ id payload, .frame id payload ∈ c.log) →
    IsHandshake t (received.take 68)
  closed : 68 ≤ received.length → ¬ IsHandshake t (received.take 68) → c.socket = false

/-- The stream begins with a message, after any number of keep-alives. -/
def StartsWithFrame (b : Buffer) : Prop :=
  ∃ n id payload rest, b = (List.replicate n Message.buildKeepAlive).flatten ++
    (Message.frame id payload ++ rest) ∧ payload.length + 1 < 2 ^ 32

/-- Nothing a check would refuse: a handshake for the torrent, or fewer than 68 bytes, and before the
client's own handshake no message. -/
def Announced (t : TorrentFile) (received : Buffer) (state : State) : Prop :=
  IsHandshake t (received.take 68) ∨
    (received.length < 68 ∧ (state = .connecting → ¬ StartsWithFrame received))

/-! ## Before the 68th byte -/

/-- An event that stands before the handshake. -/
def Event.Early : Event → Prop
  | .sent b => b ≠ Message.buildInterested
  | .keepAlive => True
  | _ => False

/-- Fewer than 68 bytes were received, and nothing but keep-alives was taken. -/
structure Early (received : Buffer) (c : Connection) : Prop where
  short : received.length < 68
  phase : c.state ≠ .downloading
  undone : c.handshakeDone = false
  log : ∀ e ∈ c.log, e.Early

variable {t : TorrentFile} {received : Buffer} {c : Connection} {s s' : Session} {log : List Event}
  {e : Event}

theorem early_concat (h : ∀ e ∈ log, e.Early) (he : e.Early) : ∀ e' ∈ log ++ [e], e'.Early := by
  intro e' he'
  rcases List.mem_append.mp he' with he' | he'
  · exact h e' he'
  · cases List.mem_singleton.mp he'
    exact he

/-- What an early log stands for are keep-alives. -/
theorem wire_early (h : ∀ e ∈ log, e.Early) :
    ∃ n, log.flatMap Event.wire = (List.replicate n Message.buildKeepAlive).flatten := by
  induction log with
  | nil => exact ⟨0, rfl⟩
  | cons e log ih =>
      obtain ⟨n, hn⟩ := ih fun e he => h e (List.mem_cons_of_mem _ he)
      have he := h e (List.mem_cons_self ..)
      rw [List.flatMap_cons, hn]
      cases e with
      | sent b => exact ⟨n, rfl⟩
      | keepAlive => exact ⟨n + 1, by rw [List.replicate_succ, List.flatten_cons]; rfl⟩
      | handshake b => exact he.elim
      | frame id payload => exact he.elim
      | took i => exact he.elim
      | skipped i => exact he.elim

theorem Early.verified (h : Early received c) : HandshakeChecked t received c where
  entered := by
    rintro (hd | hst | hsent | ⟨id, payload, hf⟩)
    · exact absurd (h.undone.symm.trans hd) Bool.false_ne_true
    · exact absurd hst h.phase
    · exact absurd rfl (h.log _ hsent)
    · exact (h.log _ hf).elim
  closed h68 := by
    have := h.short
    omega

/-- A handshake for the torrent stays at the front of the stream. -/
theorem IsHandshake.append {b : Buffer} (h : IsHandshake t (b.take 68)) (d : Buffer) :
    IsHandshake t ((b ++ d).take 68) := by
  have hlen := h.length_eq
  rw [List.length_take] at hlen
  rwa [List.take_append_of_le_length (by omega)]

/-- With its handshake sent, a connection waits for 68 bytes. -/
theorem processBuffer_short (hst : s.conn.state = .handshaking)
    (hlen : s.conn.recvBuffer.length < 68) : s.processBuffer = .ok s := by
  refine Stream.Consumer.drain_of_none (pass_eq_none (fun hc => ?_) fun hw => hw.1 hst)
  simp only [Complete] at hc
  rw [if_pos hst] at hc
  omega

/-- Before its handshake is sent, a connection takes only keep-alives, as long as no message comes. -/
theorem connecting_loop (t : TorrentFile) (hno : ¬ StartsWithFrame received) :
    Swarm.LoopInvariant t fun c => c.state = .connecting ∧ c.handshakeDone = false ∧
      (∀ e ∈ c.log, e.Early) ∧ c.log.flatMap Event.wire ++ c.recvBuffer = received := by
  have key : ∀ {s : Session} {o}, (s.conn.state = .connecting ∧ s.conn.handshakeDone = false ∧
      (∀ e ∈ s.conn.log, e.Early) ∧ s.conn.log.flatMap Event.wire ++ s.conn.recvBuffer = received) →
      s.pass = some o → o = .fault .recvBuffer ∨ ∃ rest,
        s.conn.recvBuffer = Message.buildKeepAlive ++ rest ∧ o = .ok (s.kept rest) := by
    rintro s o ⟨hst, -, hlog, hwire⟩ hp
    rcases pass_cases s with
        ⟨hp', -⟩ | ⟨b, rest, hsh, -, -, hp'⟩ | ⟨rest, -, hb, hp'⟩ |
        ⟨id, payload, rest, -, hb, hlen, hp'⟩ | ⟨-, hp'⟩ <;> rw [hp'] at hp <;> cases hp
    · rw [hst] at hsh
      cases hsh
    · exact .inr ⟨rest, hb, rfl⟩
    · obtain ⟨n, hn⟩ := wire_early hlog
      exact absurd ⟨n, id, payload, rest, by rw [← hwire, hn, hb], hlen⟩ hno
    · exact .inl rfl
  refine ⟨fun _ _ hP hp => ?_, fun _ _ hP hp => ?_⟩
  · rcases key hP hp with ho | ⟨rest, hb, ho⟩ <;> cases ho
    obtain ⟨hst, hd, hlog, hwire⟩ := hP
    refine ⟨hst, hd, early_concat hlog (e := .keepAlive) trivial, ?_⟩
    rw [hb] at hwire
    change List.flatMap Event.wire (_ ++ [Event.keepAlive]) ++ rest = received
    rw [List.flatMap_append, List.append_assoc]
    exact hwire
  · rcases key hP hp with ho | ⟨rest, hb, ho⟩ <;> cases ho

theorem Early.onReadyWrite (h : Early received s.conn) (hs : s.onReadyWrite.state? = some s') :
    Early received s'.conn := by
  have hne : Message.buildHandshake s.dl.torrent s.dl.myId ≠ Message.buildInterested := fun heq => by
    have h19 : (Message.buildHandshake s.dl.torrent s.dl.myId).head? = some 19 := rfl
    rw [heq] at h19
    cases h19
  rcases Swarm.onReadyWrite_cases s with ⟨-, hw⟩ | ⟨-, hst, hw | hw⟩ <;> rw [hw] at hs <;>
    cases Option.some.inj hs
  · exact h
  · exact ⟨h.short, State.noConfusion, h.undone, early_concat h.log hne⟩
  · exact ⟨h.short, h.phase, h.undone, early_concat h.log hne⟩

/-- A read that brings nothing a check would refuse. -/
theorem Early.onReadyRead {chunk : Chunk} (h : Early received s.conn)
    (hwire : s.conn.log.flatMap Event.wire ++ s.conn.recvBuffer = received)
    (hopen : s.conn.socket = true) (hshort : (received ++ chunk.bytes).length < 68)
    (hno : s.conn.state = .connecting → ¬ StartsWithFrame (received ++ chunk.bytes))
    (hs : ((s.append chunk.bytes).processBuffer.catching Session.close).state? = some s') :
    Early (received ++ chunk.bytes) s'.conn := by
  have hbuf : (s.append chunk.bytes).conn.recvBuffer = s.conn.recvBuffer ++ chunk.bytes := rfl
  cases hst : s.conn.state with
  | connecting =>
      have hP := (connecting_loop s.dl.torrent (hno hst)).read (s := s.append chunk.bytes) rfl hopen
        ⟨hst, h.undone, h.log, by rw [hbuf, ← List.append_assoc]; exact congrArg (· ++ _) hwire⟩ hs
      exact ⟨hshort, fun hd => State.noConfusion (hP.1.symm.trans hd), hP.2.1, hP.2.2.1⟩
  | handshaking =>
      have hlen : (s.append chunk.bytes).conn.recvBuffer.length < 68 := by
        rw [← hwire, List.append_assoc, List.length_append] at hshort
        rw [hbuf]
        omega
      rw [processBuffer_short (s := s.append chunk.bytes) hst hlen] at hs
      cases Option.some.inj hs
      exact ⟨hshort, h.phase, h.undone, h.log⟩
  | downloading => exact absurd hst h.phase

/-! ## Runs -/

namespace Swarm

variable {id : Str} {n k : Nat} {w : Swarm} {es : List Call}

/-- Whenever connection `k` receives something while it has a socket, a check would not refuse what it
has received by then. -/
def AllAnnounced (t : TorrentFile) (id : Str) (n k : Nat) (es : List Call) : Prop :=
  ∀ pre e w c, pre ++ [e] <+: es → exec step (init t id n) pre = some w → w.conns[k]? = some c →
    c.socket = true → hears k w e ≠ [] →
    Announced t (heard k (init t id n) (pre ++ [e])) c.state

theorem AllAnnounced.of_append {es es' : List Call} (h : AllAnnounced t id n k (es ++ es')) :
    AllAnnounced t id n k es :=
  fun pre e w c hp => h pre e w c (hp.trans (List.prefix_append _ _))

/-- In a run in which the peer of connection `k` sends nothing that a check would refuse, what a check
would give holds of it in every state. -/
theorem verified_of_announced (hall : AllAnnounced t id n k es)
    (hrun : exec step (init t id n) es = some w) (hc : w.conns[k]? = some c) :
    HandshakeChecked t (heard k (init t id n) es) c := by
  have key : IsHandshake t ((heard k (init t id n) es).take 68) ∨
      Early (heard k (init t id n) es) c := by
    refine conn_induction (Q := fun es c => AllAnnounced t id n k es →
      IsHandshake t ((heard k (init t id n) es).take 68) ∨ Early (heard k (init t id n) es) c)
      ?_ ?_ ?_ hrun hc hall
    · exact fun _ => .inr ⟨Nat.succ_pos 67, State.noConfusion, rfl, nofun⟩
    · intro es e w c hrun hk ih hall
      rw [heard_concat hrun, hears_of_ne hk, List.append_nil]
      exact ih hall.of_append
    · intro es e w c s' hrun hc ih hf hall
      rcases ih hall.of_append with hhs | hearly
      · rw [heard_concat hrun]
        exact .inl (hhs.append _)
      have hann := hall es e w c List.prefix_rfl hrun hc
      rw [heard_concat hrun] at hann ⊢
      rcases hf with ⟨rs, rfl, hf⟩ | ⟨r, rs, rfl, hf⟩
      · rw [show hears k w (.write k rs) = [] from rfl, List.append_nil]
        exact .inr (hearly.onReadyWrite (s := ⟨c, w.dl, rs⟩) hf)
      · rcases onReadyRead_cases ⟨c, w.dl, rs⟩ r with
            ⟨hcl, hr⟩ | ⟨-, hempty, hr⟩ | ⟨hopen, chunk, rfl, hne, hr⟩ <;> rw [hr] at hf
        · cases Option.some.inj hf
          rw [hears_of_closed hc hcl, List.append_nil]
          exact .inr hearly
        · cases Option.some.inj hf
          rw [hears_of_empty hempty, List.append_nil]
          exact .inr ⟨hearly.short, hearly.phase, hearly.undone, hearly.log⟩
        · rw [hears_chunk hc hopen] at hann ⊢
          rcases hann hopen hne with hhs | ⟨hshort, hno⟩
          · exact .inl hhs
          · exact .inr (hearly.onReadyRead (s := ⟨c, w.dl, rs⟩) (wire_eq_heard hrun hc) hopen hshort
              hno hf)
  rcases key with hhs | hearly
  · exact ⟨fun _ => hhs, fun _ hn => absurd hhs hn⟩
  · exact hearly.verified

/-- A torrent of two one-byte pieces, with an info hash of 20 bytes. -/
def withHash (b : UInt8) : TorrentFile :=
  { Downloader.twoBytes with infoHash := List.replicate 20 b }

/-- The handshake of a peer for the torrent with this info hash. -/
def peerHandshake (b : UInt8) : Chunk :=
  ⟨Message.buildHandshake (withHash b) (List.replicate 20 0x70),
    (Message.buildHandshake_length rfl rfl).le.trans (by decide)⟩

/-- A peer that answers with the right handshake and sends a bitfield. -/
def rightSwarm : List Call :=
  [.write 0 [], .read 0 (some (peerHandshake 7)) [],
    .read 0 (some ⟨Message.frame Message.bitfield [0xC0], by decide⟩) []]

/-- Its messages are taken behind a handshake that a check would let through. -/
theorem verified_of_announced_rightSwarm :
    ∃ w c, exec step (init (withHash 7) [] 1) rightSwarm = some w ∧ w.conns[0]? = some c ∧
      c.peerPieces = [true, true] ∧
      HandshakeChecked (withHash 7) (heard 0 (init (withHash 7) [] 1) rightSwarm) c := by
  have hall : AllAnnounced (withHash 7) [] 1 0 rightSwarm := by
    intro pre e w c hp hrun hc _ hne
    have hread : ∀ i < 3, i ≠ 0 → IsHandshake (withHash 7)
        ((heard 0 (init (withHash 7) [] 1) (rightSwarm.take (i + 1))).take 68) := by decide +kernel
    have hpre : pre ++ [e] = rightSwarm.take (pre.length + 1) := by
      rw [List.prefix_iff_eq_take.mp hp, List.length_append]
      rfl
    have hlt : pre.length + 1 ≤ 3 := by
      have := hp.length_le
      rwa [List.length_append] at this
    by_cases h0 : pre.length = 0
    · -- the first call is not a read
      rw [h0] at hpre
      have he : e = .write 0 [] := by
        rw [List.eq_nil_of_length_eq_zero h0] at hpre
        exact (List.cons.inj hpre).1
      rw [he] at hne
      exact absurd rfl hne
    · rw [hpre]
      exact .inl (hread pre.length (by omega) h0)
  have hsome : ((exec step (init (withHash 7) [] 1) rightSwarm).bind fun w =>
      w.conns[0]?.map fun c => c.peerPieces) = some [true, true] := by decide +kernel
  obtain ⟨w, hrun, hw⟩ := Option.bind_eq_some_iff.mp hsome
  obtain ⟨c, hc, hpp⟩ := Option.map_eq_some_iff.mp hw
  exact ⟨w, c, hrun, hc, hpp, verified_of_announced hall hrun hc⟩

/-! ## What the code takes instead -/

/-- A peer of another torrent. -/
def wrongSwarm : List Call := [.write 0 [], .read 0 (some (peerHandshake 8)) []]

/-- A peer that sends a bitfield at once, before the client's handshake. -/
def noHandshake : List Call :=
  [.read 0 (some ⟨Message.frame Message.bitfield [0xC0], by decide⟩) []]

/-- The handshake of another torrent is taken for the right one: the connection enters `DOWNLOADING`,
sends `INTERESTED` and keeps its socket.  And a message is taken before any handshake. -/
theorem handshake_unchecked :
    (∃ w c, exec step (init (withHash 7) [] 1) wrongSwarm = some w ∧ w.conns[0]? = some c ∧
      c.socket = true ∧ c.handshakeDone = true ∧ c.state = .downloading ∧
      .sent Message.buildInterested ∈ c.log ∧
      heard 0 (init (withHash 7) [] 1) wrongSwarm = (peerHandshake 8).bytes ∧
      ¬ HandshakeChecked (withHash 7) (heard 0 (init (withHash 7) [] 1) wrongSwarm) c) ∧
    ∃ w c, exec step (init (withHash 7) [] 1) noHandshake = some w ∧ w.conns[0]? = some c ∧
      .frame Message.bitfield [0xC0] ∈ c.log ∧ c.peerPieces = [true, true] ∧
      ¬ HandshakeChecked (withHash 7) (heard 0 (init (withHash 7) [] 1) noHandshake) c := by
  constructor
  · have hsome : ((exec step (init (withHash 7) [] 1) wrongSwarm).bind fun w =>
        w.conns[0]?.map fun c => (c.socket, c.handshakeDone, c.state,
          decide (.sent Message.buildInterested ∈ c.log))) =
        some (true, true, .downloading, true) := by decide +kernel
    have hheard : heard 0 (init (withHash 7) [] 1) wrongSwarm = (peerHandshake 8).bytes := by
      decide +kernel
    obtain ⟨w, hrun, hw⟩ := Option.bind_eq_some_iff.mp hsome
    obtain ⟨c, hc, hcl⟩ := Option.map_eq_some_iff.mp hw
    simp only [Prod.mk.injEq, decide_eq_true_eq] at hcl
    obtain ⟨h1, h2, h3, h4⟩ := hcl
    refine ⟨w, c, hrun, hc, h1, h2, h3, h4, hheard, fun h => ?_⟩
    have hno : ¬ IsHandshake (withHash 7) ((peerHandshake 8).bytes.take 68) := by decide +kernel
    exact hno (hheard ▸ h.entered (.inl h2))
  · have hsome : ((exec step (init (withHash 7) [] 1) noHandshake).bind fun w =>
        w.conns[0]?.map fun c => (decide (.frame Message.bitfield [0xC0] ∈ c.log), c.peerPieces)) =
        some (true, [true, true]) := by decide +kernel
    have hno : ¬ IsHandshake (withHash 7)
        ((heard 0 (init (withHash 7) [] 1) noHandshake).take 68) := by decide +kernel
    obtain ⟨w, hrun, hw⟩ := Option.bind_eq_some_iff.mp hsome
    obtain ⟨c, hc, hcl⟩ := Option.map_eq_some_iff.mp hw
    simp only [Prod.mk.injEq, decide_eq_true_eq] at hcl
    exact ⟨w, c, hrun, hc, hcl.1, hcl.2, fun h => hno (h.entered (.inr (.inr (.inr ⟨_, _, hcl.1⟩))))⟩

end Swarm

end NodeLink
