import Mathlib.Data.List.Induction
import NodeLink.Download.BlockBounds
import NodeLink.Download.Swarm

/-!
# Segmentation

TCP delivers a stream in chunks of any size, and `OnReadyRead` processes what
has arrived so far.  `segmentation_irrelevant` says that the cuts make no
difference: two ways of cutting one stream end in the same state.

A pass does the same when more input stands behind the unit it takes
(`incremental`), as long as the input stays below the lengths at which the guard
of `ProcessBuffer` wraps around (`Fits`).  A connection that sent its handshake
before its first read rests between two reads: the next unit is not complete,
and its length does not wrap (`Resting`).  From such a state every chunk fits
(`fits_append`), so a chunk is worth the same as its bytes one by one
(`feedAll_single`).

`taken` is the part of the stream the log accounts for.  What is left of the
stream is in `recv_buffer`.
-/

namespace NodeLink

open Cpp Stream

namespace Session

variable {s s' : Session} {o : Outcome Exn Fault Session}

/-! ## More input behind a unit -/

/-- Bounds under which `d` more bytes change nothing about the unit at the front. -/
def Fits (s : Session) (d : Buffer) : Prop :=
  s.conn.recvBuffer.length + d.length < 2 ^ 32 - 4 ∨
  (s.conn.state ≠ .handshaking ∧ 4 ≤ s.conn.recvBuffer.length ∧ s.frameLen < 2 ^ 32 - 4 ∧
    s.conn.recvBuffer.length + d.length ≤ 4 + s.frameLen + 8192)

theorem frameLen_append (h : 4 ≤ s.conn.recvBuffer.length) (d : Buffer) :
    (s.append d).frameLen = s.frameLen := by
  simp only [frameLen]
  exact congrArg UInt32.toNat (Message.readMessageLength_append h d)

theorem pass_append {d : Buffer} (hf : Fits s d) (h : s.pass = some o) :
    (s.append d).pass = some (o.map fun s' => s'.append d) := by
  have hb : ∀ front rest, s.conn.recvBuffer = front ++ rest →
      (s.append d).conn.recvBuffer = front ++ (rest ++ d) := by
    intro front rest h
    change s.conn.recvBuffer ++ d = _
    rw [h, List.append_assoc]
  rcases pass_cases s with
      ⟨hp, -⟩ | ⟨hs, rest, hst, hr, hlen, hp⟩ | ⟨rest, hst, hr, hp⟩ |
      ⟨id, payload, rest, hst, hr, hlen, hp⟩ | ⟨hw, hp⟩ <;> rw [hp] at h <;> cases h
  · rw [pass_handshake (s := s.append d) hst (hb _ _ hr) hlen]
    exact congrArg some (send_onBuffer (· ++ d) (s.shaken hs rest) Message.buildInterested)
  · rw [pass_keepAlive (s := s.append d) hst (hb _ _ hr)]
    rfl
  · rw [pass_frame (s := s.append d) hst (hb _ _ hr) hlen]
    exact congrArg some (dispatch_onBuffer (· ++ d) (s.framed id payload rest) id payload)
  · refine pass_wraps ?_
    obtain ⟨hst, h4, hwrap, hshort⟩ := hw
    have hL : (s.append d).conn.recvBuffer.length = s.conn.recvBuffer.length + d.length :=
      List.length_append
    refine ⟨hst, by omega, by rw [frameLen_append h4]; exact hwrap, ?_⟩
    rw [frameLen_append h4, hL]
    rcases hf with hf | ⟨-, -, hf, -⟩
    · omega
    · omega

theorem fits_pass {d : Buffer} (hf : Fits s d) (h : s.pass = some (.ok s')) : Fits s' d := by
  refine .inl ?_
  rcases pass_cases s with
      ⟨hp, -⟩ | ⟨hs, rest, hst, hr, hlen, hp⟩ | ⟨rest, hst, hr, hp⟩ |
      ⟨id, payload, rest, hst, hr, hlen, hp⟩ | ⟨hw, hp⟩ <;> rw [hp] at h
  · cases h
  · rw [send_recvBuffer (by rw [Option.some.inj h]; rfl)]
    change rest.length + d.length < _
    rcases hf with hf | ⟨hn, -⟩
    · rw [hr, List.length_append] at hf
      omega
    · exact absurd hst hn
  · cases h
    change rest.length + d.length < _
    rcases hf with hf | ⟨-, -, hl, hf⟩ <;> rw [hr, List.length_append] at hf
    · omega
    · have h0 : s.frameLen = 0 := by
        simp only [frameLen]
        rw [hr, Message.readMessageLength_keepAlive]
        rfl
      have h4 : Message.buildKeepAlive.length = 4 := rfl
      omega
  · rw [dispatch_recvBuffer (by rw [Option.some.inj h]; rfl)]
    change rest.length + d.length < _
    rcases hf with hf | ⟨-, -, hl, hf⟩ <;> rw [hr, List.length_append, Message.frame_length] at hf
    · omega
    · have hn : s.frameLen = payload.length + 1 := by
        simp only [frameLen]
        rw [hr, Message.readMessageLength_frame hlen]
      omega
  · cases h

theorem incremental : consumer.Incremental append Fits := ⟨pass_append, fits_pass⟩

/-! ## Between two reads -/

/-- An open connection waits for the rest of a unit. -/
def Resting (s : Session) : Prop := s.conn.socket = true → s.pass = none

/-- A chunk fits behind what a resting connection keeps, however it is cut in two. -/
theorem fits_append {c d : Buffer} (h : s.pass = none) (hcd : c.length + d.length ≤ 8192) :
    Fits (s.append c) d := by
  have hL : (s.append c).conn.recvBuffer.length = s.conn.recvBuffer.length + c.length :=
    List.length_append
  rcases pass_cases s with
      ⟨-, hc, hw⟩ | ⟨_, _, -, -, -, hp⟩ | ⟨_, -, -, hp⟩ | ⟨_, _, _, -, -, -, hp⟩ | ⟨-, hp⟩
  · simp only [Fits]
    simp only [Complete] at hc
    rw [hL]
    by_cases hst : s.conn.state = .handshaking
    · rw [if_pos hst] at hc
      exact .inl (by omega)
    · rw [if_neg hst] at hc
      by_cases h4 : 4 ≤ s.conn.recvBuffer.length
      · refine .inr ⟨hst, by omega, ?_, ?_⟩ <;> rw [frameLen_append h4]
        · by_contra hn
          exact hw ⟨hst, h4, by omega, by omega⟩
        · omega
      · exact .inl (by omega)
  all_goals rw [hp] at h; cases h

theorem processBuffer_socket (h : s.processBuffer.state? = some s') :
    s'.conn.socket = s.conn.socket :=
  Consumer.drain_invariant (c := consumer) (P := fun s' => s'.conn.socket = s.conn.socket)
    (fun _ _ _ hs hp ho => (pass_socket hp ho).trans hs) rfl h

/-- A read leaves a connection at rest. -/
theorem resting_onReadyRead {r : Option Chunk} (hr : Resting s)
    (h : s.onReadyRead r = .ok s') : Resting s' := by
  rcases Swarm.onReadyRead_cases s r with
      ⟨-, ho⟩ | ⟨-, -, ho⟩ | ⟨-, chunk, -, -, ho⟩ <;> rw [ho] at h
  · cases h
    exact hr
  · cases h
    exact fun hs => absurd hs Bool.false_ne_true
  · rcases Swarm.catching_state? (congrArg Outcome.state? h) with h | ⟨e, s1, -, rfl⟩
    · exact fun _ => (Consumer.drain_ok h).2
    · exact fun hs => absurd hs Bool.false_ne_true

/-! ## The state without the buffer of a closed connection -/

/-- What is compared: once the socket is gone, nothing reads the buffer. -/
def shown (s : Session) : Session := if s.conn.socket then s else s.onBuffer fun _ => []

theorem shown_of_open (h : s.conn.socket = true) : s.shown = s := if_pos h

theorem shown_socket (s : Session) : s.shown.conn.socket = s.conn.socket := by
  simp only [shown]
  split <;> rfl

theorem onReadyRead_of_closed (h : s.conn.socket = false) (r : Option Chunk) :
    s.onReadyRead r = .ok s := by
  simp only [onReadyRead]
  rw [h]
  rfl

/-- Chunks read one after another. -/
def feedAll : Session → List Chunk → Outcome Exn Fault Session
  | s, [] => .ok s
  | s, c :: cs => (s.onReadyRead (some c)).andThen fun s => s.feedAll cs

theorem feedAll_of_closed (h : s.conn.socket = false) (cs : List Chunk) : s.feedAll cs = .ok s := by
  induction cs with
  | nil => rfl
  | cons c cs ih => rw [feedAll, onReadyRead_of_closed h, Outcome.andThen_ok, ih]

theorem shown_shown (s : Session) : s.shown.shown = s.shown := by
  cases h : s.conn.socket with
  | true => rw [shown_of_open h, shown_of_open h]
  | false =>
      unfold shown
      rw [h]
      exact if_neg (by rw [if_neg Bool.false_ne_true]; exact fun h' => Bool.false_ne_true (h.symm.trans h'))

/-- Reads do not see the buffer of a closed connection. -/
theorem feedAll_shown (s : Session) (cs : List Chunk) :
    (s.shown.feedAll cs).map shown = (s.feedAll cs).map shown := by
  cases hs : s.conn.socket with
  | true => rw [shown_of_open hs]
  | false =>
      rw [feedAll_of_closed hs, feedAll_of_closed (by rw [shown_socket, hs])]
      exact congrArg Outcome.ok (shown_shown s)

/-- Outcomes that are the same as far as they are shown go on the same way. -/
theorem andThen_feedAll {o o' : Outcome Exn Fault Session} (h : o.map shown = o'.map shown)
    (cs : List Chunk) :
    (o.andThen (·.feedAll cs)).map shown = (o'.andThen (·.feedAll cs)).map shown := by
  cases o with
  | ok s =>
      cases o' with
      | ok s' =>
          have hss : s.shown = s'.shown := Outcome.ok.inj h
          rw [Outcome.andThen_ok, Outcome.andThen_ok, ← feedAll_shown, hss, feedAll_shown]
      | throw e s' => cases h
      | fault f => cases h
  | throw e s =>
      cases o' with
      | ok s' => cases h
      | throw e' s' => exact h
      | fault f => cases h
  | fault f =>
      cases o' with
      | ok s' => cases h
      | throw e' s' => cases h
      | fault f' => cases h; rfl

theorem feedAll_append (s : Session) (cs ds : List Chunk) :
    s.feedAll (cs ++ ds) = (s.feedAll cs).andThen (·.feedAll ds) := by
  induction cs generalizing s with
  | nil => rfl
  | cons c cs ih =>
      rw [List.cons_append, feedAll, feedAll]
      cases s.onReadyRead (some c) with
      | ok s1 => exact ih s1
      | throw e s1 => rfl
      | fault f => rfl

theorem resting_feedAll {cs : List Chunk} (hr : Resting s) (h : s.feedAll cs = .ok s') :
    Resting s' := by
  induction cs generalizing s with
  | nil => cases h; exact hr
  | cons c cs ih =>
      obtain ⟨s1, h1, hrest⟩ := Outcome.andThen_eq_ok h
      exact ih (resting_onReadyRead hr h1) hrest

/-! ## A chunk is worth its bytes -/

/-- Reading a chunk is reading its two parts one after another. -/
theorem onReadyRead_split (hr : Resting s) {c d cd : Chunk} (hc : c.bytes ≠ []) (hd : d.bytes ≠ [])
    (hcd : cd.bytes = c.bytes ++ d.bytes) :
    (s.onReadyRead (some cd)).map shown = (s.feedAll [c, d]).map shown := by
  cases hs : s.conn.socket with
  | false => rw [onReadyRead_of_closed hs, feedAll_of_closed hs]
  | true =>
      have hne : cd.bytes ≠ [] := by rw [hcd]; simp [hc]
      have hread : ∀ (s : Session) (c : Chunk), s.conn.socket = true → c.bytes ≠ [] →
          s.onReadyRead (some c) = (s.append c.bytes).processBuffer.catching close := by
        intro s c hs hc
        simp only [onReadyRead]
        rw [if_pos hs]
        exact if_neg hc
      have happ : s.append cd.bytes = (s.append c.bytes).append d.bytes := by
        rw [hcd]
        unfold append onBuffer setConn
        dsimp only
        rw [List.append_assoc]
      have hlen : c.bytes.length + d.bytes.length ≤ 8192 := by
        have := cd.length_le
        rwa [hcd, List.length_append] at this
      rw [hread s cd hs hne, happ, feedAll, hread s c hs hc]
      simp only [processBuffer]
      rw [Consumer.drain_append incremental (fits_append (hr hs) hlen)]
      cases hdrain : consumer.drain (s.append c.bytes) with
      | ok s' =>
          have hs' : s'.conn.socket = true :=
            (processBuffer_socket (s := s.append c.bytes) (congrArg Outcome.state? hdrain)).trans hs
          rw [Outcome.catching_ok, Outcome.andThen_ok, feedAll, hread s' d hs' hd]
          dsimp only
          simp only [processBuffer]
          cases consumer.drain (s'.append d.bytes) <;> rfl
      | throw e s' =>
          rw [Outcome.catching_throw, Outcome.catching_throw, Outcome.andThen_ok,
            feedAll_of_closed rfl]
          rfl
      | fault f => rfl

/-- The chunk of one byte. -/
def single (b : UInt8) : Chunk := ⟨[b], by simp⟩

/-- Reading a chunk is reading its bytes one by one. -/
theorem feedAll_single (hr : Resting s) {c : Chunk} (hc : c.bytes ≠ []) :
    (s.onReadyRead (some c)).map shown = (s.feedAll (c.bytes.map single)).map shown := by
  obtain ⟨l, hl⟩ := c
  induction l generalizing s with
  | nil => exact absurd rfl hc
  | cons b l ih =>
      cases l with
      | nil =>
          change _ = ((s.onReadyRead (some (single b))).andThen fun s => .ok s).map shown
          rw [single]
          cases s.onReadyRead (some ⟨[b], _⟩) <;> rfl
      | cons b' l =>
          have hl' : (b' :: l).length ≤ 8192 := by
            rw [List.length_cons] at hl
            omega
          have hsplit : (s.onReadyRead (some ⟨b :: b' :: l, hl⟩)).map shown =
              (s.feedAll [single b, ⟨b' :: l, hl'⟩]).map shown :=
            onReadyRead_split hr (List.cons_ne_nil _ _) (List.cons_ne_nil _ _) rfl
          rw [hsplit, List.map_cons, feedAll, feedAll]
          cases h1 : s.onReadyRead (some (single b)) with
          | ok s1 =>
              have h2 := ih (s := s1) (resting_onReadyRead hr h1) hl' (List.cons_ne_nil _ _)
              rw [Outcome.andThen_ok, Outcome.andThen_ok, ← h2, feedAll]
              cases s1.onReadyRead (some ⟨b' :: l, hl'⟩) <;> rfl
          | throw e s1 => rfl
          | fault f => rfl

/-- Reading chunks is reading the bytes of the stream one by one. -/
theorem feedAll_flatten (hr : Resting s) {cs : List Chunk} (hne : ∀ c ∈ cs, c.bytes ≠ []) :
    (s.feedAll cs).map shown =
      (s.feedAll ((cs.map Chunk.bytes).flatten.map single)).map shown := by
  induction cs generalizing s with
  | nil => rfl
  | cons c cs ih =>
      have hc := feedAll_single hr (hne c (List.mem_cons_self ..))
      rw [List.map_cons, List.flatten_cons, List.map_append, feedAll_append, feedAll,
        andThen_feedAll hc]
      cases h : s.feedAll (c.bytes.map single) with
      | ok s1 => exact ih (resting_feedAll hr h) fun c' hc' => hne c' (List.mem_cons_of_mem _ hc')
      | throw e s1 => rfl
      | fault f => rfl

/-! ## The part of the stream that is taken -/

/-- The bytes the log accounts for. -/
def taken (s : Session) : Buffer := s.conn.log.flatMap Event.wire

theorem taken_of_frame (h : Frame s s') : s'.taken = s.taken := by
  obtain ⟨es, hlog, hw⟩ := h.log
  have hes : es.flatMap Event.wire = [] := List.flatMap_eq_nil_iff.mpr hw
  rw [taken, hlog, List.flatMap_append, hes, List.append_nil, taken]

/-- The log only grows. -/
theorem log_pass (hp : s.pass = some o) (ho : o.state? = some s') :
    s.conn.log <+: s'.conn.log := by
  rcases pass_state_cases hp ho with
      ⟨hs, rest, -, -, -, rfl⟩ | ⟨rest, -, -, rfl⟩ | ⟨id, payload, rest, -, -, -, rfl⟩
  · rw [sending_conn, Connection.logged_log]
    exact (List.prefix_append _ _).trans (List.prefix_append _ _)
  · exact List.prefix_append _ _
  · obtain ⟨log, hlog, -⟩ := (dispatch_frame ho).log
    rw [hlog]
    exact (List.prefix_append _ _).trans (List.prefix_append _ _)

theorem log_onReadyRead {r : Option Chunk} (h : s.onReadyRead r = .ok s') :
    s.conn.log <+: s'.conn.log := by
  have hdrain : ∀ s0 s1 : Session, s0.processBuffer.state? = some s1 →
      s0.conn.log <+: s1.conn.log := fun s0 s1 h1 =>
    Consumer.drain_invariant (c := consumer) (s := s0) (P := fun s => s0.conn.log <+: s.conn.log)
      (fun _ _ _ hl hp ho => hl.trans (log_pass hp ho)) List.prefix_rfl h1
  rcases Swarm.onReadyRead_cases s r with
      ⟨-, ho⟩ | ⟨-, -, ho⟩ | ⟨-, chunk, -, -, ho⟩ <;> rw [ho] at h
  · cases h
    exact List.prefix_rfl
  · cases h
    exact List.prefix_rfl
  · rcases Swarm.catching_state? (congrArg Outcome.state? h) with h1 | ⟨e, s1, h1, rfl⟩
    · exact hdrain (s.append chunk.bytes) s' (congrArg Outcome.state? h1)
    · exact hdrain (s.append chunk.bytes) s1 (congrArg Outcome.state? h1)

theorem log_feedAll {cs : List Chunk} (h : s.feedAll cs = .ok s') :
    s.conn.log <+: s'.conn.log := by
  induction cs generalizing s with
  | nil => cases h; exact List.prefix_rfl
  | cons c cs ih =>
      obtain ⟨s1, h1, hrest⟩ := Outcome.andThen_eq_ok h
      exact (log_onReadyRead h1).trans (ih hrest)

theorem taken_logged (f : Connection → Connection) (e : Event)
    (hf : (f s.conn).log = s.conn.log ++ [e]) : (s.setConn f).taken = s.taken ++ e.wire := by
  simp only [taken]
  rw [setConn_conn, hf, List.flatMap_append, List.flatMap_singleton]

/-- A pass moves bytes from the buffer to what is taken. -/
theorem taken_pass (hp : s.pass = some o) (ho : o.state? = some s') :
    s'.taken ++ s'.conn.recvBuffer = s.taken ++ s.conn.recvBuffer := by
  rcases pass_state_cases hp ho with
      ⟨hs, rest, -, hb, -, rfl⟩ | ⟨rest, -, hb, rfl⟩ | ⟨id, payload, rest, -, hb, -, rfl⟩
  · have hsend : ((s.shaken hs rest).sending Message.buildInterested).taken =
        (s.shaken hs rest).taken := by
      rw [taken, sending_conn, Connection.logged_log, List.flatMap_append]
      exact List.append_nil _
    rw [hsend, shaken, taken_logged _ (.handshake hs) rfl, hb]
    exact List.append_assoc ..
  · rw [kept, taken_logged _ .keepAlive rfl, hb]
    exact List.append_assoc ..
  · rw [taken_of_frame (dispatch_frame ho), (dispatch_frame ho).recvBuffer, framed,
      taken_logged _ (.frame id payload) rfl, hb]
    exact List.append_assoc ..

theorem taken_processBuffer (h : s.processBuffer.state? = some s') :
    s'.taken ++ s'.conn.recvBuffer = s.taken ++ s.conn.recvBuffer :=
  Consumer.drain_invariant (c := consumer)
    (P := fun s' => s'.taken ++ s'.conn.recvBuffer = s.taken ++ s.conn.recvBuffer)
    (fun _ _ _ hs hp ho => (taken_pass hp ho).trans hs) rfl h

/-- While the connection is open, the stream is what was taken and what is in the buffer. -/
theorem taken_feedAll {cs : List Chunk} (h : s.feedAll cs = .ok s')
    (hs' : s'.conn.socket = true) :
    s'.taken ++ s'.conn.recvBuffer =
      s.taken ++ s.conn.recvBuffer ++ (cs.map Chunk.bytes).flatten := by
  induction cs generalizing s with
  | nil =>
      cases h
      rw [List.map_nil, List.flatten_nil, List.append_nil]
  | cons c cs ih =>
      obtain ⟨s1, h1, hrest⟩ := Outcome.andThen_eq_ok h
      rw [ih hrest, List.map_cons, List.flatten_cons, ← List.append_assoc]
      congr 1
      have hopen : s1.conn.socket = true := by
        cases hs1 : s1.conn.socket with
        | true => rfl
        | false =>
            rw [feedAll_of_closed hs1] at hrest
            cases hrest
            exact absurd (hs1.symm.trans hs') Bool.false_ne_true
      rcases Swarm.onReadyRead_cases s (some c) with
          ⟨hcl, ho⟩ | ⟨-, -, ho⟩ | ⟨-, chunk, hchunk, -, ho⟩ <;> rw [ho] at h1
      · cases h1
        exact absurd (hcl.symm.trans hopen) Bool.false_ne_true
      · cases h1
        exact absurd hopen Bool.false_ne_true
      · cases hchunk
        rcases Swarm.catching_state? (congrArg Outcome.state? h1) with h1 | ⟨e, s2, -, rfl⟩
        · rw [taken_processBuffer (s := s.append c.bytes) (congrArg Outcome.state? h1)]
          exact (List.append_assoc ..).symm
        · exact absurd hopen Bool.false_ne_true

end Session

/-! ## Connections that sent their handshake first -/

namespace Swarm

open Session

variable {t : TorrentFile} {id : Str} {n k : Nat} {es : List Call} {w : Swarm} {c : Connection}

/-- Every read of connection `k` comes after a call that sends its handshake. -/
def HandshakeFirst (k : Nat) (es : List Call) : Prop :=
  ∀ pre r rs, pre ++ [.read k r rs] <+: es → ∃ rs', .write k rs' ∈ pre

/-- What `HandshakeFirst` guarantees of the connection. -/
structure Orderly (k : Nat) (es : List Call) (c : Connection) : Prop where
  resting : ∀ dl rs, Resting ⟨c, dl, rs⟩
  connecting : c.state = .connecting → c.recvBuffer = []
  written : (∃ rs, .write k rs ∈ es) → c.socket = true → c.state ≠ .connecting

theorem HandshakeFirst.of_append {es es' : List Call} (h : HandshakeFirst k (es ++ es')) :
    HandshakeFirst k es :=
  fun pre r rs hp => h pre r rs (hp.trans (List.prefix_append _ _))

theorem HandshakeFirst.cons_write (rs : List Bool) (es : List Call) :
    HandshakeFirst k (.write k rs :: es) := by
  intro pre r rs' hp
  cases pre with
  | nil => exact absurd (List.cons_prefix_cons.mp hp).1 Call.noConfusion
  | cons e pre =>
      rw [List.cons_append, List.cons_prefix_cons] at hp
      exact ⟨rs, hp.1 ▸ List.mem_cons_self ..⟩

theorem HandshakeFirst.cons_of_ne {e : Call} {es : List Call} (he : e.conn ≠ k)
    (h : HandshakeFirst k es) : HandshakeFirst k (e :: es) := by
  intro pre r rs hp
  cases pre with
  | nil =>
      have heq : Call.read k r rs = e := (List.cons_prefix_cons.mp hp).1
      rw [← heq] at he
      exact absurd rfl he
  | cons e' pre =>
      rw [List.cons_append, List.cons_prefix_cons] at hp
      obtain ⟨rs', hmem⟩ := h pre r rs hp.2
      exact ⟨rs', List.mem_cons_of_mem _ hmem⟩

theorem HandshakeFirst.append_of_ne {es es' : List Call} (hes : ∀ e ∈ es, e.conn ≠ k)
    (h : HandshakeFirst k es') : HandshakeFirst k (es ++ es') := by
  induction es with
  | nil => exact h
  | cons e es ih =>
      obtain ⟨he, hes⟩ := List.forall_mem_cons.mp hes
      exact .cons_of_ne he (ih hes)

/-- Whether the loop stops depends on the connection only. -/
theorem pass_eq_none_of_conn {s s' : Session} (hc : s'.conn = s.conn) (h : s.pass = none) :
    s'.pass = none := by
  rcases pass_cases s with
      ⟨-, h1, h2⟩ | ⟨_, _, -, -, -, hp⟩ | ⟨_, -, -, hp⟩ | ⟨_, _, _, -, -, -, hp⟩ | ⟨-, hp⟩
  · refine pass_eq_none (fun hcomp => h1 ?_) (fun hw => h2 ?_)
    · simp only [Complete, frameLen] at hcomp ⊢
      rwa [← hc]
    · simp only [LengthWraps, frameLen] at hw ⊢
      rwa [← hc]
  all_goals rw [hp] at h; cases h

theorem pass_not_connecting {s s' : Session} (hst : s.conn.state ≠ .connecting)
    {o : Outcome Exn Fault Session} (hp : s.pass = some o) (ho : o.state? = some s') :
    s'.conn.state ≠ .connecting := by
  rcases pass_state_cases hp ho with
      ⟨hs, rest, -, -, -, rfl⟩ | ⟨rest, -, -, rfl⟩ | ⟨id, payload, rest, -, -, -, rfl⟩
  · exact State.noConfusion
  · exact hst
  · rw [(dispatch_frame ho).state]
    exact hst

theorem orderly_write {e : Call} {s : Session} {s' : Session} (h : Orderly k es s.conn)
    (hs : s.onReadyWrite.state? = some s') : Orderly k (es ++ [e]) s'.conn := by
  rcases onReadyWrite_cases s with ⟨hcond, hw⟩ | ⟨-, hst, hw | hw⟩ <;> rw [hw] at hs <;>
    cases Option.some.inj hs
  · refine ⟨h.resting, h.connecting, fun _ ho => ?_⟩
    exact hcond.resolve_left fun hcl => Bool.false_ne_true (hcl.symm.trans ho)
  · exact ⟨fun _ _ _ => pass_of_empty (h.connecting hst), State.noConfusion,
      fun _ _ => State.noConfusion⟩
  · exact ⟨fun _ _ ho => absurd ho Bool.false_ne_true, h.connecting,
      fun _ ho => absurd ho Bool.false_ne_true⟩

theorem orderly_read {e : Call} {s : Session} {s' : Session} {r : Option Chunk}
    (h : Orderly k es s.conn) (hmem : ∃ rs, .write k rs ∈ es)
    (hs : (s.onReadyRead r).state? = some s') : Orderly k (es ++ [e]) s'.conn := by
  rcases onReadyRead_cases s r with
      ⟨hcl, hr⟩ | ⟨-, -, hr⟩ | ⟨hopen, chunk, -, -, hr⟩ <;> rw [hr] at hs
  · cases Option.some.inj hs
    exact ⟨h.resting, h.connecting,
      fun _ ho => absurd (hcl.symm.trans ho) Bool.false_ne_true⟩
  · cases Option.some.inj hs
    exact ⟨fun _ _ ho => absurd ho Bool.false_ne_true, h.connecting,
      fun _ ho => absurd ho Bool.false_ne_true⟩
  · have hst : ∀ s1, (s.append chunk.bytes).processBuffer.state? = some s1 →
        s1.conn.state ≠ .connecting := fun s1 h1 =>
      Consumer.drain_invariant (c := consumer) (s := s.append chunk.bytes)
        (P := fun s => s.conn.state ≠ .connecting) (fun _ _ _ hst hp ho => pass_not_connecting hst hp ho)
        (h.written hmem hopen) h1
    rcases catching_state? hs with ho | ⟨ex, s1, ho, rfl⟩
    · have hnc := hst s' (congrArg Outcome.state? ho)
      exact ⟨fun _ _ _ => pass_eq_none_of_conn (s := s') rfl (Consumer.drain_ok ho).2,
        fun hc => absurd hc hnc, fun _ _ => hnc⟩
    · have hnc := hst s1 (congrArg Outcome.state? ho)
      exact ⟨fun _ _ ho => absurd ho Bool.false_ne_true, fun hc => absurd hc hnc, fun _ _ => hnc⟩

/-- The connection is orderly in every state of a run that respects the order. -/
theorem orderly (hfirst : HandshakeFirst k es) (hrun : exec step (init t id n) es = some w)
    (hc : w.conns[k]? = some c) : Orderly k es c := by
  refine conn_induction (Q := fun es c => HandshakeFirst k es → Orderly k es c) ?_ ?_ ?_ hrun hc
    hfirst
  · exact fun _ => ⟨fun _ _ _ => pass_of_empty rfl, fun _ => rfl,
      fun ⟨_, h⟩ => absurd h List.not_mem_nil⟩
  · intro es e w c _ hk ih hfirst
    have h1 := ih hfirst.of_append
    refine ⟨h1.resting, h1.connecting, fun ⟨rs, hmem⟩ => h1.written ⟨rs, ?_⟩⟩
    cases List.mem_append.mp hmem with
    | inl hm => exact hm
    | inr hm =>
        cases List.mem_singleton.mp hm
        exact absurd rfl hk
  · intro es e w c s' _ _ ih hf hfirst
    have h1 := ih hfirst.of_append
    rcases hf with ⟨rs, rfl, hf⟩ | ⟨r, rs, rfl, hf⟩
    · exact orderly_write h1 hf
    · exact orderly_read h1 (hfirst es r rs List.prefix_rfl) hf

/-! ## Segmentation -/

/-- The connections are the same but for their buffers. -/
def SameButBuffer (c c' : Connection) : Prop := c' = { c with recvBuffer := c'.recvBuffer }

/-- What a stream leaves of an open connection: the events of the units taken, and in the buffer the
rest of the stream, without a complete unit. -/
def Consumed (s s' : Session) (stream : Buffer) : Prop :=
  s'.pass = none ∧ ∃ log, s'.conn.log = s.conn.log ++ log ∧
    s.conn.recvBuffer ++ stream = log.flatMap Event.wire ++ s'.conn.recvBuffer

theorem onReadyRead_ne_throw {s s' : Session} {r : Option Chunk} {e : Exn} :
    s.onReadyRead r ≠ .throw e s' := by
  intro h
  rcases onReadyRead_cases s r with ⟨-, ho⟩ | ⟨-, -, ho⟩ | ⟨-, chunk, -, -, ho⟩ <;> rw [ho] at h
  · cases h
  · cases h
  · cases ho' : (s.append chunk.bytes).processBuffer <;> rw [ho'] at h <;> cases h

theorem feedAll_ne_throw {s s' : Session} {cs : List Chunk} {e : Exn} :
    s.feedAll cs ≠ .throw e s' := by
  induction cs generalizing s with
  | nil => exact fun h => by cases h
  | cons c cs ih =>
      rw [feedAll]
      cases h1 : s.onReadyRead (some c) with
      | ok s1 => exact ih
      | throw ex s1 => exact absurd h1 onReadyRead_ne_throw
      | fault f => exact fun h => by cases h

theorem consumed_feedAll {s s' : Session} {cs : List Chunk} (hr : Resting s)
    (h : s.feedAll cs = .ok s') (ho : s'.conn.socket = true) :
    Consumed s s' (cs.map Chunk.bytes).flatten := by
  refine ⟨resting_feedAll hr h ho, ?_⟩
  obtain ⟨log, hlog⟩ := log_feedAll h
  refine ⟨log, hlog.symm, ?_⟩
  have ht := taken_feedAll h ho
  have hs' : s'.taken = s.taken ++ log.flatMap Event.wire := by
    rw [taken, ← hlog, List.flatMap_append, taken]
  rw [hs', List.append_assoc, List.append_assoc] at ht
  exact (List.append_cancel_left ht).symm

/-- Sessions that show the same differ in the buffer of a closed connection at most. -/
theorem same_of_shown {s s' : Session} (h : s.shown = s'.shown) :
    s.dl = s'.dl ∧ SameButBuffer s.conn s'.conn ∧
      (s.conn.socket = true → s.conn.recvBuffer = s'.conn.recvBuffer) := by
  have hsock : s.conn.socket = s'.conn.socket := by
    rw [← shown_socket s, h, shown_socket]
  simp only [shown] at h
  rw [← hsock] at h
  cases hs : s.conn.socket with
  | true =>
      rw [hs, if_pos rfl, if_pos rfl] at h
      rw [h]
      exact ⟨rfl, rfl, fun _ => rfl⟩
  | false =>
      rw [hs, if_neg Bool.false_ne_true, if_neg Bool.false_ne_true] at h
      refine ⟨congrArg (fun s => s.dl) h, ?_, fun ho => absurd ho Bool.false_ne_true⟩
      have hc : { s.conn with recvBuffer := [] } = { s'.conn with recvBuffer := [] } :=
        congrArg (fun s => s.conn) h
      simp only [SameButBuffer]
      cases hcc : s.conn
      cases hcc' : s'.conn
      rw [hcc, hcc'] at hc
      cases hc
      rfl

/-- From a state in which the connection sent its handshake before its first read, two ways of
cutting one stream into chunks end in the same fault or in the same state.  On a connection that is
still open, the buffer holds the part of the stream that is not yet a complete unit. -/
theorem segmentation_irrelevant (hfirst : HandshakeFirst k es)
    (hrun : exec step (init t id n) es = some w) (hc : w.conns[k]? = some c) {cs cs' : List Chunk}
    (hne : ∀ ck ∈ cs, ck.bytes ≠ []) (hne' : ∀ ck ∈ cs', ck.bytes ≠ [])
    (hstream : (cs.map Chunk.bytes).flatten = (cs'.map Chunk.bytes).flatten) :
    (∃ f, feedAll ⟨c, w.dl, []⟩ cs = .fault f ∧ feedAll ⟨c, w.dl, []⟩ cs' = .fault f) ∨
    ∃ s s', feedAll ⟨c, w.dl, []⟩ cs = .ok s ∧ feedAll ⟨c, w.dl, []⟩ cs' = .ok s' ∧
      s.dl = s'.dl ∧ SameButBuffer s.conn s'.conn ∧
      (s.conn.socket = true → s.conn.recvBuffer = s'.conn.recvBuffer ∧
        Consumed ⟨c, w.dl, []⟩ s (cs.map Chunk.bytes).flatten) := by
  have hr : Resting ⟨c, w.dl, []⟩ := (orderly hfirst hrun hc).resting w.dl []
  have hsame := feedAll_flatten hr hne
  rw [hstream, ← feedAll_flatten hr hne'] at hsame
  cases h : feedAll ⟨c, w.dl, []⟩ cs with
  | ok s =>
      cases h' : feedAll ⟨c, w.dl, []⟩ cs' with
      | ok s' =>
          rw [h, h'] at hsame
          obtain ⟨hdl, hconn, hbuf⟩ := same_of_shown (Outcome.ok.inj hsame)
          exact .inr ⟨s, s', rfl, rfl, hdl, hconn, fun ho => ⟨hbuf ho, consumed_feedAll hr h ho⟩⟩
      | throw e s' => exact absurd h' feedAll_ne_throw
      | fault f => rw [h, h'] at hsame; cases hsame
  | throw e s => exact absurd h feedAll_ne_throw
  | fault f =>
      cases h' : feedAll ⟨c, w.dl, []⟩ cs' with
      | ok s' => rw [h, h'] at hsame; cases hsame
      | throw e s' => exact absurd h' feedAll_ne_throw
      | fault f' =>
          rw [h, h'] at hsame
          cases hsame
          exact .inl ⟨f, rfl, rfl⟩

/-- A handshake, an `UNCHOKE` and the start of a prefix, in one chunk and in three. -/
theorem segmentation_irrelevant_handshake :
    let c : Connection := { Connection.init with
      state := .handshaking
      log := [.sent (Message.buildHandshake Downloader.twoBytes [])] }
    let start : Session := ⟨c, .init Downloader.twoBytes [], []⟩
    let whole : List Chunk := [⟨List.replicate 68 0 ++ [0, 0, 0, 1, 1, 0, 0], by decide⟩]
    let cut : List Chunk := [⟨List.replicate 67 0, by decide⟩, ⟨[0, 0, 0], by decide⟩,
      ⟨[0, 1, 1, 0, 0], by decide⟩]
    ∃ s s', start.feedAll whole = .ok s ∧ start.feedAll cut = .ok s' ∧
      s.dl = s'.dl ∧ SameButBuffer s.conn s'.conn ∧
      (s.conn.socket = true → s.conn.recvBuffer = s'.conn.recvBuffer ∧
        Consumed start s (whole.map Chunk.bytes).flatten) := by
  intro c start whole cut
  have hfirst : HandshakeFirst 0 [.write 0 []] := .cons_write [] []
  have hnofault : (start.feedAll whole).state?.isSome = true := by decide +kernel
  have hrun : exec step (init Downloader.twoBytes [] 1) [.write 0 []] =
      some ⟨[c], .init Downloader.twoBytes []⟩ := rfl
  have hc : (⟨[c], .init Downloader.twoBytes []⟩ : Swarm).conns[0]? = some c := rfl
  have hne : ∀ ck ∈ whole, ck.bytes ≠ [] := by decide
  have hne' : ∀ ck ∈ cut, ck.bytes ≠ [] := by decide
  rcases segmentation_irrelevant hfirst hrun hc hne hne' (by decide) with ⟨f, hf, -⟩ | h
  · change start.feedAll whole = .fault f at hf
    rw [hf] at hnofault
    cases hnofault
  · exact h

end Swarm

end NodeLink
