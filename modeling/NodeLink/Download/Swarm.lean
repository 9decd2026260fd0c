import Mathlib.Data.List.Induction
import NodeLink.Download.Handlers

/-!
# Connections that share a downloader

`Downloader::Start` opens several connections on one `Downloader`, and the event
loop calls `OnReadyWrite` and `OnReadyRead` on them in whatever order the sockets
become ready.  A `Swarm` is that state, and a run is a list of such calls, with
what `Receive` returned and which system calls failed.

A statement about one connection that both calls preserve holds of every
connection of every run (`forall_conn`).  For an open connection this is asked of
the passes of the loop only while the socket is there (`OpenInvariant`).
`conn_induction` follows one connection through the calls of a run.
-/

namespace NodeLink

open Cpp Session

/-- The connections of a download and what they share. -/
structure Swarm where
  conns : List Connection
  dl : Downloader
deriving DecidableEq, Repr

namespace Swarm

/-- One call of the event loop, on connection `k`. -/
inductive Call where
  | write (k : Nat) (results : List Bool)
  | read (k : Nat) (received : Option Chunk) (results : List Bool)
deriving DecidableEq

/-- The connection a call is on. -/
def Call.conn : Call → Nat
  | .write k _ => k
  | .read k _ _ => k

/-- `n` connections whose `Connect` succeeded, on a fresh downloader. -/
def init (t : TorrentFile) (id : Str) (n : Nat) : Swarm :=
  ⟨List.replicate n .init, .init t id⟩

/-- Connection `k` at work. -/
def onConn (w : Swarm) (k : Nat) (results : List Bool)
    (f : Session → Outcome Exn Fault Session) : Outcome Exn Fault Swarm :=
  match w.conns[k]? with
  | none => .ok w
  | some c => (f ⟨c, w.dl, results⟩).map fun s => ⟨w.conns.set k s.conn, s.dl⟩

/-- One call. -/
def step (w : Swarm) : Call → Outcome Exn Fault Swarm
  | .write k results => w.onConn k results onReadyWrite
  | .read k received results => w.onConn k results fun s => s.onReadyRead received

variable {w w' : Swarm} {e : Call} {es : List Call} {t : TorrentFile} {id : Str} {n k : Nat}
  {c : Connection}

/-! ## One call -/

theorem onReadyWrite_cases (s : Session) :
    ((s.conn.socket = false ∨ s.conn.state ≠ .connecting) ∧ s.onReadyWrite = .ok s) ∨
    (s.conn.socket = true ∧ s.conn.state = .connecting ∧
      (s.onReadyWrite = .ok ((s.sending (Message.buildHandshake s.dl.torrent s.dl.myId)).setConn
          fun c => { c with state := .handshaking }) ∨
        s.onReadyWrite =
          .ok (s.sending (Message.buildHandshake s.dl.torrent s.dl.myId)).close)) := by
  simp only [onReadyWrite]
  by_cases h : s.conn.socket ∧ s.conn.state = .connecting
  · rw [if_pos h]
    refine .inr ⟨h.1, h.2, ?_⟩
    rcases send_cases s (Message.buildHandshake s.dl.torrent s.dl.myId) with hs | ⟨e, hs⟩
    · rw [hs]
      exact .inl rfl
    · rw [hs]
      exact .inr rfl
  · rw [if_neg h]
    refine .inl ⟨?_, rfl⟩
    cases hs : s.conn.socket with
    | false => exact .inl rfl
    | true => exact .inr fun hst => h ⟨hs, hst⟩

theorem onReadyRead_cases (s : Session) (received : Option Chunk) :
    (s.conn.socket = false ∧ s.onReadyRead received = .ok s) ∨
    (s.conn.socket = true ∧ (∀ chunk, received = some chunk → chunk.bytes = []) ∧
      s.onReadyRead received = .ok s.close) ∨
    (s.conn.socket = true ∧ ∃ chunk, received = some chunk ∧ chunk.bytes ≠ [] ∧
      s.onReadyRead received = (s.append chunk.bytes).processBuffer.catching close) := by
  simp only [onReadyRead]
  cases hs : s.conn.socket with
  | false => exact .inl ⟨rfl, rfl⟩
  | true =>
      rw [if_pos rfl]
      cases received with
      | none => exact .inr (.inl ⟨rfl, nofun, rfl⟩)
      | some chunk =>
          by_cases hb : chunk.bytes = []
          · exact .inr (.inl ⟨rfl, fun _ h => Option.some.inj h ▸ hb, if_pos hb⟩)
          · exact .inr (.inr ⟨rfl, chunk, rfl, hb, if_neg hb⟩)

/-- A call that has no connection to work on does nothing.  Otherwise it replaces that connection and
the downloader. -/
theorem step_cases (h : (step w e).state? = some w') :
    (w.conns[e.conn]? = none ∧ w' = w) ∨
    ∃ c s', w.conns[e.conn]? = some c ∧ w' = ⟨w.conns.set e.conn s'.conn, s'.dl⟩ ∧
      ((∃ rs, e = .write e.conn rs ∧ (onReadyWrite ⟨c, w.dl, rs⟩).state? = some s') ∨
        ∃ r rs, e = .read e.conn r rs ∧ (onReadyRead ⟨c, w.dl, rs⟩ r).state? = some s') := by
  have key : ∀ k rs f, (w.onConn k rs f).state? = some w' →
      (w.conns[k]? = none ∧ w' = w) ∨ ∃ c s', w.conns[k]? = some c ∧
        w' = ⟨w.conns.set k s'.conn, s'.dl⟩ ∧ (f ⟨c, w.dl, rs⟩).state? = some s' := by
    intro k rs f h
    simp only [onConn] at h
    cases hc : w.conns[k]? with
    | none =>
        rw [hc] at h
        exact .inl ⟨rfl, (Option.some.inj h).symm⟩
    | some c =>
        rw [hc] at h
        dsimp only at h
        refine .inr ⟨c, ?_⟩
        cases hf : f ⟨c, w.dl, rs⟩ with
        | ok s' =>
            rw [hf] at h
            exact ⟨s', rfl, (Option.some.inj h).symm, rfl⟩
        | throw ex s' =>
            rw [hf] at h
            exact ⟨s', rfl, (Option.some.inj h).symm, rfl⟩
        | fault u => rw [hf] at h; cases h
  cases e with
  | write k rs =>
      rcases key k rs onReadyWrite h with h1 | ⟨c, s', hc, hw, hf⟩
      · exact .inl h1
      · exact .inr ⟨c, s', hc, hw, .inl ⟨rs, rfl, hf⟩⟩
  | read k r rs =>
      rcases key k rs (fun s => s.onReadyRead r) h with h1 | ⟨c, s', hc, hw, hf⟩
      · exact .inl h1
      · exact .inr ⟨c, s', hc, hw, .inr ⟨r, rs, rfl, hf⟩⟩

/-- A call leaves the other connections as they are. -/
theorem step_conns_of_ne (h : (step w e).state? = some w') (hk : k ≠ e.conn) :
    w'.conns[k]? = w.conns[k]? := by
  rcases step_cases h with ⟨-, rfl⟩ | ⟨c, s', -, rfl, -⟩
  · rfl
  · exact List.getElem?_set_ne hk.symm

theorem onConn_of_ok {f : Session → Outcome Exn Fault Session} {rs : List Bool}
    (hc : w.conns[k]? = some c) (hf : f ⟨c, w.dl, rs⟩ = .ok ⟨c, w.dl, rs⟩) :
    w.onConn k rs f = .ok w := by
  obtain ⟨hlt, hget⟩ := List.getElem?_eq_some_iff.mp hc
  simp only [onConn]
  rw [hc]
  simp only
  rw [hf, Outcome.map_ok, ← hget, List.set_getElem_self]

/-- A call on a connection without a socket does nothing. -/
theorem step_of_closed (hc : w.conns[e.conn]? = some c) (hcl : c.socket = false) :
    step w e = .ok w := by
  cases e with
  | write k rs =>
      refine onConn_of_ok (f := onReadyWrite) hc ?_
      rcases onReadyWrite_cases ⟨c, w.dl, rs⟩ with ⟨-, ho⟩ | ⟨ho, -⟩
      · exact ho
      · exact absurd (hcl.symm.trans ho) Bool.false_ne_true
  | read k r rs =>
      refine onConn_of_ok (f := fun s => s.onReadyRead r) hc ?_
      rcases onReadyRead_cases ⟨c, w.dl, rs⟩ r with ⟨-, ho⟩ | ⟨ho, -⟩ | ⟨ho, -⟩
      · exact ho
      · exact absurd (hcl.symm.trans ho) Bool.false_ne_true
      · exact absurd (hcl.symm.trans ho) Bool.false_ne_true

/-! ## The torrent and the id are fixed -/

/-- The downloader is still of the same torrent, and has the same id. -/
def SameDownload (d d' : Downloader) : Prop := d'.torrent = d.torrent ∧ d'.myId = d.myId

theorem SameDownload.refl (d : Downloader) : SameDownload d d := ⟨rfl, rfl⟩

theorem SameDownload.trans {d d' d'' : Downloader} (h : SameDownload d d')
    (h' : SameDownload d' d'') : SameDownload d d'' :=
  ⟨h'.1.trans h.1, h'.2.trans h.2⟩

theorem pass_same {s s' : Session} {o : Outcome Exn Fault Session} (hp : s.pass = some o)
    (ho : o.state? = some s') : SameDownload s.dl s'.dl := by
  rcases pass_state_cases hp ho with
      ⟨hs, rest, -, -, -, rfl⟩ | ⟨rest, -, -, rfl⟩ | ⟨id, payload, rest, -, -, -, rfl⟩
  · exact .refl _
  · exact .refl _
  · exact ⟨(dispatch_frame ho).torrent, (dispatch_frame ho).myId⟩

theorem processBuffer_same {s s' : Session} (h : s.processBuffer.state? = some s') :
    SameDownload s.dl s'.dl :=
  Stream.Consumer.drain_invariant (c := consumer) (P := fun s' => SameDownload s.dl s'.dl)
    (fun _ _ _ hs hp ho => hs.trans (pass_same hp ho)) (.refl _) h

theorem onReadyWrite_same {s s' : Session} (h : s.onReadyWrite.state? = some s') :
    SameDownload s.dl s'.dl := by
  rcases onReadyWrite_cases s with ⟨-, hs⟩ | ⟨-, -, hs | hs⟩ <;> rw [hs] at h <;>
    cases Option.some.inj h <;> exact .refl _

/-- The state a call that swallows exceptions leaves. -/
theorem catching_state? {o : Outcome Exn Fault Session} {s' : Session}
    (h : (o.catching close).state? = some s') :
    o = .ok s' ∨ ∃ e s1, o = .throw e s1 ∧ s' = s1.close := by
  cases o with
  | ok s1 => cases Option.some.inj h; exact .inl rfl
  | throw e s1 => cases Option.some.inj h; exact .inr ⟨e, s1, rfl, rfl⟩
  | fault u => cases h

theorem onReadyRead_same {s s' : Session} {r : Option Chunk}
    (h : (s.onReadyRead r).state? = some s') : SameDownload s.dl s'.dl := by
  rcases onReadyRead_cases s r with ⟨-, hs⟩ | ⟨-, -, hs⟩ | ⟨-, chunk, -, -, hs⟩ <;> rw [hs] at h
  · cases Option.some.inj h
    exact .refl _
  · cases Option.some.inj h
    exact .refl _
  · have hdrain : ∀ s1, (s.append chunk.bytes).processBuffer.state? = some s1 →
        SameDownload s.dl s1.dl := fun s1 h1 => processBuffer_same (s := s.append chunk.bytes) h1
    rcases catching_state? h with ho | ⟨e, s1, ho, rfl⟩
    · exact hdrain s' (congrArg Outcome.state? ho)
    · exact hdrain s1 (congrArg Outcome.state? ho)

theorem step_same (h : (step w e).state? = some w') : SameDownload w.dl w'.dl := by
  rcases step_cases h with ⟨-, rfl⟩ | ⟨c, s', -, rfl, ⟨rs, -, hf⟩ | ⟨r, rs, -, hf⟩⟩
  · exact .refl _
  · exact onReadyWrite_same hf
  · exact onReadyRead_same hf

theorem exec_same (h : exec step w es = some w') : SameDownload w.dl w'.dl :=
  exec_invariant (P := fun w' => SameDownload w.dl w'.dl)
    (fun _ _ _ _ hw hs => hw.trans (step_same hs)) (.refl _) h

/-! ## Invariants of one connection -/

/-- What the passes of a read preserve on an open connection, with a downloader of one torrent. -/
structure LoopInvariant (t : TorrentFile) (P : Connection → Prop) : Prop where
  pass : ∀ {s s' : Session}, s.dl.torrent = t → s.conn.socket = true → P s.conn →
    s.pass = some (.ok s') → P s'.conn
  thrown : ∀ {s s' : Session} {e}, s.dl.torrent = t → s.conn.socket = true → P s.conn →
    s.pass = some (.throw e s') → P s'.conn.close

/-- What everything that happens to an open connection preserves. -/
structure OpenInvariant (t : TorrentFile) (P : Connection → Prop) : Prop
    extends LoopInvariant t P where
  shook : ∀ {s : Session}, s.dl.torrent = t → s.conn.socket = true → P s.conn →
    s.conn.state = .connecting →
    P { (s.sending (Message.buildHandshake t s.dl.myId)).conn with state := .handshaking }
  unsent : ∀ {s : Session}, s.dl.torrent = t → s.conn.socket = true → P s.conn →
    s.conn.state = .connecting → P (s.sending (Message.buildHandshake t s.dl.myId)).conn.close
  append : ∀ {c : Connection} (b : Buffer), c.socket = true → P c → P { c with recvBuffer := b }
  closed : ∀ {c : Connection}, c.socket = true → P c → P c.close

/-- What everything that happens to a connection preserves, with a downloader of one torrent. -/
structure ConnInvariant (t : TorrentFile) (P : Connection → Prop) : Prop where
  shook : ∀ {s : Session}, s.dl.torrent = t → P s.conn → s.conn.state = .connecting →
    P { (s.sending (Message.buildHandshake t s.dl.myId)).conn with state := .handshaking }
  unsent : ∀ {s : Session}, s.dl.torrent = t → P s.conn → s.conn.state = .connecting →
    P (s.sending (Message.buildHandshake t s.dl.myId)).conn.close
  append : ∀ {c : Connection} (b : Buffer), P c → P { c with recvBuffer := b }
  closed : ∀ {c : Connection}, P c → P c.close
  pass : ∀ {s s' : Session}, s.dl.torrent = t → P s.conn → s.pass = some (.ok s') → P s'.conn
  thrown : ∀ {s s' : Session} {e}, s.dl.torrent = t → P s.conn → s.pass = some (.throw e s') →
    P s'.conn.close

section

variable {P : Connection → Prop} {s s' : Session}

theorem ConnInvariant.toOpen (h : ConnInvariant t P) : OpenInvariant t P where
  pass ht _ := h.pass ht
  thrown ht _ := h.thrown ht
  shook ht _ := h.shook ht
  unsent ht _ := h.unsent ht
  append b _ := h.append b
  closed _ := h.closed

namespace LoopInvariant

theorem processBuffer (h : LoopInvariant t P) (ht : s.dl.torrent = t)
    (hopen : s.conn.socket = true) (hP : P s.conn) :
    (∀ s', s.processBuffer = .ok s' → P s'.conn) ∧
      ∀ e s', s.processBuffer = .throw e s' → P s'.conn.close := by
  simp only [Session.processBuffer]
  induction s using Stream.Consumer.drain_induction (c := consumer) with
  | step s ih =>
      rw [Stream.Consumer.drain_eq]
      cases hp : consumer.pass s with
      | none =>
          refine ⟨fun s' hs => ?_, fun e s' hs => by cases hs⟩
          cases hs
          exact hP
      | some o =>
          cases o with
          | ok s1 =>
              exact ih s1 hp ((pass_same hp rfl).1.trans ht) ((pass_socket hp rfl).trans hopen)
                (h.pass ht hopen hP hp)
          | throw e s1 =>
              refine ⟨fun s' hs => (by cases hs), fun e' s' hs => ?_⟩
              cases hs
              exact h.thrown ht hopen hP hp
          | fault f => exact ⟨fun s' hs => (by cases hs), fun e s' hs => by cases hs⟩

/-- A read of a chunk, from the state with the chunk in the buffer. -/
theorem read (h : LoopInvariant t P) (ht : s.dl.torrent = t) (hopen : s.conn.socket = true)
    (hP : P s.conn) (hs : (s.processBuffer.catching close).state? = some s') : P s'.conn := by
  obtain ⟨hok, hthrow⟩ := h.processBuffer ht hopen hP
  rcases catching_state? hs with ho | ⟨e, s1, ho, rfl⟩
  · exact hok s' ho
  · exact hthrow e s1 ho

end LoopInvariant

namespace OpenInvariant

theorem onReadyWrite (h : OpenInvariant t P) (ht : s.dl.torrent = t) (hP : P s.conn)
    (hs : s.onReadyWrite.state? = some s') : P s'.conn := by
  rcases onReadyWrite_cases s with ⟨-, hw⟩ | ⟨hopen, hst, hw | hw⟩ <;> rw [hw] at hs <;>
    cases Option.some.inj hs
  · exact hP
  · have := h.shook ht hopen hP hst
    rwa [← ht] at this
  · have := h.unsent ht hopen hP hst
    rwa [← ht] at this

theorem onReadyRead {r : Option Chunk} (h : OpenInvariant t P) (ht : s.dl.torrent = t)
    (hP : P s.conn) (hs : (s.onReadyRead r).state? = some s') : P s'.conn := by
  rcases onReadyRead_cases s r with ⟨-, hr⟩ | ⟨hopen, -, hr⟩ | ⟨hopen, chunk, -, -, hr⟩ <;>
    rw [hr] at hs
  · cases Option.some.inj hs
    exact hP
  · cases Option.some.inj hs
    exact h.closed hopen hP
  · exact h.read (s := s.append chunk.bytes) ht hopen (h.append _ hopen hP) hs

/-- One call keeps the invariant of every connection. -/
theorem step (h : OpenInvariant t P) (ht : w.dl.torrent = t) (hP : ∀ c ∈ w.conns, P c)
    (hs : (w.step e).state? = some w') : ∀ c ∈ w'.conns, P c := by
  rcases step_cases hs with ⟨-, rfl⟩ | ⟨c, s', hc, rfl, hf⟩
  · exact hP
  · have hPc := hP c (List.mem_of_getElem? hc)
    intro c' hc'
    rcases List.mem_or_eq_of_mem_set hc' with hc' | rfl
    · exact hP c' hc'
    · rcases hf with ⟨rs, -, hf⟩ | ⟨r, rs, -, hf⟩
      · exact h.onReadyWrite (s := ⟨c, w.dl, rs⟩) ht hPc hf
      · exact h.onReadyRead (s := ⟨c, w.dl, rs⟩) ht hPc hf

/-- It holds of every connection in every state a run reaches. -/
theorem forall_conn (h : OpenInvariant t P) (h0 : P .init)
    (hrun : exec Swarm.step (init t id n) es = some w) : ∀ c ∈ w.conns, P c := by
  have key : w.dl.torrent = t ∧ ∀ c ∈ w.conns, P c := by
    refine exec_invariant (P := fun w => w.dl.torrent = t ∧ ∀ c ∈ w.conns, P c)
      (fun _ _ _ _ hw hs => ⟨(step_same hs).1.trans hw.1, h.step hw.1 hw.2 hs⟩)
      ⟨rfl, fun c hc => ?_⟩ hrun
    rw [List.eq_of_mem_replicate hc]
    exact h0
  exact key.2

end OpenInvariant

theorem ConnInvariant.forall_conn (h : ConnInvariant t P) (h0 : P .init)
    (hrun : exec Swarm.step (init t id n) es = some w) : ∀ c ∈ w.conns, P c :=
  h.toOpen.forall_conn h0 hrun

end

/-! ## The calls on one connection -/

/-- What holds of connection `k` at the start, and survives the calls on it and those on others, holds
of it after every run. -/
theorem conn_induction {Q : List Call → Connection → Prop} (h0 : Q [] .init)
    (hother : ∀ es e w c, exec step (init t id n) es = some w → e.conn ≠ k → Q es c →
      Q (es ++ [e]) c)
    (hcall : ∀ es e w c s', exec step (init t id n) es = some w → w.conns[k]? = some c → Q es c →
      ((∃ rs, e = .write k rs ∧ (onReadyWrite ⟨c, w.dl, rs⟩).state? = some s') ∨
        ∃ r rs, e = .read k r rs ∧ (onReadyRead ⟨c, w.dl, rs⟩ r).state? = some s') →
      Q (es ++ [e]) s'.conn)
    (hrun : exec step (init t id n) es = some w) (hc : w.conns[k]? = some c) : Q es c := by
  induction es using List.reverseRecOn generalizing w c with
  | nil =>
      cases Option.some.inj hrun
      cases List.eq_of_mem_replicate (List.mem_of_getElem? hc)
      exact h0
  | append_singleton es e ih =>
      obtain ⟨w1, hrun1, hstep⟩ := exec_concat_eq_some hrun
      by_cases hk : e.conn = k
      · subst hk
        rcases step_cases hstep with ⟨hnone, rfl⟩ | ⟨c1, s', hc1, rfl, hf⟩
        · rw [hc] at hnone
          cases hnone
        · rw [List.getElem?_set_self (List.getElem?_eq_some_iff.mp hc1).1] at hc
          cases Option.some.inj hc
          exact hcall es e w1 c1 s' hrun1 hc1 (ih hrun1 hc1) hf
      · have hc1 : w1.conns[k]? = some c :=
          (step_conns_of_ne hstep (Ne.symm hk)).symm.trans hc
        exact hother es e w1 c hrun1 hk (ih hrun1 hc1)

end Swarm

end NodeLink
