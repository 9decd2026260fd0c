import NodeLink.Download.Chunking
import NodeLink.Download.Requests

/-!
# The event loop

`Farm::Run` waits for events and calls `OnReadyWrite` and `OnReadyRead` on the
connection of each, in this order.  A connection is registered for both kinds of
events before it is connected, and its first event is the one that reports the
connect: it contains `EPOLLOUT`.

`farm_sent_in_order` is what follows for a connection: it sends one handshake,
one `INTERESTED` and then requests, each of them while handling a message that
allows it, and nothing once its socket is gone.  `heard` is what it has received
so far.  The events of its log and the bytes in its buffer account for all of it
(`wire_eq_heard`).
-/

namespace NodeLink

open Cpp Session

/-! ## What a connection receives -/

namespace Swarm

variable {t : TorrentFile} {id : Str} {n k : Nat} {w w' : Swarm} {e : Call} {es : List Call}
  {c : Connection}

/-- The bytes connection `k` receives in a call. -/
def hears (k : Nat) (w : Swarm) : Call → Buffer
  | .read j (some chunk) _ =>
      if j = k ∧ (w.conns[k]?.any (·.socket)) = true then chunk.bytes else []
  | _ => []

/-- The bytes connection `k` has received in a run. -/
def heard (k : Nat) (w : Swarm) (es : List Call) : Buffer :=
  (steps step w es).flatMap fun p => hears k p.1 p.2

theorem heard_concat (h : exec step w es = some w') :
    heard k w (es ++ [e]) = heard k w es ++ hears k w' e := by
  simp only [heard]
  rw [steps_concat h, List.flatMap_append, List.flatMap_singleton]

theorem hears_of_ne (h : e.conn ≠ k) : hears k w e = [] := by
  cases e with
  | write j rs => rfl
  | read j r rs =>
      cases r with
      | none => rfl
      | some chunk => exact if_neg fun hj => h hj.1

theorem hears_of_closed (hc : w.conns[k]? = some c) (hcl : c.socket = false) (r : Option Chunk)
    (rs : List Bool) : hears k w (.read k r rs) = [] := by
  cases r with
  | none => rfl
  | some chunk =>
      simp only [hears]
      rw [hc, Option.any_some, hcl]
      exact if_neg fun h => Bool.false_ne_true h.2

theorem hears_of_empty {r : Option Chunk} (h : ∀ chunk, r = some chunk → chunk.bytes = [])
    (rs : List Bool) : hears k w (.read k r rs) = [] := by
  cases r with
  | none => rfl
  | some chunk =>
      simp only [hears]
      rw [h chunk rfl, ite_self]

theorem hears_chunk (hc : w.conns[k]? = some c) (hopen : c.socket = true) (chunk : Chunk)
    (rs : List Bool) : hears k w (.read k (some chunk) rs) = chunk.bytes := by
  simp only [hears]
  rw [hc, Option.any_some]
  exact if_pos ⟨trivial, hopen⟩

/-- The events of the log and the buffer account for every byte received. -/
theorem wire_eq_heard (hrun : exec step (init t id n) es = some w) (hc : w.conns[k]? = some c) :
    c.log.flatMap Event.wire ++ c.recvBuffer = heard k (init t id n) es := by
  refine conn_induction (Q := fun es c =>
    c.log.flatMap Event.wire ++ c.recvBuffer = heard k (init t id n) es) rfl ?_ ?_ hrun hc
  · intro es e w c hrun hk ih
    rw [heard_concat hrun, hears_of_ne hk, List.append_nil, ih]
  · intro es e w c s' hrun hc ih hf
    rw [heard_concat hrun, ← ih]
    rcases hf with ⟨rs, rfl, hf⟩ | ⟨r, rs, rfl, hf⟩
    · have hsent : ∀ b, (c.log ++ [Event.sent b]).flatMap Event.wire = c.log.flatMap Event.wire :=
        fun b => by rw [List.flatMap_append]; exact List.append_nil _
      rcases onReadyWrite_cases ⟨c, w.dl, rs⟩ with ⟨-, hw⟩ | ⟨-, -, hw | hw⟩ <;> rw [hw] at hf <;>
        cases Option.some.inj hf
      · exact (List.append_nil _).symm
      · exact (congrArg (· ++ c.recvBuffer) (hsent _)).trans (List.append_nil _).symm
      · exact (congrArg (· ++ c.recvBuffer) (hsent _)).trans (List.append_nil _).symm
    · rcases onReadyRead_cases ⟨c, w.dl, rs⟩ r with
          ⟨hcl, hr⟩ | ⟨-, hempty, hr⟩ | ⟨hopen, chunk, rfl, -, hr⟩ <;> rw [hr] at hf
      · cases Option.some.inj hf
        rw [hears_of_closed hc hcl, List.append_nil]
      · cases Option.some.inj hf
        rw [hears_of_empty hempty, List.append_nil]
        rfl
      · have htaken : ∀ s1, ((⟨c, w.dl, rs⟩ : Session).append chunk.bytes).processBuffer.state? =
            some s1 → s1.conn.log.flatMap Event.wire ++ s1.conn.recvBuffer =
              c.log.flatMap Event.wire ++ c.recvBuffer ++ chunk.bytes := fun s1 h1 =>
          (taken_processBuffer h1).trans (List.append_assoc ..).symm
        rw [hears_chunk hc hopen]
        rcases catching_state? hf with ho | ⟨ex, s1, ho, rfl⟩
        · exact htaken s' (congrArg Outcome.state? ho)
        · exact htaken s1 (congrArg Outcome.state? ho)

end Swarm

/-! ## What a message sends -/

/-- An event of the search for a piece. -/
def Event.Drawn : Event → Prop
  | .took _ => True
  | .skipped _ => True
  | _ => False

namespace Session

variable {s s' : Session} {id : UInt8} {payload : Buffer}

theorem search_drawn {found : Bool} (h : Search s found s') :
    ∃ mid, s'.conn.log = s.conn.log ++ mid ∧ ∀ e ∈ mid, e.Drawn := by
  have hone : ∀ e : Event, e.Drawn → ∀ e' ∈ [e], e'.Drawn := fun e he e' he' => by
    cases List.mem_singleton.mp he'
    exact he
  induction h with
  | ended _ => exact ⟨[], (List.append_nil _).symm, nofun⟩
  | @hit s _ _ => exact ⟨[.took s.nextCandidate.1], rfl, hone _ trivial⟩
  | @gaveUp s _ _ => exact ⟨[.skipped s.nextCandidate.1], rfl, hone _ trivial⟩
  | @miss s s' _ _ _ _ ih =>
      obtain ⟨mid, hl, hd⟩ := ih
      refine ⟨.skipped s.nextCandidate.1 :: mid, hl.trans (List.append_assoc ..), fun e he => ?_⟩
      rcases List.mem_cons.mp he with rfl | he
      · trivial
      · exact hd e he

theorem requestBlock_sends (h : s.requestBlock.state? = some s') :
    s'.conn.log = s.conn.log ∨ ∃ r : Request, s'.conn.log = s.conn.log ++ [.sent r.message] := by
  have hfin : ∀ (s : Session) n, (s.finishPiece n).conn.log = s.conn.log := fun s n => by
    simp only [finishPiece]
    split <;> rfl
  rcases requestBlock_cases h with ⟨n, -, ⟨-, -, rfl⟩ | ⟨-, -, rfl⟩ | ⟨-, e, -, rfl⟩⟩
  · exact .inl (hfin s n)
  · exact .inr ⟨⟨_, _, _⟩, hfin _ n⟩
  · exact .inr ⟨⟨_, _, _⟩, rfl⟩

theorem requestNextBlock_sends (h : s.requestNextBlock.state? = some s') :
    ∃ mid, (∀ e ∈ mid, e.Drawn) ∧ (s'.conn.log = s.conn.log ++ mid ∨
      s.conn.choked = false ∧ ∃ r : Request, s'.conn.log = s.conn.log ++ mid ++ [.sent r.message]) := by
  rcases requestNextBlock_cases h with
      ⟨-, -, rfl⟩ | ⟨-, -, -, hs⟩ | ⟨hch, s1, hs1, -, h1⟩
  · exact ⟨[], nofun, .inl (List.append_nil _).symm⟩
  · obtain ⟨mid, hl, hd⟩ := search_drawn hs
    exact ⟨mid, hd, .inl hl⟩
  · obtain ⟨mid, hl, hd⟩ : ∃ mid, s1.conn.log = s.conn.log ++ mid ∧ ∀ e ∈ mid, e.Drawn := by
      rcases hs1 with ⟨-, rfl⟩ | ⟨-, hs⟩
      · exact ⟨[], (List.append_nil _).symm, nofun⟩
      · exact search_drawn hs
    refine ⟨mid, hd, ?_⟩
    rw [← hl]
    exact (requestBlock_sends h1).imp_right fun hr => ⟨hch, hr⟩

/-- A message sends at most one request, and only for an `UNCHOKE` or a `PIECE`, unchoked. -/
theorem dispatch_sends (h : (s.dispatch id payload).state? = some s') :
    s'.conn.choked = (Event.frame id payload).choking s.conn.choked ∧
    ∃ mid, (∀ e ∈ mid, e.Drawn) ∧ (s'.conn.log = s.conn.log ++ mid ∨
      (id = Message.unchoke ∨ id = Message.piece) ∧ s'.conn.choked = false ∧
        ∃ r : Request, s'.conn.log = s.conn.log ++ mid ++ [.sent r.message]) := by
  have hquiet : ∀ s1 : Session, s1.conn.log = s.conn.log → ∃ mid, (∀ e ∈ mid, e.Drawn) ∧
      (s1.conn.log = s.conn.log ++ mid ∨ (id = Message.unchoke ∨ id = Message.piece) ∧
        s1.conn.choked = false ∧
          ∃ r : Request, s1.conn.log = s.conn.log ++ mid ++ [.sent r.message]) :=
    fun s1 hl => ⟨[], nofun, .inl (hl.trans (List.append_nil _).symm)⟩
  rcases dispatch_cases s id payload with
      ⟨rfl, hd⟩ | ⟨rfl, hd⟩ | ⟨rfl, hd⟩ | ⟨rfl, hd⟩ | ⟨h1, -, h3, -, hd⟩ <;> rw [hd] at h
  · have hch : s'.conn.choked = false := (requestNextBlock_frame h).choked
    obtain ⟨mid, hdr, hl⟩ := requestNextBlock_sends h
    exact ⟨hch, mid, hdr, hl.imp_right fun ⟨_, hr⟩ => ⟨.inl rfl, hch, hr⟩⟩
  · cases Option.some.inj h
    exact ⟨rfl, hquiet _ rfl⟩
  · cases Option.some.inj h
    exact ⟨rfl, hquiet _ rfl⟩
  · rcases onPiece_cases h with ⟨-, rfl, -⟩ | ⟨-, d, hrec, ⟨e, -, -, rfl⟩ | ⟨-, -, hn⟩⟩
    · exact ⟨rfl, hquiet _ rfl⟩
    · exact ⟨rfl, hquiet _ rfl⟩
    · have hch : s'.conn.choked = s.conn.choked := (requestNextBlock_frame hn).choked
      obtain ⟨mid, hdr, hl⟩ := requestNextBlock_sends hn
      exact ⟨hch, mid, hdr, hl.imp_right fun ⟨hun, hr⟩ => ⟨.inr rfl, hch.trans hun, hr⟩⟩
  · cases Option.some.inj h
    refine ⟨?_, hquiet _ rfl⟩
    rw [Event.choking, if_neg h1, if_neg h3]

end Session

/-! ## The order of what is sent -/

/-- The buffer an event passed to `Send`. -/
def Event.sent? : Event → Option Buffer
  | .sent b => some b
  | _ => none

/-- The buffers passed to `Send`, in order. -/
def sentBuffers (log : List Event) : List Buffer := log.filterMap Event.sent?

theorem sentBuffers_append (log log' : List Event) :
    sentBuffers (log ++ log') = sentBuffers log ++ sentBuffers log' :=
  List.filterMap_append

/-- The last message taken is an `UNCHOKE` or a `PIECE`, and since then there was only the search for
a piece. -/
def Answering (pre : List Event) : Prop :=
  ∃ pre' id payload mid, pre = pre' ++ .frame id payload :: mid ∧
    (id = Message.unchoke ∨ id = Message.piece) ∧ ∀ e ∈ mid, e.Drawn

/-- Where `INTERESTED` and the requests stand in a log. -/
structure InPlace (log : List Event) : Prop where
  interested : ∀ pre post, log = pre ++ .sent Message.buildInterested :: post →
    68 ≤ (pre.flatMap Event.wire).length
  request : ∀ pre (r : Request) post, log = pre ++ .sent r.message :: post →
    Answering pre ∧ chokedAfter pre = false

namespace InPlace

variable {log es : List Event} {e : Event}

theorem nil : InPlace [] where
  interested pre post h := absurd h.symm (by simp)
  request pre r post h := absurd h.symm (by simp)

theorem concat (h : InPlace log)
    (hi : e = .sent Message.buildInterested → 68 ≤ (log.flatMap Event.wire).length)
    (hr : ∀ r : Request, e = .sent r.message → Answering log ∧ chokedAfter log = false) :
    InPlace (log ++ [e]) where
  interested pre post hl := by
    rcases split_concat hl with ⟨rfl, he, -⟩ | ⟨post', -, hl⟩
    · exact hi he
    · exact h.interested pre post' hl
  request pre r post hl := by
    rcases split_concat hl with ⟨rfl, he, -⟩ | ⟨post', -, hl⟩
    · exact hr r he
    · exact h.request pre r post' hl

/-- One more event that sends nothing. -/
theorem quiet (h : InPlace log) (he : e.sent? = none) : InPlace (log ++ [e]) :=
  h.concat (fun hi => by rw [hi] at he; cases he) fun r hr => by rw [hr] at he; cases he

theorem quietly (h : InPlace log) (hes : ∀ e ∈ es, e.sent? = none) : InPlace (log ++ es) := by
  induction es using List.reverseRecOn with
  | nil => rwa [List.append_nil]
  | append_singleton es e ih =>
      rw [← List.append_assoc]
      exact (ih fun e he => hes e (List.mem_append_left _ he)).quiet
        (hes e (List.mem_append_right _ (List.mem_singleton_self e)))

end InPlace

theorem Event.Drawn.sent? {e : Event} (h : e.Drawn) : e.sent? = none := by
  cases e <;> first | rfl | exact h.elim

theorem sentBuffers_drawn {mid : List Event} (h : ∀ e ∈ mid, e.Drawn) : sentBuffers mid = [] :=
  List.filterMap_eq_nil_iff.mpr fun e he => (h e he).sent?

theorem request_ne_interested (r : Request) : r.message ≠ Message.buildInterested := fun h => by
  have hr := asked?_eq_some (e := .sent r.message).mpr rfl
  rw [h, asked?_interested] at hr
  cases hr

/-- What the phase of a connection says about the buffers it has passed to `Send`. -/
def PhaseSent (hs : Buffer) (c : Connection) : Prop :=
  match c.state with
  | .connecting => sentBuffers c.log <+: [hs] ∧ (c.socket = true → sentBuffers c.log = [])
  | .handshaking => sentBuffers c.log = [hs]
  | .downloading => ∃ rs : List Request,
      sentBuffers c.log = hs :: Message.buildInterested :: rs.map Request.message

/-- What holds of a connection that does not read before it has sent its handshake. -/
structure Tidy (hs : Buffer) (c : Connection) : Prop where
  choked : c.choked = chokedAfter c.log
  inPlace : InPlace c.log
  phase : PhaseSent hs c

namespace Tidy

variable {t : TorrentFile} {id : Str} {hs : Buffer} {s s' : Session}

theorem close {c : Connection} (h : Tidy hs c) : Tidy hs c.close where
  choked := h.choked
  inPlace := h.inPlace
  phase := by
    have hp := h.phase
    simp only [PhaseSent, Connection.close_state, Connection.close_log, Connection.close_socket] at hp ⊢
    cases hst : c.state <;> rw [hst] at hp
    · exact ⟨hp.1, fun h => absurd h Bool.false_ne_true⟩
    · exact hp
    · exact hp

/-- One more event that sends nothing, in the same phase after the handshake. -/
theorem quiet {c c' : Connection} {e : Event} (h : Tidy hs c) (he : e.sent? = none)
    (hl : c'.log = c.log ++ [e]) (hch : c'.choked = e.choking c.choked) (hst : c'.state = c.state)
    (hso : c'.socket = c.socket) : Tidy hs c' where
  choked := by rw [hch, hl, chokedAfter_concat, h.choked]
  inPlace := hl ▸ h.inPlace.quiet he
  phase := by
    have hp := h.phase
    have hsent : sentBuffers c'.log = sentBuffers c.log := by
      rw [hl, sentBuffers_append, sentBuffers, sentBuffers, List.filterMap_cons_none he,
        List.filterMap_nil, List.append_nil]
    simp only [PhaseSent] at hp ⊢
    rwa [hst, hsent, hso]

/-- `OnReadyWrite` sends the handshake of a connection that has sent nothing. -/
theorem onReadyWrite (h : Tidy (Message.buildHandshake t id) s.conn) (ht : s.dl.torrent = t)
    (hid : s.dl.myId = id) (hs : s.onReadyWrite.state? = some s') :
    Tidy (Message.buildHandshake t id) s'.conn := by
  have hplace : InPlace (s.conn.log ++ [.sent (Message.buildHandshake t id)]) := by
    refine h.inPlace.concat (fun hi => ?_) fun r hr => ?_
    · have h19 : (Message.buildHandshake t id).head? = some 19 := rfl
      rw [Event.sent.inj hi] at h19
      cases h19
    · have hask := asked?_eq_some.mpr hr
      rw [asked?_handshake] at hask
      cases hask
  have hchoked : s.conn.choked = chokedAfter (s.conn.log ++ [.sent (Message.buildHandshake t id)]) := by
    rw [chokedAfter_concat, h.choked]
    rfl
  rcases Swarm.onReadyWrite_cases s with ⟨-, hw⟩ | ⟨hopen, hst, hw | hw⟩ <;> rw [hw] at hs <;>
    cases Option.some.inj hs
  · exact h
  all_goals
    rw [ht, hid]
    have hp := h.phase
    simp only [PhaseSent, hst] at hp
    have hsent : sentBuffers (s.conn.log ++ [.sent (Message.buildHandshake t id)]) =
        [Message.buildHandshake t id] := by
      rw [sentBuffers_append, hp.2 hopen]
      rfl
  · exact ⟨hchoked, hplace, hsent⟩
  · refine ⟨hchoked, hplace, ?_⟩
    simp only [PhaseSent]
    change match s.conn.state with | .connecting => _ | .handshaking => _ | .downloading => _
    rw [hst]
    exact ⟨hsent ▸ List.prefix_rfl, fun h => absurd h Bool.false_ne_true⟩

theorem chokedAfter_drawn {log mid : List Event} (h : ∀ e ∈ mid, e.Drawn) :
    chokedAfter (log ++ mid) = chokedAfter log := by
  induction mid using List.reverseRecOn with
  | nil => rw [List.append_nil]
  | append_singleton mid e ih =>
      have he := h e (List.mem_append_right _ (List.mem_singleton_self e))
      rw [← List.append_assoc, chokedAfter_concat,
        ih fun e he => h e (List.mem_append_left _ he)]
      cases e <;> first | rfl | exact he.elim

/-- The handshake is taken and `INTERESTED` sent. -/
theorem shaken {b rest : Buffer} (h : Tidy hs s.conn) (hsh : s.conn.state = .handshaking)
    (hlen : b.length = 68) : Tidy hs ((s.shaken b rest).sending Message.buildInterested).conn := by
  have h1 := h.inPlace.quiet (e := .handshake b) rfl
  have hphase := h.phase
  simp only [PhaseSent, hsh] at hphase
  refine ⟨?_, h1.concat (fun _ => ?_) fun r hr => ?_, ⟨[], ?_⟩⟩
  · change s.conn.choked = chokedAfter (s.conn.log ++ [.handshake b] ++ [.sent _])
    rw [chokedAfter_concat, chokedAfter_concat, h.choked]
    rfl
  · rw [List.flatMap_append, List.length_append]
    have hb : ([Event.handshake b].flatMap Event.wire).length = 68 := by
      rw [← hlen]
      exact congrArg List.length (List.append_nil b)
    omega
  · exact absurd (Event.sent.inj hr).symm (request_ne_interested r)
  · change sentBuffers (s.conn.log ++ [.handshake b] ++ [.sent _]) = _
    rw [sentBuffers_append, sentBuffers_append, hphase]
    rfl

/-- A frame is taken, and a request sent or none. -/
theorem dispatch {id : UInt8} {payload rest : Buffer} (h : Tidy hs s.conn)
    (hdown : s.conn.state = .downloading)
    (ho : ((s.framed id payload rest).dispatch id payload).state? = some s') : Tidy hs s'.conn := by
  obtain ⟨hch, mid, hmid, hlog⟩ := dispatch_sends ho
  have hstate : s'.conn.state = .downloading := (dispatch_frame ho).state.trans hdown
  have hframe : (s.framed id payload rest).conn.log = s.conn.log ++ [.frame id payload] := rfl
  rw [hframe] at hlog
  have hafter : chokedAfter (s.conn.log ++ [.frame id payload] ++ mid) = s'.conn.choked := by
    rw [chokedAfter_drawn hmid, chokedAfter_concat, ← h.choked, hch]
    rfl
  have hplace : InPlace (s.conn.log ++ [.frame id payload] ++ mid) :=
    (h.inPlace.quiet (e := .frame id payload) rfl).quietly fun e he => (hmid e he).sent?
  have hphase := h.phase
  simp only [PhaseSent, hdown] at hphase
  obtain ⟨rs, hrs⟩ := hphase
  have hsent : sentBuffers (s.conn.log ++ [.frame id payload] ++ mid) =
      hs :: Message.buildInterested :: rs.map Request.message := by
    rw [sentBuffers_append, sentBuffers_append, sentBuffers_drawn hmid, List.append_nil, hrs]
    exact List.append_nil _
  rcases hlog with hl | ⟨hid, hunch, r, hl⟩
  · refine ⟨by rw [hl, hafter], hl ▸ hplace, ?_⟩
    simp only [PhaseSent, hstate]
    exact ⟨rs, by rw [hl, hsent]⟩
  · refine ⟨?_, ?_, ?_⟩
    · rw [hl, chokedAfter_concat, hafter]
      rfl
    · rw [hl]
      refine hplace.concat (fun hi => absurd (Event.sent.inj hi) (request_ne_interested r)) ?_
      exact fun _ _ => ⟨⟨s.conn.log, id, payload, mid, List.append_assoc .., hid, hmid⟩,
        hafter.trans hunch⟩
    · simp only [PhaseSent, hstate]
      refine ⟨rs ++ [r], ?_⟩
      rw [hl, sentBuffers_append, hsent, List.map_append]
      rfl

/-- A pass after the handshake was sent. -/
theorem pass {o : Outcome Exn Fault Session} (h : Tidy hs s.conn) (hst : s.conn.state ≠ .connecting)
    (hp : s.pass = some o) (ho : o.state? = some s') : Tidy hs s'.conn := by
  rcases pass_state_cases hp ho with
      ⟨b, rest, hsh, -, hlen, rfl⟩ | ⟨rest, -, -, rfl⟩ | ⟨id, payload, rest, hsh, -, -, rfl⟩
  · exact h.shaken hsh hlen
  · exact h.quiet (e := .keepAlive) rfl rfl rfl rfl rfl
  · cases hc : s.conn.state with
    | connecting => exact absurd hc hst
    | handshaking => exact absurd hc hsh
    | downloading => exact h.dispatch hc ho

/-- A read after the handshake was sent. -/
theorem onReadyRead {r : Option Chunk} (h : Tidy hs s.conn)
    (hst : s.conn.socket = true → s.conn.state ≠ .connecting)
    (hr : (s.onReadyRead r).state? = some s') : Tidy hs s'.conn := by
  have hloop : Swarm.LoopInvariant s.dl.torrent fun c => Tidy hs c ∧ c.state ≠ .connecting := by
    refine ⟨fun _ _ hP hp => ⟨hP.1.pass hP.2 hp rfl, Swarm.pass_not_connecting hP.2 hp rfl⟩,
      fun _ _ hP hp => ⟨(hP.1.pass hP.2 hp rfl).close, Swarm.pass_not_connecting hP.2 hp rfl⟩⟩
  rcases Swarm.onReadyRead_cases s r with
      ⟨-, ho⟩ | ⟨-, -, ho⟩ | ⟨hopen, chunk, -, -, ho⟩ <;> rw [ho] at hr
  · cases Option.some.inj hr
    exact h
  · cases Option.some.inj hr
    exact h.close
  · have happend : Tidy hs (s.append chunk.bytes).conn := ⟨h.choked, h.inPlace, h.phase⟩
    exact (hloop.read (s := s.append chunk.bytes) rfl hopen ⟨happend, hst hopen⟩ hr).1

end Tidy

/-! ## Events -/

/-- An event `epoll_wait` reports: its connection, and if it contains `EPOLLOUT` or `EPOLLIN`, what
the system calls of the handler will say. -/
structure EpollEvent where
  conn : Nat
  out : Option (List Bool)
  inp : Option (Option Chunk × List Bool)

/-- The calls `Run` makes for an event. -/
def EpollEvent.calls (ev : EpollEvent) : List Swarm.Call :=
  (ev.out.map fun rs => Swarm.Call.write ev.conn rs).toList ++
    (ev.inp.map fun p => Swarm.Call.read ev.conn p.1 p.2).toList

namespace Farm

open Swarm

variable {t : TorrentFile} {id : Str} {n k : Nat} {w w' : Swarm} {evs : List EpollEvent}
  {c : Connection}

/-- The calls `Run` makes for some events. -/
def calls (evs : List EpollEvent) : List Call := evs.flatMap EpollEvent.calls

/-- `Run`, for some events. -/
def run (w : Swarm) (evs : List EpollEvent) : Option Swarm := exec step w (calls evs)

/-- The first event of connection `k` contains `EPOLLOUT`. -/
def OutFirst (k : Nat) : List EpollEvent → Prop
  | [] => True
  | ev :: evs => if ev.conn = k then ev.out ≠ none else OutFirst k evs

theorem conn_of_mem_calls {ev : EpollEvent} {e : Call} (h : e ∈ ev.calls) : e.conn = ev.conn := by
  rcases List.mem_append.mp h with h | h
  · obtain ⟨rs, -, rfl⟩ := Option.map_eq_some_iff.mp (Option.mem_toList.mp h)
    rfl
  · obtain ⟨p, -, rfl⟩ := Option.map_eq_some_iff.mp (Option.mem_toList.mp h)
    rfl

/-- The connection sends its handshake before its first read. -/
theorem handshakeFirst (h : OutFirst k evs) : HandshakeFirst k (calls evs) := by
  induction evs with
  | nil =>
      intro pre r rs hp
      exact absurd (List.prefix_nil.mp hp) (List.append_ne_nil_of_right_ne_nil pre (List.cons_ne_nil _ _))
  | cons ev evs ih =>
      have hcalls : calls (ev :: evs) = ev.calls ++ calls evs := List.flatMap_cons
      rw [hcalls]
      simp only [OutFirst] at h
      split at h
      next hk =>
        obtain ⟨rs, hout⟩ := Option.ne_none_iff_exists'.mp h
        rw [EpollEvent.calls, hout, hk]
        exact .cons_write rs _
      next hk => exact .append_of_ne (fun e he => conn_of_mem_calls he ▸ hk) (ih h)

/-! ## Runs of the event loop -/

theorem tidy_of_handshakeFirst {es : List Call} (hfirst : HandshakeFirst k es)
    (hrun : exec step (init t id n) es = some w) (hc : w.conns[k]? = some c) :
    Tidy (Message.buildHandshake t id) c := by
  refine conn_induction
    (Q := fun es c => HandshakeFirst k es → Tidy (Message.buildHandshake t id) c)
    (fun _ => ⟨rfl, .nil, List.nil_prefix, fun _ => rfl⟩)
    (fun es e w c _ _ ih hfirst => ih hfirst.of_append) ?_ hrun hc hfirst
  intro es e w c s' hrun hc ih hf hfirst
  have h := ih hfirst.of_append
  obtain ⟨ht, hid⟩ := exec_same hrun
  rcases hf with ⟨rs, rfl, hf⟩ | ⟨r, rs, rfl, hf⟩
  · exact h.onReadyWrite (s := ⟨c, w.dl, rs⟩) ht hid hf
  · have hw := (orderly hfirst.of_append hrun hc).written (hfirst es r rs List.prefix_rfl)
    exact h.onReadyRead (s := ⟨c, w.dl, rs⟩) hw hf

/-- Whatever happens from here on, connection `k` stays as it is, and a call on it changes nothing. -/
def Silent (k : Nat) (w : Swarm) : Prop :=
  ∀ evs w', run w evs = some w' → w'.conns[k]? = w.conns[k]? ∧
    ∀ p ∈ steps step w (calls evs), p.2.conn = k → step p.1 p.2 = .ok p.1

theorem silent_of_closed (hc : w.conns[k]? = some c) (hcl : c.socket = false) : Silent k w := by
  have hstep : ∀ (w1 : Swarm) e w2, w1.conns[k]? = some c → (step w1 e).state? = some w2 →
      w2.conns[k]? = some c := by
    intro w1 e w2 h1 hs
    by_cases hk : e.conn = k
    · rw [step_of_closed (hk ▸ h1) hcl] at hs
      cases Option.some.inj hs
      exact h1
    · rw [step_conns_of_ne hs (Ne.symm hk), h1]
  intro evs w' hrun
  refine ⟨?_, fun p hp hk => ?_⟩
  · rw [hc]
    exact exec_invariant (P := fun w => w.conns[k]? = some c) (fun w1 e w2 _ => hstep w1 e w2) hc hrun
  · have h1 := steps_invariant (P := fun w => w.conns[k]? = some c) hstep hc p hp
    exact step_of_closed (hk ▸ h1) hcl

/-- What a connection has sent, and when. -/
structure SentInOrder (t : TorrentFile) (id : Str) (c : Connection) : Prop where
  /-- A handshake, an `INTERESTED`, and then requests. -/
  order : ∃ rs : List Request, sentBuffers c.log <+:
    Message.buildHandshake t id :: Message.buildInterested :: rs.map Request.message
  /-- The events before `INTERESTED` stand for at least 68 bytes of what was received. -/
  interested : ∀ pre post, c.log = pre ++ .sent Message.buildInterested :: post →
    68 ≤ (pre.flatMap Event.wire).length
  /-- Every request is sent for an `UNCHOKE` or a `PIECE`, unchoked. -/
  request : ∀ pre (r : Request) post, c.log = pre ++ .sent r.message :: post →
    Answering pre ∧ chokedAfter pre = false
  /-- The log says whether the connection is choked. -/
  choked : c.choked = chokedAfter c.log

theorem sentInOrder (h : Tidy (Message.buildHandshake t id) c) : SentInOrder t id c where
  order := by
    have hp := h.phase
    simp only [PhaseSent] at hp
    cases hst : c.state <;> rw [hst] at hp
    · exact ⟨[], hp.1.trans (List.prefix_append [_] _)⟩
    · exact ⟨[], hp ▸ List.prefix_append [_] _⟩
    · obtain ⟨rs, hrs⟩ := hp
      exact ⟨rs, hrs ▸ List.prefix_rfl⟩
  interested := h.inPlace.interested
  request := h.inPlace.request
  choked := h.choked

/-- In every state the event loop reaches, whatever arrives and whatever fails: a connection whose
first event contained `EPOLLOUT` has sent its messages in order, its log and its buffer account for
what it received, and without a socket it is silent. -/
theorem farm_sent_in_order (hfirst : OutFirst k evs) (hrun : run (init t id n) evs = some w)
    (hc : w.conns[k]? = some c) :
    SentInOrder t id c ∧
      c.log.flatMap Event.wire ++ c.recvBuffer = heard k (init t id n) (calls evs) ∧
      (c.socket = false → Silent k w) :=
  ⟨sentInOrder (tidy_of_handshakeFirst (handshakeFirst hfirst) hrun hc), wire_eq_heard hrun hc,
    silent_of_closed hc⟩

/-- A connect that is reported together with the peer's handshake, then a bitfield and an `UNCHOKE`, a
`Send` that fails, and one more event. -/
def shortRun : List EpollEvent :=
  [⟨0, some [], some (some ⟨List.replicate 68 0, Swarm.start_length_le⟩, [])⟩,
    ⟨0, none, some (some ⟨Message.frame Message.bitfield [0xC0] ++ Message.buildUnchoke,
      Swarm.has_length_le⟩, [false])⟩,
    ⟨0, some [], some (none, [])⟩]

/-- The connection sends three messages and loses its socket. -/
theorem farm_sent_in_order_shortRun :
    ∃ w c, run (init Downloader.twoBytes [] 1) shortRun = some w ∧ w.conns[0]? = some c ∧
      c.socket = false ∧ (sentBuffers c.log).length = 3 ∧ SentInOrder Downloader.twoBytes [] c ∧
      c.log.flatMap Event.wire ++ c.recvBuffer =
        heard 0 (init Downloader.twoBytes [] 1) (calls shortRun) ∧ Silent 0 w := by
  have hsome : ((run (init Downloader.twoBytes [] 1) shortRun).bind fun w =>
      w.conns[0]?.map fun c => (c.socket, (sentBuffers c.log).length)) = some (false, 3) := by
    decide +kernel
  obtain ⟨w, hrun, hw⟩ := Option.bind_eq_some_iff.mp hsome
  obtain ⟨c, hc, hcl⟩ := Option.map_eq_some_iff.mp hw
  have hfirst : OutFirst 0 shortRun := by simp [OutFirst, shortRun]
  obtain ⟨h1, h2, h3⟩ := farm_sent_in_order hfirst hrun hc
  have hsock : c.socket = false := congrArg Prod.fst hcl
  exact ⟨w, c, hrun, hc, hsock, congrArg Prod.snd hcl, h1, h2, h3 hsock⟩

end Farm

end NodeLink
