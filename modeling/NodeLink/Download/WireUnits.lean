import NodeLink.Download.Farm
import NodeLink.Lib.Framing

/-!
# The stream of a peer as units

`Wire.framing` is the wire format as the protocol states it, on bytes alone: 68
bytes of handshake, then messages, each with a prefix that says how many bytes
follow.  Lengths are exact integers there.

The receive loop refines it.  Whatever the downloader and the other connections
do, and however the bytes arrive, a connection with a socket has processed all
units that are complete in what its peer has sent, and only those
(`units_processed`).
-/

namespace NodeLink

open Cpp

namespace Wire

/-- What a peer sends. -/
inductive Item where
  | handshake (b : Buffer)
  | keepAlive
  | message (id : UInt8) (payload : Buffer)
deriving DecidableEq, Repr

/-- What may come next. -/
inductive Phase where
  | handshake
  | messages
deriving DecidableEq, Repr

/-- The first message of a stream. -/
def nextMessage (b : Buffer) : Option (Item × Phase × Buffer) :=
  if b.length < 4 then none
  else
    let len := (wordAt b 0).toNat
    if len = 0 then some (.keepAlive, .messages, b.drop 4)
    else if b.length < 4 + len then none
    else some (.message (b.getD 4 0) ((b.drop 5).take (len - 1)), .messages, b.drop (4 + len))

/-- The first unit of a stream. -/
def next : Phase → Buffer → Option (Item × Phase × Buffer)
  | .handshake, b =>
      if b.length < 68 then none else some (.handshake (b.take 68), .messages, b.drop 68)
  | .messages, b => nextMessage b

variable {b c rest : Buffer} {x : Item} {p q : Phase}

theorem nextMessage_shorter (h : nextMessage b = some (x, q, rest)) : rest.length < b.length := by
  simp only [nextMessage] at h
  split_ifs at h with h4 h0 hlen
  · cases h
    rw [List.length_drop]
    omega
  · cases h
    rw [List.length_drop]
    omega

theorem nextMessage_stable (c : Buffer) (h : nextMessage b = some (x, q, rest)) :
    nextMessage (b ++ c) = some (x, q, rest ++ c) := by
  simp only [nextMessage] at h ⊢
  by_cases h4 : b.length < 4
  · rw [if_pos h4] at h
    cases h
  have hword : wordAt (b ++ c) 0 = wordAt b 0 := wordAt_append_left (by omega) c
  have hlen : (b ++ c).length = b.length + c.length := List.length_append
  rw [if_neg h4] at h
  rw [if_neg (by omega), hword]
  by_cases h0 : (wordAt b 0).toNat = 0
  · rw [if_pos h0] at h ⊢
    cases h
    rw [List.drop_append_of_le_length (by omega)]
  · rw [if_neg h0] at h ⊢
    by_cases hshort : b.length < 4 + (wordAt b 0).toNat
    · rw [if_pos hshort] at h
      cases h
    · rw [if_neg hshort] at h
      rw [if_neg (by omega)]
      cases h
      rw [List.getD_append _ _ _ _ (by omega), List.drop_append_of_le_length (by omega),
        List.drop_append_of_le_length (by omega),
        List.take_append_of_le_length (by rw [List.length_drop]; omega)]

/-- The wire format. -/
def framing : Framing UInt8 Item Phase where
  next := next
  shorter := by
    intro p b x q rest h
    cases p with
    | messages => exact nextMessage_shorter h
    | handshake =>
        simp only [next] at h
        split_ifs at h with h68
        cases h
        rw [List.length_drop]
        omega
  stable := by
    intro p b x q rest c h
    cases p with
    | messages => exact nextMessage_stable c h
    | handshake =>
        simp only [next] at h ⊢
        split_ifs at h with h68
        cases h
        rw [if_neg (by rw [List.length_append]; omega), List.take_append_of_le_length (by omega),
          List.drop_append_of_le_length (by omega)]

/-- The units of a peer's stream, the phase behind them, and what is left. -/
def units (b : Buffer) : List Item × Phase × Buffer := framing.units .handshake b

theorem framing_messages (b : Buffer) : framing.next .messages b = nextMessage b := rfl

theorem next_handshake {hs : Buffer} (h : hs.length = 68) (rest : Buffer) :
    framing.next .handshake (hs ++ rest) = some (.handshake hs, .messages, rest) := by
  change (if _ then _ else _) = _
  rw [if_neg (by rw [List.length_append]; omega), ← h, List.take_left, List.drop_left]

theorem next_keepAlive (rest : Buffer) :
    framing.next .messages (Message.buildKeepAlive ++ rest) =
      some (.keepAlive, .messages, rest) := by
  have hlen : (Message.buildKeepAlive ++ rest).length = 4 + rest.length := List.length_append
  have hword : wordAt (Message.buildKeepAlive ++ rest) 0 = 0 := by
    rw [wordAt_append_left (by decide)]
    decide
  rw [framing_messages]
  simp only [nextMessage]
  rw [if_neg (by omega), hword]
  rfl

theorem next_frame (id : UInt8) {payload : Buffer} (h : payload.length + 1 < 2 ^ 32)
    (rest : Buffer) : framing.next .messages (Message.frame id payload ++ rest) =
      some (.message id payload, .messages, rest) := by
  have hlen : (Message.frame id payload ++ rest).length = payload.length + 5 + rest.length := by
    rw [List.length_append, Message.frame_length]
  have hword : (wordAt (Message.frame id payload ++ rest) 0).toNat = payload.length + 1 := by
    have hread : (Message.readMessageLength (Message.frame id payload ++ rest)).toNat = _ :=
      Message.readMessageLength_frame h rest
    rwa [Message.readMessageLength, if_neg (by omega)] at hread
  have hdrop : (Message.frame id payload ++ rest).drop 5 = payload ++ rest := rfl
  have hrest : (Message.frame id payload ++ rest).drop (4 + (payload.length + 1)) = rest := by
    rw [show 4 + (payload.length + 1) = 5 + payload.length by omega, ← List.drop_drop, hdrop,
      List.drop_left]
  rw [framing_messages]
  simp only [nextMessage]
  rw [if_neg (by omega), hword, if_neg (by omega), if_neg (by omega), hdrop, hrest,
    Nat.add_sub_cancel, List.take_left]
  rfl

end Wire

/-- The unit an event has taken. -/
def Event.item? : Event → Option Wire.Item
  | .handshake b => some (.handshake b)
  | .keepAlive => some .keepAlive
  | .frame id payload => some (.message id payload)
  | _ => none

/-- The units taken, in order. -/
def itemsOf (log : List Event) : List Wire.Item := log.filterMap Event.item?

/-- What a connection takes next. -/
def State.phase : State → Wire.Phase
  | .downloading => .messages
  | _ => .handshake

theorem itemsOf_append (log log' : List Event) :
    itemsOf (log ++ log') = itemsOf log ++ itemsOf log' := List.filterMap_append

theorem itemsOf_drawn {mid : List Event} (h : ∀ e ∈ mid, e.Drawn) : itemsOf mid = [] :=
  List.filterMap_eq_nil_iff.mpr fun e he => by
    have := h e he
    cases e <;> first | rfl | exact this.elim

namespace Session

variable {s s' : Session} {stream : Buffer}

/-- The connection has read a stream as the wire format says. -/
def HasRead (stream : Buffer) (c : Connection) : Prop :=
  Wire.framing.Reads .handshake stream (itemsOf c.log) c.state.phase c.recvBuffer

/-- A message takes no unit but its own. -/
theorem dispatch_itemsOf {id : UInt8} {payload : Buffer}
    (h : (s.dispatch id payload).state? = some s') : itemsOf s'.conn.log = itemsOf s.conn.log := by
  obtain ⟨-, mid, hmid, hl | ⟨-, -, r, hl⟩⟩ := dispatch_sends h <;> rw [hl]
  · rw [itemsOf_append, itemsOf_drawn hmid, List.append_nil]
  · rw [itemsOf_append, itemsOf_append, itemsOf_drawn hmid, List.append_nil]
    exact List.append_nil _

/-- Where the handshake is over, messages are read. -/
theorem downloading_of_ne (hst : s.conn.state ≠ .connecting) (hns : s.conn.state ≠ .handshaking) :
    s.conn.state = .downloading := by
  cases h : s.conn.state with
  | connecting => exact absurd h hst
  | handshaking => exact absurd h hns
  | downloading => rfl

/-- One pass cuts off one unit. -/
theorem hasRead_pass {o : Outcome Exn Fault Session} (h : HasRead stream s.conn)
    (hst : s.conn.state ≠ .connecting) (hp : s.pass = some o) (ho : o.state? = some s') :
    HasRead stream s'.conn := by
  simp only [HasRead] at h ⊢
  rcases pass_state_cases hp ho with
      ⟨hs, rest, hsh, hb, h68, rfl⟩ | ⟨rest, hns, hb, rfl⟩ | ⟨id, payload, rest, hns, hb, hlen, rfl⟩
  · rw [hsh, hb] at h
    have hnew := h.cut (Wire.next_handshake h68 rest)
    have hitems : itemsOf (s.conn.log ++ [.handshake hs] ++ [.sent Message.buildInterested]) =
        itemsOf s.conn.log ++ [.handshake hs] := by
      rw [itemsOf_append, itemsOf_append]
      exact List.append_nil _
    rw [← hitems] at hnew
    exact hnew
  · rw [downloading_of_ne hst hns, hb] at h
    have hnew := h.cut (Wire.next_keepAlive rest)
    have hitems : itemsOf (s.conn.log ++ [.keepAlive]) = itemsOf s.conn.log ++ [.keepAlive] :=
      itemsOf_append _ _
    rw [← hitems] at hnew
    change Framing.Reads _ _ _ _ s.conn.state.phase _
    rw [downloading_of_ne hst hns]
    exact hnew
  · rw [downloading_of_ne hst hns, hb] at h
    have hnew := h.cut (Wire.next_frame id hlen rest)
    have hframe := dispatch_frame ho
    have hitems : itemsOf (s.framed id payload rest).conn.log =
        itemsOf s.conn.log ++ [.message id payload] := itemsOf_append _ _
    rw [dispatch_itemsOf ho, hframe.state, hframe.recvBuffer, hitems]
    change Framing.Reads _ _ _ _ s.conn.state.phase rest
    rw [downloading_of_ne hst hns]
    exact hnew

/-- Where the loop stops, the wire format waits for more. -/
theorem next_of_pass_eq_none (hst : s.conn.state ≠ .connecting) (h : s.pass = none) :
    Wire.framing.next s.conn.state.phase s.conn.recvBuffer = none := by
  rcases pass_cases s with
      ⟨-, hcomp, -⟩ | ⟨_, _, -, -, -, hp⟩ | ⟨_, -, -, hp⟩ | ⟨_, _, _, -, -, -, hp⟩ | ⟨-, hp⟩
  · simp only [Complete, frameLen] at hcomp
    cases hs : s.conn.state with
    | connecting => exact absurd hs hst
    | handshaking =>
        rw [hs, if_pos rfl] at hcomp
        change (if _ then _ else _) = _
        rw [if_pos (by omega)]
    | downloading =>
        rw [hs, if_neg State.noConfusion] at hcomp
        rw [State.phase, Wire.framing_messages]
        simp only [Wire.nextMessage]
        by_cases h4 : s.conn.recvBuffer.length < 4
        · rw [if_pos h4]
        · rw [Message.readMessageLength, if_neg h4] at hcomp
          rw [if_neg h4, if_neg (by omega), if_pos (by omega)]
  all_goals rw [hp] at h; cases h

/-- A read of more bytes, from a state that reads messages or the handshake. -/
theorem hasRead_processBuffer {chunk : Buffer} (h : HasRead stream s.conn)
    (hst : s.conn.state ≠ .connecting) (hs : (s.append chunk).processBuffer.state? = some s') :
    HasRead (stream ++ chunk) s'.conn :=
  (Stream.Consumer.drain_invariant (c := consumer) (s := s.append chunk)
    (P := fun s => HasRead (stream ++ chunk) s.conn ∧ s.conn.state ≠ .connecting)
    (fun _ _ _ hP hp ho => ⟨hasRead_pass hP.1 hP.2 hp ho, Swarm.pass_not_connecting hP.2 hp ho⟩)
    ⟨Framing.Reads.arrive h chunk, hst⟩ hs).1

end Session

namespace Swarm

open Session

variable {t : TorrentFile} {id : Str} {n k : Nat} {es : List Call} {w : Swarm} {c : Connection}

/-- Every connection that sends its handshake first reads its stream as the wire format says. -/
theorem hasRead (hfirst : HandshakeFirst k es) (hrun : exec step (init t id n) es = some w)
    (hc : w.conns[k]? = some c) : HasRead (heard k (init t id n) es) c := by
  refine conn_induction (Q := fun es c => HandshakeFirst k es →
    HasRead (heard k (init t id n) es) c) ?_ ?_ ?_ hrun hc hfirst
  · exact fun _ => .start
  · intro es e w c hrun hk ih hfirst
    rw [heard_concat hrun, hears_of_ne hk, List.append_nil]
    exact ih hfirst.of_append
  · intro es e w c s' hrun hc ih hf hfirst
    have h1 := ih hfirst.of_append
    have hord := orderly hfirst.of_append hrun hc
    rw [heard_concat hrun]
    rcases hf with ⟨rs, rfl, hf⟩ | ⟨r, rs, rfl, hf⟩
    · rw [show hears k w (.write k rs) = [] from rfl, List.append_nil]
      have hsent : ∀ b, itemsOf (c.log ++ [.sent b]) = itemsOf c.log := fun b => by
        rw [itemsOf_append]
        exact List.append_nil _
      rcases onReadyWrite_cases ⟨c, w.dl, rs⟩ with ⟨-, hw⟩ | ⟨-, hst, hw | hw⟩ <;> rw [hw] at hf <;>
        cases Option.some.inj hf
      · exact h1
      · simp only [HasRead] at h1 ⊢
        rw [hst] at h1
        exact (hsent _).symm ▸ h1
      · simp only [HasRead] at h1 ⊢
        exact (hsent _).symm ▸ h1
    · rcases onReadyRead_cases ⟨c, w.dl, rs⟩ r with
          ⟨hcl, hr⟩ | ⟨-, hempty, hr⟩ | ⟨hopen, chunk, rfl, -, hr⟩ <;> rw [hr] at hf
      · cases Option.some.inj hf
        rw [hears_of_closed hc hcl, List.append_nil]
        exact h1
      · cases Option.some.inj hf
        rw [hears_of_empty hempty, List.append_nil]
        exact h1
      · have hst : c.state ≠ .connecting :=
          hord.written (hfirst es _ rs List.prefix_rfl) hopen
        rw [hears_chunk hc hopen]
        rcases catching_state? hf with ho | ⟨ex, s1, ho, rfl⟩
        · exact hasRead_processBuffer (s := ⟨c, w.dl, rs⟩) h1 hst (congrArg Outcome.state? ho)
        · have hs1 : (Session.append ⟨c, w.dl, rs⟩ chunk.bytes).processBuffer.state? = some s1 :=
            congrArg Outcome.state? ho
          have hread : HasRead (heard k (init t id n) es ++ chunk.bytes) s1.conn :=
            hasRead_processBuffer (s := ⟨c, w.dl, rs⟩) h1 hst hs1
          exact hread

/-- A connection that sends its handshake before it first reads processes the units of its peer's
stream, in order.  While it has a socket it has processed all that are complete, and keeps the bytes
behind them. -/
theorem units_processed (hfirst : HandshakeFirst k es) (hrun : exec step (init t id n) es = some w)
    (hc : w.conns[k]? = some c) :
    itemsOf c.log <+: (Wire.units (heard k (init t id n) es)).1 ∧
      (c.socket = true → Wire.units (heard k (init t id n) es) =
        (itemsOf c.log, c.state.phase, c.recvBuffer)) := by
  have hread := hasRead hfirst hrun hc
  refine ⟨?_, fun hopen => ?_⟩
  · rw [Wire.units, Framing.Reads.units hread]
    exact List.prefix_append _ _
  · refine Framing.Reads.units_of_waiting hread ?_
    have hord := orderly hfirst hrun hc
    by_cases hst : c.state = .connecting
    · rw [hord.connecting hst, hst]
      rfl
    · exact next_of_pass_eq_none (s := ⟨c, w.dl, []⟩) hst (hord.resting w.dl [] hopen)

/-- A handshake, an `UNCHOKE` and the start of a prefix. -/
def cutRun : List Call :=
  [.write 0 [], .read 0 (some ⟨List.replicate 67 0, by decide⟩) [],
    .read 0 (some ⟨[0, 0, 0, 0, 1, 1, 0, 0], by decide⟩) []]

/-- The two bytes of the prefix are kept. -/
theorem units_processed_cutRun :
    ∃ w c, exec step (init Downloader.twoBytes [] 1) cutRun = some w ∧ w.conns[0]? = some c ∧
      Wire.units (heard 0 (init Downloader.twoBytes [] 1) cutRun) =
        ([.handshake (List.replicate 68 0), .message Message.unchoke []], .messages, [0, 0]) := by
  have hsome : ((exec step (init Downloader.twoBytes [] 1) cutRun).bind fun w =>
      w.conns[0]?.map fun c => (c.socket, itemsOf c.log, c.state.phase, c.recvBuffer)) =
        some (true, [.handshake (List.replicate 68 0), .message Message.unchoke []], .messages,
          [0, 0]) := by decide +kernel
  obtain ⟨w, hrun, hw⟩ := Option.bind_eq_some_iff.mp hsome
  obtain ⟨c, hc, hcl⟩ := Option.map_eq_some_iff.mp hw
  have hfirst : HandshakeFirst 0 cutRun := .cons_write [] _
  have hopen : c.socket = true := congrArg Prod.fst hcl
  exact ⟨w, c, hrun, hc, ((units_processed hfirst hrun hc).2 hopen).trans (congrArg Prod.snd hcl)⟩

end Swarm

/-! ## Requests are answers -/

/-- A unit that may be answered with a request. -/
def Wire.Item.asking : Wire.Item → Bool
  | .message id _ => id == Message.unchoke || id == Message.piece
  | _ => false

/-- The number of units that may be answered with a request. -/
def askings (items : List Wire.Item) : Nat := items.countP Wire.Item.asking

theorem askings_append (xs ys : List Wire.Item) : askings (xs ++ ys) = askings xs + askings ys :=
  List.countP_append

theorem Event.Drawn.asked? {e : Event} (h : e.Drawn) : e.asked? = none := by
  cases e <;> first | rfl | exact h.elim

/-- Where a request comes only as an answer, there are no more of them than units that ask. -/
theorem InPlace.asked_le {log pre post : List Event} (h : InPlace log) (hl : log = pre ++ post) :
    (asked pre).length ≤ askings (itemsOf pre) := by
  induction hn : pre.length using Nat.strongRecOn generalizing pre post with
  | ind n ih =>
      rcases List.eq_nil_or_concat pre with rfl | ⟨p, e, rfl⟩
      · exact Nat.zero_le _
      rw [List.concat_eq_append] at hl hn ⊢
      rw [List.append_assoc, List.singleton_append] at hl
      rw [List.length_append, List.length_singleton] at hn
      rw [itemsOf_append, askings_append]
      cases he : e.asked? with
      | none =>
          have hp := ih p.length (by omega) hl rfl
          rw [asked_concat_none he]
          omega
      | some r =>
          -- the message it answers stands behind the other requests
          obtain rfl := asked?_eq_some.mp he
          obtain ⟨⟨pre', id, payload, mid, rfl, hid, hmid⟩, -⟩ := h.request p r post hl
          have hpre := ih pre'.length (by rw [List.length_append] at hn; omega)
            (hl.trans (List.append_assoc ..)) rfl
          have hasked : asked (pre' ++ .frame id payload :: mid) = asked pre' := by
            have hnone : asked mid = [] :=
              List.filterMap_eq_nil_iff.mpr fun e he => (hmid e he).asked?
            rw [asked_append, asked, asked, List.filterMap_cons_none rfl, ← asked, ← asked, hnone,
              List.append_nil]
          have hask : (Wire.Item.message id payload).asking = true := by
            rcases hid with rfl | rfl <;> rfl
          have hone : askings (itemsOf (pre' ++ .frame id payload :: mid)) =
              askings (itemsOf pre') + 1 := by
            have hitems : itemsOf (.frame id payload :: mid) = [.message id payload] :=
              congrArg (_ :: ·) (itemsOf_drawn hmid)
            rw [itemsOf_append, askings_append, hitems, askings, askings,
              List.countP_singleton, if_pos hask]
          rw [asked_concat_sent, hasked, List.length_append, List.length_singleton, hone]
          omega

namespace Swarm

variable {t : TorrentFile} {id : Str} {n k : Nat} {es : List Call} {w : Swarm} {c : Connection}

/-- In every state of a run in which the connection sends its handshake before it first reads, it has
sent no more requests than its peer has sent `UNCHOKE` and `PIECE` messages. -/
theorem asked_le_asking (hfirst : HandshakeFirst k es) (hrun : exec step (init t id n) es = some w)
    (hc : w.conns[k]? = some c) :
    (asked c.log).length ≤ askings (Wire.units (heard k (init t id n) es)).1 := by
  have htidy := Farm.tidy_of_handshakeFirst hfirst hrun hc
  refine (htidy.inPlace.asked_le (List.append_nil _).symm).trans ?_
  exact (units_processed hfirst hrun hc).1.sublist.countP_le

/-- A peer that has both pieces, and sends one `UNCHOKE`. -/
def unchokedRun : List Call :=
  [.write 0 [], .read 0 (some ⟨List.replicate 68 0, start_length_le⟩) [],
    .read 0 (some ⟨Message.frame Message.bitfield [0xC0] ++ Message.buildUnchoke, has_length_le⟩) []]

/-- It is sent one request. -/
theorem asked_le_asking_unchokedRun :
    ∃ w c, exec step (init Downloader.twoBytes [] 1) unchokedRun = some w ∧
      w.conns[0]? = some c ∧ (asked c.log).length = 1 ∧
      1 ≤ askings (Wire.units (heard 0 (init Downloader.twoBytes [] 1) unchokedRun)).1 := by
  have hsome : ((exec step (init Downloader.twoBytes [] 1) unchokedRun).bind fun w =>
      w.conns[0]?.map fun c => (asked c.log).length) = some 1 := by decide +kernel
  obtain ⟨w, hrun, hw⟩ := Option.bind_eq_some_iff.mp hsome
  obtain ⟨c, hc, hone⟩ := Option.map_eq_some_iff.mp hw
  have hfirst : HandshakeFirst 0 unchokedRun := .cons_write [] _
  exact ⟨w, c, hrun, hc, hone, hone.ge.trans (asked_le_asking hfirst hrun hc)⟩

end Swarm

end NodeLink
