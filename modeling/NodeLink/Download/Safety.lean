import NodeLink.Download.FarmLoop
import NodeLink.Download.LoadGeometry
import NodeLink.Download.WireUnits

/-!
# Peers that keep the memory safe

Two bytes of a peer can lead a handler out of a buffer: a length close to `2 ^ 32`,
or a block for a place that is not in the torrent.  `Behaved` says of a stream that
it has neither, in terms of its units.  If the streams of all peers are of this
kind, no call of any run is undefined, whatever else the peers send, however it is
cut and interleaved, and whatever fails (`exec_of_behaved`).
-/

namespace NodeLink

open Cpp

namespace Wire

/-- A unit the handlers have room for: the length of a message does not wrap around, and a block has
an index of the torrent and begins below `2 ^ 31`. -/
def Item.Fits (t : TorrentFile) : Item → Prop
  | .message id payload =>
      4 + (payload.length + 1) < 2 ^ 32 ∧ (id = Message.piece → 8 ≤ payload.length →
        t.InRange (wordAt payload 0).toInt32.toInt ∧ (wordAt payload 4).toNat < 2 ^ 31)
  | _ => True

/-- The length a message announces wraps around, and the message is not there. -/
def Overlong (q : Phase) (rest : Buffer) : Prop :=
  q = .messages ∧ 4 ≤ rest.length ∧ 2 ^ 32 ≤ 4 + (wordAt rest 0).toNat

/-- A stream that leads no handler out of its buffers. -/
structure Behaved (t : TorrentFile) (stream : Buffer) : Prop where
  fits : ∀ x ∈ (units stream).1, x.Fits t
  short : ¬ Overlong (units stream).2.1 (units stream).2.2

variable {t : TorrentFile} {b c : Buffer}

/-- A length that wraps around still does when more has arrived. -/
theorem Overlong.append {q : Phase} {rest : Buffer} (h : Overlong q rest)
    (hfits : ∀ x ∈ (framing.units q (rest ++ c)).1, x.Fits t) :
    Overlong (framing.units q (rest ++ c)).2.1 (framing.units q (rest ++ c)).2.2 := by
  obtain ⟨rfl, h4, hlen⟩ := h
  have hword : wordAt (rest ++ c) 0 = wordAt rest 0 := wordAt_append_left (by omega) c
  have h4' : 4 ≤ (rest ++ c).length := by
    rw [List.length_append]
    omega
  cases hx : framing.next .messages (rest ++ c) with
  | none =>
      rw [Framing.units_of_none hx]
      refine ⟨rfl, h4', ?_⟩
      rw [hword]
      exact hlen
  | some r =>
      obtain ⟨x, q, rest'⟩ := r
      rw [Framing.units_of_some hx] at hfits
      have hfirst := hfits x List.mem_cons_self
      rw [framing_messages] at hx
      simp only [nextMessage] at hx
      rw [if_neg (by omega), hword, if_neg (by omega)] at hx
      split_ifs at hx with hshort
      cases hx
      have hroom := hfirst.1
      rw [List.length_take, List.length_drop] at hroom
      omega

/-- What a well-behaved peer has sent so far is well behaved. -/
theorem Behaved.of_append (h : Behaved t (b ++ c)) : Behaved t b := by
  obtain ⟨hfits, hshort⟩ := h
  rw [units, Framing.units_append] at hfits hshort
  refine ⟨fun x hx => hfits x (List.mem_append_left _ hx), fun hover => hshort ?_⟩
  exact hover.append fun x hx => hfits x (List.mem_append_right _ hx)

end Wire

/-! ## The handlers -/

namespace Downloader

/-- A block of a piece of the torrent leads to no undefined behaviour. -/
theorem receive_ne_fault {d : Downloader} {c : Call} (ht : d.torrent.Consistent)
    (hin : d.torrent.InRange c.pieceIndex.toInt) (hoff : 0 ≤ c.offset.toInt)
    (hdata : c.data.length < 2 ^ 32) (f : Fault) : receive d c ≠ .fault f := by
  intro hf
  rcases receive_fault_cases hf with h1 | ⟨d1, -, h2 | ⟨d2, -, h3⟩⟩
  · obtain ⟨rfl, -⟩ := switchPiece_fault h1
    exact ht.receive_ne_fault rfl hf
  · obtain ⟨-, hguard, hout⟩ := copyBlock_fault h2
    have hlt := c.offset.toInt_lt
    have hsize : toSizeT c.offset.toInt = c.offset.toInt.toNat := by
      have hcast := toSizeT_natCast (n := c.offset.toInt.toNat) (by omega)
      rwa [Int.toNat_of_nonneg hoff] at hcast
    simp only [CopyGuard] at hguard
    rw [hsize, Nat.mod_eq_of_lt (by omega)] at hguard
    exact hout ⟨hoff, by omega⟩
  · obtain ⟨rfl, -, -⟩ := checkIntegrity_fault h3
    exact receive_ne_fault_of_inRange hin hf

end Downloader

namespace Session

variable {t : TorrentFile} {s s' : Session} {stream : Buffer}

/-- A payload without index and begin throws. -/
theorem onPiece_of_short {payload : Buffer} (h : payload.length < 8) :
    s.onPiece payload = .throw (.outOfRange "Buffer read overflow") s := by
  rw [onPiece]
  by_cases h4 : 4 ≤ payload.length
  · rw [readBE32_ok (by omega), Outcome.tryThen_ok, BufferUtils.readBE32, if_pos (by omega)]
    rfl
  · rw [BufferUtils.readBE32, if_pos (by omega)]
    rfl

/-- A block that fits leads to no undefined behaviour. -/
theorem onPiece_ne_fault_of_fits (ht : t.Consistent) (hs : s.dl.torrent = t) {payload : Buffer}
    (hfits : (Wire.Item.message Message.piece payload).Fits t) (f : Fault) :
    s.onPiece payload ≠ .fault f := by
  intro hf
  obtain ⟨hlen, hblock⟩ := hfits
  by_cases h8 : 8 ≤ payload.length
  · obtain ⟨hin, hbegin⟩ := hblock rfl h8
    rw [onPiece, readBE32_ok (by omega), readBE32_ok (by omega), Outcome.tryThen_ok,
      Outcome.tryThen_ok, deliver] at hf
    cases hr : Downloader.receive s.dl (s.callOf payload) with
    | ok d =>
        rw [← callOf, hr] at hf
        refine ht.requestNextBlock_ne_fault ?_ f hf
        exact (Downloader.receive_sameFixed (congrArg Outcome.state? hr)).1.trans hs
    | throw e d =>
        rw [← callOf, hr] at hf
        cases hf
    | fault g =>
        have hoff : (wordAt payload 4).toInt32.toInt = (wordAt payload 4).toNat :=
          toInt_toInt32_of_lt hbegin
        refine Downloader.receive_ne_fault (hs ▸ ht) (hs ▸ hin) ?_ ?_ g hr
        · rw [callOf, hoff]
          omega
        · rw [callOf, List.length_drop]
          omega
  · rw [onPiece_of_short (by omega)] at hf
    cases hf

theorem dispatch_ne_fault_of_fits (ht : t.Consistent) (hs : s.dl.torrent = t) {id : UInt8}
    {payload : Buffer} (hfits : (Wire.Item.message id payload).Fits t) (f : Fault) :
    s.dispatch id payload ≠ .fault f := by
  intro hf
  rcases dispatch_cases s id payload with
      ⟨-, hd⟩ | ⟨-, hd⟩ | ⟨-, hd⟩ | ⟨rfl, hd⟩ | ⟨-, -, -, -, hd⟩ <;>
    rw [hd] at hf
  · exact ht.requestNextBlock_ne_fault (s := s.unchoked) hs f hf
  · cases hf
  · cases hf
  · exact onPiece_ne_fault_of_fits ht hs hfits f hf
  · cases hf

/-- A reader of a well-behaved stream stays in its buffers. -/
theorem pass_ne_fault_of_behaved (ht : t.Consistent) (hs : s.dl.torrent = t)
    (hb : Wire.Behaved t stream) (hread : HasRead stream s.conn) (hst : s.conn.state ≠ .connecting)
    (f : Fault) : s.pass ≠ some (.fault f) := by
  intro hp
  simp only [HasRead] at hread
  rcases pass_cases s with
      ⟨hp', -⟩ | ⟨hs', rest, -, -, -, hp'⟩ | ⟨rest, -, -, hp'⟩ |
      ⟨id, payload, rest, hns, hbuf, hlen, hp'⟩ | ⟨hw, -⟩
  · rw [hp'] at hp
    cases hp
  · rw [hp'] at hp
    exact send_ne_fault (Option.some.inj hp)
  · rw [hp'] at hp
    cases hp
  · -- the message is one of the units of the stream
    rw [downloading_of_ne hst hns, hbuf] at hread
    have hcut := (hread.cut (Wire.next_frame id hlen rest)).units
    have hmem : Wire.Item.message id payload ∈ (Wire.units stream).1 := by
      rw [Wire.units, hcut]
      exact List.mem_append_left _ (List.mem_append_right _ (List.mem_singleton_self _))
    rw [hp'] at hp
    exact dispatch_ne_fault_of_fits (s := s.framed id payload rest) ht hs (hb.fits _ hmem) f
      (Option.some.inj hp)
  · -- the length that wraps around is what the stream leaves over
    obtain ⟨hns, h4, hwrap, hshort⟩ := hw
    rw [downloading_of_ne hst hns] at hread
    have hword : s.frameLen = (wordAt s.conn.recvBuffer 0).toNat := by
      rw [frameLen, Message.readMessageLength, if_neg (by omega)]
    have hnone : Wire.framing.next .messages s.conn.recvBuffer = none := by
      rw [Wire.framing_messages]
      simp only [Wire.nextMessage]
      rw [if_neg (by omega), ← hword, if_neg (by omega), if_pos hshort]
    refine hb.short ?_
    rw [Wire.units, hread.units_of_waiting hnone]
    exact ⟨rfl, h4, hword ▸ hwrap⟩

/-- A chunk that keeps the stream well behaved is processed inside the buffers. -/
theorem processBuffer_ne_fault_of_behaved {chunk : Buffer} (ht : t.Consistent)
    (hs : s.dl.torrent = t) (hb : Wire.Behaved t (stream ++ chunk)) (hread : HasRead stream s.conn)
    (hst : s.conn.state ≠ .connecting) (f : Fault) : (s.append chunk).processBuffer ≠ .fault f := by
  intro hf
  -- what holds at every head of the loop
  have hinv : ∀ s1, consumer.Head (s.append chunk) s1 → s1.dl.torrent = t ∧
      HasRead (stream ++ chunk) s1.conn ∧ s1.conn.state ≠ .connecting := by
    intro s1 hhead
    induction hhead with
    | entry => exact ⟨hs, Framing.Reads.arrive hread chunk, hst⟩
    | next _ hpass ih =>
        obtain ⟨hs1, hread1, hst1⟩ := ih
        exact ⟨(Swarm.pass_same hpass rfl).1.trans hs1, hasRead_pass hread1 hst1 hpass rfl,
          Swarm.pass_not_connecting hst1 hpass rfl⟩
  obtain ⟨s1, hhead, hp⟩ := Stream.Consumer.drain_fault_iff.mp hf
  obtain ⟨hs1, hread1, hst1⟩ := hinv s1 hhead
  exact pass_ne_fault_of_behaved ht hs1 hb hread1 hst1 f hp

end Session

namespace Swarm

open Session

variable {t : TorrentFile} {id : Str} {n : Nat} {es : List Call}

/-- What a connection has received in a run, it has received first in a longer one. -/
theorem exists_heard_append (k : Nat) (w : Swarm) (es es' : List Call) :
    ∃ b, heard k w (es ++ es') = heard k w es ++ b := by
  obtain ⟨l, hl⟩ : ∃ l, steps step w (es ++ es') = steps step w es ++ l :=
    exists_steps_append w es es'
  refine ⟨l.flatMap fun p => hears k p.1 p.2, ?_⟩
  rw [heard, hl, List.flatMap_append]
  rfl

theorem exec_length {w w' : Swarm} (h : exec step w es = some w') :
    w'.conns.length = w.conns.length :=
  exec_invariant (P := fun w' => w'.conns.length = w.conns.length)
    (fun _ _ _ _ hlen hstep => (Farm.step_length hstep).trans hlen) rfl h

/-- Only a read can be undefined. -/
theorem step_fault {w : Swarm} {e : Call} {f : Fault} (h : step w e = .fault f) :
    ∃ k r rs c, e = .read k r rs ∧ w.conns[k]? = some c ∧
      onReadyRead ⟨c, w.dl, rs⟩ r = .fault f := by
  have key : ∀ k rs g, w.onConn k rs g = .fault f →
      ∃ c, w.conns[k]? = some c ∧ g ⟨c, w.dl, rs⟩ = .fault f := by
    intro k rs g h
    simp only [onConn] at h
    cases hc : w.conns[k]? with
    | none =>
        rw [hc] at h
        cases h
    | some c =>
        rw [hc] at h
        exact ⟨c, rfl, Outcome.map_eq_fault h⟩
  cases e with
  | write k rs =>
      obtain ⟨c, -, hf⟩ := key k rs onReadyWrite h
      rcases onReadyWrite_cases ⟨c, w.dl, rs⟩ with ⟨-, hw⟩ | ⟨-, -, hw | hw⟩ <;> rw [hw] at hf <;>
        cases hf
  | read k r rs =>
      obtain ⟨c, hc, hf⟩ := key k rs (fun s => s.onReadyRead r) h
      exact ⟨k, r, rs, c, rfl, hc, hf⟩

/-- In a download of a torrent with a consistent geometry, from peers that are all well behaved, every
call of every run is defined. -/
theorem exec_of_behaved (ht : t.Consistent) (hfirst : ∀ k < n, HandshakeFirst k es)
    (hpeers : ∀ k < n, Wire.Behaved t (heard k (init t id n) es)) :
    ∃ w, exec step (init t id n) es = some w := by
  induction es using List.reverseRecOn with
  | nil => exact ⟨_, rfl⟩
  | append_singleton es e ih =>
      obtain ⟨w, hrun⟩ := ih (fun k hk => (hfirst k hk).of_append) fun k hk => by
        obtain ⟨b, hb⟩ := exists_heard_append k (init t id n) es [e]
        have hlonger := hpeers k hk
        rw [hb] at hlonger
        exact hlonger.of_append
      rw [exec_concat hrun]
      cases hstep : step w e with
      | ok w' => exact ⟨w', rfl⟩
      | throw ex w' => exact ⟨w', rfl⟩
      | fault f =>
          exfalso
          obtain ⟨k, r, rs, c, rfl, hc, hread⟩ := step_fault hstep
          have hk : k < n := by
            have hlt := (List.getElem?_eq_some_iff.mp hc).1
            rwa [exec_length hrun, init, List.length_replicate] at hlt
          have hfirst' : HandshakeFirst k es := (hfirst k hk).of_append
          rcases onReadyRead_cases ⟨c, w.dl, rs⟩ r with
              ⟨-, hr⟩ | ⟨-, -, hr⟩ | ⟨hopen, chunk, rfl, -, hr⟩ <;> rw [hr] at hread
          · cases hread
          · cases hread
          · have hb := hpeers k hk
            rw [heard_concat hrun, hears_chunk hc hopen] at hb
            have hst : c.state ≠ .connecting :=
              (orderly hfirst' hrun hc).written (hfirst k hk es _ rs List.prefix_rfl) hopen
            exact processBuffer_ne_fault_of_behaved (s := ⟨c, w.dl, rs⟩) ht (exec_same hrun).1 hb
              (hasRead hfirst' hrun hc) hst f (Outcome.catching_eq_fault hread)

theorem block_length_le :
    (Message.frame Message.piece (Message.piecePayload 0 0 (bytes "a"))).length ≤ 8192 := by decide

/-- A handshake and a block. -/
def blockRun : List Call :=
  [.write 0 [], .read 0 (some ⟨_, start_length_le⟩) [], .read 0 (some ⟨_, block_length_le⟩) []]

/-- The block is one of the torrent's. -/
theorem exec_of_behaved_blockRun :
    ∃ w, exec step (init Downloader.twoBytes [] 1) blockRun = some w := by
  have hunits : Wire.units (heard 0 (init Downloader.twoBytes [] 1) blockRun) =
      ([.handshake (List.replicate 68 0),
        .message Message.piece (Message.piecePayload 0 0 (bytes "a"))], .messages, []) := by
    decide +kernel
  refine exec_of_behaved ⟨by decide, by decide, by decide⟩ (fun k hk => ?_) fun k hk => ?_
  all_goals obtain rfl : k = 0 := by omega
  · exact .cons_write [] _
  · constructor
    · rw [hunits]
      intro x hx
      rcases List.mem_cons.mp hx with rfl | hx
      · trivial
      · rw [List.mem_singleton.mp hx]
        exact ⟨by decide, fun _ _ => ⟨by decide, by decide⟩⟩
    · rw [hunits]
      exact fun h => absurd h.2.1 (by decide)

end Swarm

end NodeLink
