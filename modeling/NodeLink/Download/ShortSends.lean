import Mathlib.Data.List.TakeWhile
import NodeLink.Download.Connection

/-!
# Messages the kernel takes in part

`send` may take fewer bytes than it is offered.  `TcpClient::Send` throws where
it returns a negative number, and nothing else is looked at.  A connection drops
its socket when `Send` throws, and goes on with the next message when it returns.

`inStep_iff` says when the peer receives what the connection has sent: a message
that was taken in part is not completed, and all that follows is out of place.
-/

namespace NodeLink

open Cpp

namespace TcpClient

/-- `TcpClient::Send`, with what `send` returns: the bytes the kernel takes, or an exception. -/
def send (data : Buffer) (returned : Int) : Except Exn Buffer :=
  if returned < 0 then .error (.runtimeError "TCP Send failed")
  else .ok (data.take returned.toNat)

/-- What `send` may return: an error, or how many bytes it took. -/
def Returns (data : Buffer) (returned : Int) : Prop :=
  returned = -1 ∨ 1 ≤ returned ∧ returned ≤ data.length

instance (data : Buffer) (returned : Int) : Decidable (Returns data returned) :=
  inferInstanceAs (Decidable (_ ∨ _))

end TcpClient

/-- All a connection sees of a `Send` is whether it throws. -/
theorem Session.send_eq (s : Session) (b : Buffer) {returned : Int}
    (h : s.results.headD true = decide (0 ≤ returned)) :
    s.send b = match TcpClient.send b returned with
      | .ok _ => .ok (s.sending b)
      | .error e => .throw e (s.sending b) := by
  rw [Session.send, h, TcpClient.send]
  by_cases hr : returned < 0
  · rw [if_pos hr, if_neg (by simpa using hr)]
  · rw [if_neg hr, if_pos (by simpa using hr)]

/-- The sending side of a connection. -/
structure Sender where
  /-- Whether there is a socket. -/
  socket : Bool := true
  /-- What the kernel has taken. -/
  stream : Buffer := []
  /-- The messages for which `Send` has returned, each with what was taken of it. -/
  returned : List (Buffer × Buffer) := []
  /-- The message for which it has thrown. -/
  thrown : Option Buffer := none
deriving DecidableEq, Repr

namespace Sender

/-- A handler passes a message to `Send`.  Without a socket it does not. -/
def pass (s : Sender) (p : Buffer × Int) : Sender :=
  if !s.socket then s
  else
    match TcpClient.send p.1 p.2 with
    | .ok taken =>
        { s with stream := s.stream ++ taken, returned := s.returned ++ [(p.1, taken)] }
    | .error _ => { s with socket := false, thrown := some p.1 }

/-- The side after a sequence of messages, each with what `send` returns. -/
def passAll (sends : List (Buffer × Int)) : Sender := sends.foldl pass {}

/-- The stream is the messages for which `Send` has returned, each of them whole, and a part of the
one for which it has thrown. -/
structure InStep (s : Sender) : Prop where
  stream : ∃ part, part <+: s.thrown.getD [] ∧ s.stream = s.returned.flatMap Prod.fst ++ part
  whole : ∀ q ∈ s.returned, q.2 = q.1

variable {s : Sender} {sends : List (Buffer × Int)} {p : Buffer × Int}

/-! ## What is passed -/

/-- The messages for which `Send` returns: those before the first error. -/
def accepted (sends : List (Buffer × Int)) : List (Buffer × Int) := sends.takeWhile (0 ≤ ·.2)

/-- What the kernel takes of a message. -/
def taken (p : Buffer × Int) : Buffer := p.1.take p.2.toNat

theorem accepted_cons_of_nonneg (h : 0 ≤ p.2) (sends : List (Buffer × Int)) :
    accepted (p :: sends) = p :: accepted sends := List.takeWhile_cons_of_pos (decide_eq_true h)

theorem accepted_cons_of_neg (h : ¬ 0 ≤ p.2) (sends : List (Buffer × Int)) :
    accepted (p :: sends) = [] := List.takeWhile_cons_of_neg (by simpa using h)

theorem nonneg_of_mem_accepted (h : p ∈ accepted sends) : p ∈ sends ∧ 0 ≤ p.2 := by
  have hnonneg := List.mem_takeWhile_imp (p := fun q : Buffer × Int => decide (0 ≤ q.2)) h
  exact ⟨(List.takeWhile_sublist _).mem h, of_decide_eq_true hnonneg⟩

theorem pass_closed (h : s.socket = false) (p : Buffer × Int) : s.pass p = s := by
  rw [pass, h]
  rfl

theorem foldl_closed (h : s.socket = false) (sends : List (Buffer × Int)) :
    sends.foldl pass s = s := by
  induction sends with
  | nil => rfl
  | cons p sends ih => rw [List.foldl_cons, pass_closed h, ih]

/-- Messages are taken one after another up to the first error. -/
theorem foldl_pass (h : s.socket = true) (sends : List (Buffer × Int)) :
    (sends.foldl pass s).stream = s.stream ++ (accepted sends).flatMap taken ∧
      (sends.foldl pass s).returned =
        s.returned ++ (accepted sends).map fun p => (p.1, taken p) := by
  induction sends generalizing s with
  | nil => exact ⟨(List.append_nil _).symm, (List.append_nil _).symm⟩
  | cons p sends ih =>
      rw [List.foldl_cons]
      by_cases hp : 0 ≤ p.2
      · have hpass : s.pass p = { s with
            stream := s.stream ++ taken p, returned := s.returned ++ [(p.1, taken p)] } := by
          rw [pass, h, TcpClient.send, if_neg (Int.not_lt.mpr hp)]
          rfl
        obtain ⟨hstream, hreturned⟩ := ih (s := s.pass p) (by rw [hpass]; exact h)
        rw [hstream, hreturned, hpass, accepted_cons_of_nonneg hp]
        exact ⟨List.append_assoc .., List.append_assoc ..⟩
      · have hclosed : (s.pass p).socket = false ∧ (s.pass p).stream = s.stream ∧
            (s.pass p).returned = s.returned := by
          rw [pass, h, TcpClient.send, if_pos (Int.not_le.mp hp)]
          exact ⟨rfl, rfl, rfl⟩
        rw [foldl_closed hclosed.1, accepted_cons_of_neg hp, hclosed.2.1, hclosed.2.2]
        exact ⟨(List.append_nil _).symm, (List.append_nil _).symm⟩

/-! ## When the stream is in step -/

theorem taken_length_le (p : Buffer × Int) : (taken p).length ≤ p.1.length := by
  rw [taken, List.length_take]
  exact Nat.min_le_right _ _

theorem length_flatMap_taken_le (ps : List (Buffer × Int)) :
    (ps.flatMap taken).length ≤ (ps.flatMap Prod.fst).length := by
  induction ps with
  | nil => exact Nat.le_refl 0
  | cons p ps ih =>
      rw [List.flatMap_cons, List.flatMap_cons, List.length_append, List.length_append]
      exact Nat.add_le_add (taken_length_le p) ih

/-- Nothing can make up for a part that was not taken. -/
theorem taken_eq_of_flatMap {ps : List (Buffer × Int)} {part : Buffer}
    (h : ps.flatMap taken = ps.flatMap Prod.fst ++ part) : ∀ p ∈ ps, taken p = p.1 := by
  induction ps with
  | nil => exact fun p hp => absurd hp List.not_mem_nil
  | cons p ps ih =>
      rw [List.flatMap_cons, List.flatMap_cons, List.append_assoc] at h
      have hlen := congrArg List.length h
      have hle := length_flatMap_taken_le ps
      have hp := taken_length_le p
      simp only [List.length_append] at hlen
      obtain ⟨hhead, htail⟩ := List.append_inj h (by omega)
      intro q hq
      obtain rfl | hq := List.mem_cons.mp hq
      · exact hhead
      · exact ih htail q hq

/-- A message is taken whole exactly if `send` returns its length. -/
theorem taken_eq_iff (h : TcpClient.Returns p.1 p.2) (hp : 0 ≤ p.2) :
    taken p = p.1 ↔ p.2 = p.1.length := by
  obtain hneg | ⟨-, hle⟩ := h
  · omega
  · rw [taken, List.take_eq_self_iff]
    omega

/-- The stream is in step if and only if `send` has taken each message whole, up to the first
error. -/
theorem inStep_iff (sends : List (Buffer × Int))
    (h : ∀ p ∈ sends, TcpClient.Returns p.1 p.2) :
    (passAll sends).InStep ↔ ∀ p ∈ accepted sends, p.2 = p.1.length := by
  obtain ⟨hstream, hreturned⟩ := foldl_pass (s := {}) rfl sends
  have hfst : ((accepted sends).map fun p => (p.1, taken p)).flatMap Prod.fst =
      (accepted sends).flatMap Prod.fst := List.flatMap_map ..
  have hiff {p : Buffer × Int} (hp : p ∈ accepted sends) : taken p = p.1 ↔ p.2 = p.1.length := by
    obtain ⟨hmem, hpos⟩ := nonneg_of_mem_accepted hp
    exact taken_eq_iff (h p hmem) hpos
  constructor
  · rintro ⟨⟨part, -, hpart⟩, -⟩ p hp
    rw [passAll, hstream, hreturned, List.nil_append, List.nil_append, hfst] at hpart
    exact (hiff hp).mp (taken_eq_of_flatMap hpart p hp)
  · intro hall
    have hwhole : ∀ p ∈ accepted sends, taken p = p.1 := fun p hp => (hiff hp).mpr (hall p hp)
    refine ⟨⟨[], List.nil_prefix, ?_⟩, fun q hq => ?_⟩
    · rw [passAll, hstream, hreturned, List.nil_append, List.nil_append, hfst, List.append_nil]
      exact List.flatMap_congr hwhole
    · rw [passAll, hreturned, List.nil_append] at hq
      obtain ⟨p, hp, rfl⟩ := List.mem_map.mp hq
      exact hwhole p hp

/-- `inStep_iff`, for a message that is taken whole and one that is not taken. -/
theorem inStep_iff_error :
    (passAll [(Message.buildInterested, 5), (Message.buildRequest 0 0 16384, -1)]).InStep ↔
      ∀ p ∈ accepted [(Message.buildInterested, 5), (Message.buildRequest 0 0 16384, -1)],
        p.2 = p.1.length :=
  inStep_iff _ (by decide)

/-- The peer is missing the last byte of a message for which `Send` has returned. -/
theorem not_inStep_short :
    (∀ p ∈ [(Message.buildInterested, (4 : Int))], TcpClient.Returns p.1 p.2) ∧
      ¬ (passAll [(Message.buildInterested, 4)]).InStep := by
  refine ⟨by decide, fun h => ?_⟩
  have hwhole := h.whole (Message.buildInterested, Message.buildInterested.take 4) (by decide)
  exact absurd hwhole (by decide)

end Sender

end NodeLink
