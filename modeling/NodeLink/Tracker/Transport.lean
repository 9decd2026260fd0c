import Mathlib.Logic.Function.Basic
import NodeLink.Lib.Machine
import NodeLink.Tracker.Url

/-!
# Who closes a socket

The constructor of `TcpClient` makes three system calls that may fail, and
throws where one does.  The object is then taken apart: `~Transport` runs, and
closes `sock` unless it is negative.

`sockets` is a machine of any number of objects, and of other code, on one table
of descriptors.  A step is one system call, so other calls come between any two
of an object.  A descriptor that was closed is handed out again.

Each object keeps a `Ledger`, which no function reads.  `balanced_iff` says when
it balances: a constructor that fails after `getaddrinfo` never frees what that
returned, and one that fails in `connect` closes its descriptor twice.
-/

namespace NodeLink

namespace Transport

/-- Who has opened a descriptor. -/
inductive Owner where
  | client (id : Nat)
  | other
deriving DecidableEq, Repr

/-- Where an object is: in its constructor, alive, or in its destructor. -/
inductive Phase where
  | unborn
  /-- `getaddrinfo` has returned addresses. -/
  | resolved (host : Str)
  /-- `socket` has returned a descriptor. -/
  | opened (host : Str) (sock : Int)
  /-- `connect` has succeeded. -/
  | connected (sock : Int)
  /-- `connect` has failed. -/
  | refused (host : Str) (sock : Int)
  /-- The body of the constructor was left by an exception. -/
  | thrown (e : Exn) (sock : Int)
  | live (sock : Int)
  /-- The object is gone, with the exception of its constructor if there was one. -/
  | gone (e : Option Exn)
deriving DecidableEq, Repr

/-- What an object has opened and closed. -/
structure Ledger where
  opened : List Int := []
  /-- The descriptors it closed while they were its own. -/
  closed : List Int := []
  /-- The descriptors it closed while they were not. -/
  strayed : List Int := []
  /-- The number of results `getaddrinfo` returned. -/
  resolved : Nat := 0
  /-- The number of results it freed. -/
  freed : Nat := 0
deriving DecidableEq, Repr

/-- An object, with its ledger. -/
structure Client where
  phase : Phase := .unborn
  ledger : Ledger := {}
deriving DecidableEq, Repr

/-- The descriptors that are open, and the objects. -/
structure World where
  table : Int → Option Owner
  clients : Nat → Client

/-- A system call, with what it returns. -/
inductive Call where
  | getaddrinfo (id : Nat) (host : Str) (succeeds : Bool)
  | socket (id : Nat) (returned : Int)
  | connect (id : Nat) (succeeds : Bool)
  /-- `close(sock)` in the constructor. -/
  | close (id : Nat)
  | freeaddrinfo (id : Nat)
  /-- `~Transport`. -/
  | destroy (id : Nat)
  | otherOpens (fd : Int)
  | otherCloses (fd : Int)
deriving DecidableEq, Repr

/-- What `close(sock)` is in the ledger of an object. -/
def closing (table : Int → Option Owner) (id : Nat) (sock : Int) (l : Ledger) : Ledger :=
  if table sock = some (.client id) then { l with closed := l.closed ++ [sock] }
  else { l with strayed := l.strayed ++ [sock] }

namespace World

/-- The object goes on, and may write in its ledger. -/
def enter (w : World) (id : Nat) (p : Phase) (write : Ledger → Ledger) : World :=
  { w with clients := Function.update w.clients id ⟨p, write (w.clients id).ledger⟩ }

/-- The table with another owner of a descriptor. -/
def setOwner (w : World) (fd : Int) (o : Option Owner) : World :=
  { w with table := Function.update w.table fd o }

/-- `close(sock)`, after which the object goes on. -/
def closes (w : World) (id : Nat) (sock : Int) (p : Phase) : World :=
  (w.enter id p (closing w.table id sock)).setOwner sock none

/-- `~Transport`. -/
def destroys (w : World) (id : Nat) (sock : Int) (e : Option Exn) : World :=
  if 0 ≤ sock then w.closes id sock (.gone e) else w.enter id (.gone e) fun l => l

end World

/-- One system call, where it is the next one. -/
def step (w : World) : Call → Option World
  | .getaddrinfo id host succeeds =>
      match (w.clients id).phase with
      | .unborn =>
          if succeeds then
            some (w.enter id (.resolved host) fun l => { l with resolved := l.resolved + 1 })
          else
            some (w.enter id
              (.thrown (.runtimeError ("Could not resolve host: " ++ text host)) (-1)) fun l => l)
      | _ => none
  | .socket id returned =>
      match (w.clients id).phase with
      | .resolved host =>
          if returned < 0 then
            some (w.enter id (.thrown (.runtimeError "Could not create TCP socket") returned)
              fun l => l)
          else if w.table returned = none then
            some ((w.enter id (.opened host returned)
              fun l => { l with opened := l.opened ++ [returned] }).setOwner returned
                (some (.client id)))
          else none
      | _ => none
  | .connect id succeeds =>
      match (w.clients id).phase with
      | .opened host sock =>
          if succeeds then some (w.enter id (.connected sock) fun l => l)
          else some (w.enter id (.refused host sock) fun l => l)
      | _ => none
  | .close id =>
      match (w.clients id).phase with
      | .refused host sock =>
          some (w.closes id sock
            (.thrown (.runtimeError ("Could not connect to " ++ text host)) sock))
      | _ => none
  | .freeaddrinfo id =>
      match (w.clients id).phase with
      | .connected sock => some (w.enter id (.live sock) fun l => { l with freed := l.freed + 1 })
      | _ => none
  | .destroy id =>
      match (w.clients id).phase with
      | .thrown e sock => some (w.destroys id sock (some e))
      | .live sock => some (w.destroys id sock none)
      | _ => none
  | .otherOpens fd => if w.table fd = none then some (w.setOwner fd (some .other)) else none
  | .otherCloses fd => if w.table fd = some .other then some (w.setOwner fd none) else none

/-- Objects and other code, before the first call. -/
def sockets : Machine World Call where
  start := ⟨fun _ => none, fun _ => {}⟩
  step := step

/-! ## What a step does -/

/-- What a call of an object does to it and to the table. -/
inductive Moves (table : Int → Option Owner) (id : Nat) :
    Call → Client → Client → (Int → Option Owner) → Prop where
  | unresolved {host : Str} {l : Ledger} :
      Moves table id (.getaddrinfo id host false) ⟨.unborn, l⟩
        ⟨.thrown (.runtimeError ("Could not resolve host: " ++ text host)) (-1), l⟩ table
  | resolved {host : Str} {l : Ledger} :
      Moves table id (.getaddrinfo id host true) ⟨.unborn, l⟩
        ⟨.resolved host, { l with resolved := l.resolved + 1 }⟩ table
  | noSocket {host : Str} {l : Ledger} {returned : Int} : returned < 0 →
      Moves table id (.socket id returned) ⟨.resolved host, l⟩
        ⟨.thrown (.runtimeError "Could not create TCP socket") returned, l⟩ table
  | opened {host : Str} {l : Ledger} {returned : Int} : 0 ≤ returned → table returned = none →
      Moves table id (.socket id returned) ⟨.resolved host, l⟩
        ⟨.opened host returned, { l with opened := l.opened ++ [returned] }⟩
        (Function.update table returned (some (.client id)))
  | connected {host : Str} {l : Ledger} {sock : Int} :
      Moves table id (.connect id true) ⟨.opened host sock, l⟩ ⟨.connected sock, l⟩ table
  | refused {host : Str} {l : Ledger} {sock : Int} :
      Moves table id (.connect id false) ⟨.opened host sock, l⟩ ⟨.refused host sock, l⟩ table
  | closed {host : Str} {l : Ledger} {sock : Int} :
      Moves table id (.close id) ⟨.refused host sock, l⟩
        ⟨.thrown (.runtimeError ("Could not connect to " ++ text host)) sock,
          closing table id sock l⟩ (Function.update table sock none)
  | freed {l : Ledger} {sock : Int} :
      Moves table id (.freeaddrinfo id) ⟨.connected sock, l⟩
        ⟨.live sock, { l with freed := l.freed + 1 }⟩ table
  | unwound {e : Exn} {l : Ledger} {sock : Int} :
      Moves table id (.destroy id) ⟨.thrown e sock, l⟩
        ⟨.gone (some e), if 0 ≤ sock then closing table id sock l else l⟩
        (if 0 ≤ sock then Function.update table sock none else table)
  | destroyed {l : Ledger} {sock : Int} :
      Moves table id (.destroy id) ⟨.live sock, l⟩
        ⟨.gone none, if 0 ≤ sock then closing table id sock l else l⟩
        (if 0 ≤ sock then Function.update table sock none else table)

variable {w w' : World} {c : Call} {calls : List Call} {table table' : Int → Option Owner}
  {id : Nat} {k k' : Client} {sock : Int} {l : Ledger}

theorem destroys_eq (w : World) (id : Nat) (sock : Int) (e : Option Exn) :
    w.destroys id sock e =
      ⟨if 0 ≤ sock then Function.update w.table sock none else w.table,
        Function.update w.clients id ⟨.gone e, if 0 ≤ sock then
          closing w.table id sock (w.clients id).ledger else (w.clients id).ledger⟩⟩ := by
  rw [World.destroys]
  split <;> rfl

/-- A step is a call of an object, or changes the owner of a descriptor that is no object's. -/
theorem step_cases (h : step w c = some w') :
    (∃ id k, Moves w.table id c (w.clients id) k w'.table ∧
      w'.clients = Function.update w.clients id k) ∨
    ((∃ fd, c = .otherOpens fd ∨ c = .otherCloses fd) ∧ w'.clients = w.clients ∧
      ∃ fd o, (∀ id, w.table fd ≠ some (.client id)) ∧
        w'.table = Function.update w.table fd o) := by
  have client {id : Nat} {p : Phase} {k : Client} (hp : (w.clients id).phase = p)
      (hclients : w'.clients = Function.update w.clients id k)
      (hm : Moves w.table id c ⟨p, (w.clients id).ledger⟩ k w'.table) :
      ∃ id k, Moves w.table id c (w.clients id) k w'.table ∧
        w'.clients = Function.update w.clients id k := by
    subst hp
    exact ⟨id, k, hm, hclients⟩
  cases c with
  | getaddrinfo id host succeeds =>
      simp only [step] at h
      split at h
      next hp =>
        cases succeeds <;> cases h
        · exact .inl (client hp rfl .unresolved)
        · exact .inl (client hp rfl .resolved)
      next => cases h
  | socket id returned =>
      simp only [step] at h
      split at h
      next hp =>
        split at h
        next hr =>
          cases h
          exact .inl (client hp rfl (.noSocket hr))
        next hr =>
          split at h
          next hfree =>
            cases h
            exact .inl (client hp rfl (.opened (Int.not_lt.mp hr) hfree))
          next => cases h
      next => cases h
  | connect id succeeds =>
      simp only [step] at h
      split at h
      next hp =>
        cases succeeds <;> cases h
        · exact .inl (client hp rfl .refused)
        · exact .inl (client hp rfl .connected)
      next => cases h
  | close id =>
      simp only [step] at h
      split at h
      next hp =>
        cases h
        exact .inl (client hp rfl .closed)
      next => cases h
  | freeaddrinfo id =>
      simp only [step] at h
      split at h
      next hp =>
        cases h
        exact .inl (client hp rfl .freed)
      next => cases h
  | destroy id =>
      simp only [step] at h
      split at h
      next hp =>
        rw [destroys_eq] at h
        cases h
        exact .inl (client hp rfl .unwound)
      next hp =>
        rw [destroys_eq] at h
        cases h
        exact .inl (client hp rfl .destroyed)
      next => cases h
  | otherOpens fd =>
      simp only [step] at h
      split at h
      next hfree =>
        cases h
        refine .inr ⟨⟨fd, .inl rfl⟩, rfl, fd, _, fun id hid => ?_, rfl⟩
        rw [hfree] at hid
        cases hid
      next => cases h
  | otherCloses fd =>
      simp only [step] at h
      split at h
      next hother =>
        cases h
        refine .inr ⟨⟨fd, .inr rfl⟩, rfl, fd, _, fun id hid => ?_, rfl⟩
        rw [hother] at hid
        cases hid
      next => cases h

/-! ## The ledgers -/

/-- The ledgers balance: no object has closed a descriptor that was not its own, what an object
opened is closed once when it is gone, and what `getaddrinfo` returned is freed once the
constructor is left. -/
structure Balanced (w : World) : Prop where
  own : ∀ id, (w.clients id).ledger.strayed = []
  closed : ∀ id e, (w.clients id).phase = .gone e →
    (w.clients id).ledger.closed = (w.clients id).ledger.opened
  freed : ∀ id, ((∃ e, (w.clients id).phase = .gone e) ∨ ∃ sock, (w.clients id).phase = .live sock) →
    (w.clients id).ledger.freed = (w.clients id).ledger.resolved

/-- No constructor and no destructor is under way. -/
def Settled (w : World) : Prop :=
  ∀ id, (w.clients id).phase = .unborn ∨ (∃ sock, (w.clients id).phase = .live sock) ∨
    ∃ e, (w.clients id).phase = .gone e

/-- A call that does not end the constructor behind `getaddrinfo`. -/
def Call.Succeeds : Call → Prop
  | .socket _ returned => 0 ≤ returned
  | .connect _ succeeds => succeeds = true
  | _ => True

/-- An object whose calls behind `getaddrinfo` have all succeeded. -/
def Sound (table : Int → Option Owner) (id : Nat) (k : Client) : Prop :=
  match k.phase with
  | .unborn => k.ledger = {}
  | .resolved _ => k.ledger = { resolved := 1 }
  | .opened _ sock => 0 ≤ sock ∧ table sock = some (.client id) ∧
      k.ledger = { opened := [sock], resolved := 1 }
  | .connected sock => 0 ≤ sock ∧ table sock = some (.client id) ∧
      k.ledger = { opened := [sock], resolved := 1 }
  | .refused _ _ => False
  | .thrown _ sock => sock < 0 ∧ k.ledger = {}
  | .live sock => 0 ≤ sock ∧ table sock = some (.client id) ∧
      k.ledger = { opened := [sock], resolved := 1, freed := 1 }
  | .gone _ => k.ledger.strayed = [] ∧ k.ledger.closed = k.ledger.opened ∧
      k.ledger.freed = k.ledger.resolved

/-- An object does not notice what happens to other descriptors. -/
theorem Sound.of_table (h : Sound table id k)
    (htable : ∀ fd, table fd = some (.client id) → table' fd = some (.client id)) :
    Sound table' id k := by
  obtain ⟨p, l⟩ := k
  cases p with
  | unborn => exact h
  | resolved host => exact h
  | opened host sock => exact ⟨h.1, htable sock h.2.1, h.2.2⟩
  | connected sock => exact ⟨h.1, htable sock h.2.1, h.2.2⟩
  | refused host sock => exact h
  | thrown e sock => exact h
  | live sock => exact ⟨h.1, htable sock h.2.1, h.2.2⟩
  | gone e => exact h

/-- A call that succeeds keeps the object sound. -/
theorem Moves.sound (hm : Moves table id c k k' table') (h : Sound table id k) (hc : c.Succeeds) :
    Sound table' id k' := by
  cases hm with
  | unresolved => exact ⟨by decide, h⟩
  | resolved =>
      obtain rfl : _ = ({} : Ledger) := h
      rfl
  | noSocket hr => exact absurd hc (Int.not_le.mpr hr)
  | opened hr hfree =>
      obtain rfl : _ = ({ resolved := 1 } : Ledger) := h
      exact ⟨hr, Function.update_self .., rfl⟩
  | connected => exact h
  | refused => cases hc
  | closed => exact h.elim
  | freed =>
      obtain ⟨hsock, howner, rfl⟩ := h
      exact ⟨hsock, howner, rfl⟩
  | unwound =>
      obtain ⟨hsock, rfl⟩ := h
      simp only [if_neg (Int.not_le.mpr hsock)]
      exact ⟨rfl, rfl, rfl⟩
  | destroyed =>
      obtain ⟨hsock, howner, rfl⟩ := h
      simp only [if_pos hsock, closing, if_pos howner]
      exact ⟨rfl, rfl, rfl⟩

/-- A sound object leaves the descriptors of the others alone. -/
theorem Moves.table_of_ne {id' : Nat} (hm : Moves table id c k k' table') (h : Sound table id k)
    (hne : id' ≠ id) {fd : Int} (hfd : table fd = some (.client id')) :
    table' fd = some (.client id') := by
  have hother {sock : Int} (hsock : table sock = some (.client id)) : fd ≠ sock := fun heq => by
    subst heq
    rw [hfd] at hsock
    cases hsock
    exact hne rfl
  cases hm with
  | @opened host l returned hr hfree =>
      have hfresh : fd ≠ returned := fun heq => by
        rw [← heq, hfd] at hfree
        cases hfree
      rw [Function.update_of_ne hfresh]
      exact hfd
  | closed => exact h.elim
  | unwound =>
      rw [if_neg (Int.not_le.mpr h.1)]
      exact hfd
  | destroyed =>
      rw [if_pos h.1, Function.update_of_ne (hother h.2.1)]
      exact hfd
  | _ => exact hfd

theorem sound_of_run (h : sockets.run calls = some w) (hc : ∀ c ∈ calls, c.Succeeds) (id : Nat) :
    Sound w.table id (w.clients id) := by
  have h0 : (∀ c ∈ ([] : List Call), c.Succeeds) →
      ∀ id, Sound sockets.start.table id (sockets.start.clients id) := fun _ _ => rfl
  refine Machine.run_induction
    (P := fun calls w => (∀ c ∈ calls, c.Succeeds) → ∀ id, Sound w.table id (w.clients id))
    h0 ?_ h hc id
  intro calls w c w' ih hstep hc id
  have ih := ih fun d hd => hc d (List.mem_append_left _ hd)
  have hlast : c.Succeeds := hc c (List.mem_append_right _ List.mem_cons_self)
  obtain ⟨j, k, hm, hclients⟩ | ⟨-, hclients, fd, o, hfd, htable⟩ := step_cases hstep
  · rw [hclients]
    by_cases hid : id = j
    · subst hid
      rw [Function.update_self]
      exact hm.sound (ih id) hlast
    · rw [Function.update_of_ne hid]
      exact (ih id).of_table fun fd hown => hm.table_of_ne (ih j) hid hown
  · rw [hclients]
    refine (ih id).of_table fun fd' hown => ?_
    have hne : fd' ≠ fd := fun heq => hfd id (heq ▸ hown)
    rw [htable, Function.update_of_ne hne]
    exact hown

theorem balanced_of_sound (h : ∀ id, Sound w.table id (w.clients id)) : Balanced w where
  own id := by
    have hid := h id
    rw [Sound] at hid
    split at hid <;> simp_all
  closed id e he := by
    have hid := h id
    rw [Sound, he] at hid
    exact hid.2.1
  freed id hp := by
    have hid := h id
    rw [Sound] at hid
    obtain ⟨e, he⟩ | ⟨sock, hsock⟩ := hp
    · rw [he] at hid
      exact hid.2.2
    · rw [hsock] at hid
      rw [hid.2.2]

/-! ## What a failure leaves -/

/-- An object whose constructor was left without freeing what `getaddrinfo` returned. -/
def Failed (k : Client) : Prop :=
  match k.phase with
  | .refused _ _ => k.ledger.freed < k.ledger.resolved
  | .thrown _ _ => k.ledger.freed < k.ledger.resolved
  | .gone _ => k.ledger.freed < k.ledger.resolved
  | _ => False

/-- In its constructor an object owes what `getaddrinfo` returned. -/
def Owing (k : Client) : Prop :=
  match k.phase with
  | .unborn => k.ledger.freed = k.ledger.resolved
  | .resolved _ => k.ledger.freed < k.ledger.resolved
  | .opened _ _ => k.ledger.freed < k.ledger.resolved
  | _ => True

/-- The call fails the constructor of an object behind `getaddrinfo`. -/
def Call.Fails (id : Nat) : Call → Prop
  | .socket j returned => j = id ∧ returned < 0
  | .connect j succeeds => j = id ∧ succeeds = false
  | _ => False

/-- Closing a descriptor frees nothing. -/
theorem closing_owes (h : l.freed < l.resolved) :
    (closing table id sock l).freed < (closing table id sock l).resolved := by
  rw [closing]
  split <;> exact h

theorem leaving_owes (h : l.freed < l.resolved) :
    (if 0 ≤ sock then closing table id sock l else l).freed <
      (if 0 ≤ sock then closing table id sock l else l).resolved := by
  split
  · exact closing_owes h
  · exact h

theorem Moves.owing (hm : Moves table id c k k' table') (h : Owing k) : Owing k' := by
  cases hm with
  | resolved =>
      have h : _ = _ := h
      exact h.symm ▸ Nat.lt_succ_self _
  | opened => exact h
  | _ => trivial

/-- Once a constructor has failed behind `getaddrinfo`, nothing is freed any more. -/
theorem Moves.failed (hm : Moves table id c k k' table') (ho : Owing k)
    (h : Failed k ∨ c.Fails id) : Failed k' := by
  cases hm with
  | unresolved => exact h.elim False.elim False.elim
  | resolved => exact h.elim False.elim False.elim
  | noSocket => exact ho
  | opened hr => exact h.elim False.elim fun h => absurd h.2 (Int.not_lt.mpr hr)
  | connected => exact h.elim False.elim fun h => absurd h.2 Bool.true_eq_false_eq_False
  | refused => exact ho
  | closed => exact closing_owes (h.resolve_right False.elim)
  | freed => exact h.elim False.elim False.elim
  | unwound => exact leaving_owes (h.resolve_right False.elim)
  | destroyed => exact h.elim False.elim False.elim

theorem Moves.eq_of_fails {id' : Nat} (hm : Moves table id c k k' table') (h : c.Fails id') :
    id' = id := by
  cases hm with
  | noSocket => exact h.1.symm
  | opened => exact h.1.symm
  | connected => exact h.1.symm
  | refused => exact h.1.symm
  | _ => exact h.elim

theorem failed_of_run (h : sockets.run calls = some w) (id : Nat) :
    Owing (w.clients id) ∧ ((∃ c ∈ calls, c.Fails id) → Failed (w.clients id)) := by
  have h0 : ∀ id, Owing (sockets.start.clients id) ∧
      ((∃ c ∈ ([] : List Call), c.Fails id) → Failed (sockets.start.clients id)) := fun _ =>
    ⟨rfl, fun ⟨_, hc, _⟩ => absurd hc List.not_mem_nil⟩
  refine Machine.run_induction
    (P := fun calls w => ∀ id, Owing (w.clients id) ∧
      ((∃ c ∈ calls, c.Fails id) → Failed (w.clients id))) h0 ?_ h id
  intro calls w c w' ih hstep id
  obtain ⟨howing, hfailed⟩ := ih id
  have hlast : (∃ d ∈ calls ++ [c], d.Fails id) ↔ (∃ d ∈ calls, d.Fails id) ∨ c.Fails id := by
    simp only [List.mem_append, List.mem_singleton, or_and_right, exists_or, exists_eq_left]
  rw [hlast]
  obtain ⟨j, k, hm, hclients⟩ | ⟨⟨fd, hc⟩, hclients, -⟩ := step_cases hstep
  · rw [hclients]
    by_cases hid : id = j
    · subst hid
      rw [Function.update_self]
      exact ⟨hm.owing howing, fun hf => hm.failed howing (hf.imp_left hfailed)⟩
    · rw [Function.update_of_ne hid]
      exact ⟨howing, fun hf => hf.elim hfailed fun hf => absurd (hm.eq_of_fails hf) hid⟩
  · rw [hclients]
    refine ⟨howing, fun hf => hf.elim hfailed fun hf => ?_⟩
    obtain rfl | rfl := hc <;> exact hf.elim

theorem Call.exists_fails (h : ¬ c.Succeeds) : ∃ id, c.Fails id := by
  cases c with
  | socket id returned => exact ⟨id, rfl, Int.not_le.mp h⟩
  | connect id succeeds => exact ⟨id, rfl, Bool.eq_false_iff.mpr h⟩
  | _ => exact absurd trivial h

/-- An object that has failed is gone in the end, and has not freed what it owes. -/
theorem not_balanced_of_failed (hs : Settled w) (h : Failed (w.clients id)) : ¬ Balanced w := by
  intro hb
  obtain hp | ⟨sock, hp⟩ | ⟨e, hp⟩ := hs id <;> rw [Failed, hp] at h
  · exact h
  · exact h
  · have hfreed := hb.freed id (.inl ⟨e, hp⟩)
    have h : _ < _ := h
    omega

/-- In every run without a failure behind `getaddrinfo` the ledgers balance, whatever the other code
does.  Once all constructors are left they balance in no other run. -/
theorem balanced_iff (h : sockets.run calls = some w) :
    ((∀ c ∈ calls, c.Succeeds) → Balanced w) ∧
      (Settled w → (Balanced w ↔ ∀ c ∈ calls, c.Succeeds)) := by
  have hsound (hc : ∀ c ∈ calls, c.Succeeds) : Balanced w :=
    balanced_of_sound (sound_of_run h hc)
  refine ⟨hsound, fun hs => ⟨fun hb c hc => ?_, hsound⟩⟩
  by_contra hfail
  obtain ⟨id, hf⟩ := Call.exists_fails hfail
  exact not_balanced_of_failed hs ((failed_of_run h id).2 ⟨c, hc, hf⟩) hb

/-- An object that connects, while other code opens what it closes. -/
def connects : List Call :=
  [.getaddrinfo 0 (bytes "h") true, .socket 0 3, .connect 0 true, .freeaddrinfo 0, .otherOpens 4,
    .destroy 0, .otherOpens 3]

/-- `balanced_iff`, for an object that connects. -/
theorem balanced_iff_connects :
    ∃ w, sockets.run connects = some w ∧
      ((∀ c ∈ connects, c.Succeeds) → Balanced w) ∧
        (Settled w → (Balanced w ↔ ∀ c ∈ connects, c.Succeeds)) :=
  ⟨_, rfl, balanced_iff rfl⟩

/-- An object that is refused, while other code opens what it has closed. -/
def refusal : List Call :=
  [.getaddrinfo 0 (bytes "h") true, .socket 0 3, .connect 0 false, .close 0, .otherOpens 3,
    .destroy 0]

/-- The second `close` takes a descriptor from other code, and nothing is freed. -/
theorem not_balanced_refusal :
    ∃ w, sockets.run refusal = some w ∧ Settled w ∧ ¬ Balanced w ∧ w.table 3 = none ∧
      (w.clients 0).ledger =
        { opened := [3], closed := [3], strayed := [3], resolved := 1, freed := 0 } := by
  refine ⟨_, rfl, ?_, ?_, rfl, rfl⟩
  · intro id
    cases id with
    | zero => exact .inr (.inr ⟨_, rfl⟩)
    | succ id => exact .inl rfl
  · intro h
    exact absurd (h.own 0) (List.cons_ne_nil 3 [])

end Transport

end NodeLink
