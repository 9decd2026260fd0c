import NodeLink.Lib.Machine

/-!
# Two machines in a row

A maker makes items, and a taker takes them over one by one.  The two act in any
order.  An action of the maker may make several items.  They are due from then
on, and before its next action they are handed over in order, with any actions of
the taker in between.

The state of a pipeline is reached by the actions of its maker alone and by those
of its taker alone, and what was handed over and what is due is what was made
(`Pipeline.run_parts`, `Pipeline.run_items`).
-/

/-- A maker and a taker.  What was made is read off the maker's state. -/
structure Pipeline (σ τ α β ι : Type*) where
  maker : Machine σ α
  taker : Machine τ β
  made : σ → List ι
  /-- The item an action of the taker takes over. -/
  takes : β → Option ι
  /-- The taker lets the maker act. -/
  accepts : τ → Bool
  /-- An action of the taker that waits until no item is due. -/
  closes : β → Bool

namespace Pipeline

variable {σ τ α β ι : Type*}

/-- The two states, and the items that are made and not handed over. -/
structure State (σ τ ι : Type*) where
  maker : σ
  due : List ι
  taker : τ

variable (P : Pipeline σ τ α β ι)

/-- The actions of the maker in a run. -/
def makers (as : List (α ⊕ β)) : List α := as.filterMap Sum.getLeft?

/-- The actions of the taker in a run. -/
def takers (as : List (α ⊕ β)) : List β := as.filterMap Sum.getRight?

/-- The items handed over in a run, in order. -/
def handed (as : List (α ⊕ β)) : List ι := (takers as).filterMap P.takes

theorem makers_append (as bs : List (α ⊕ β)) : makers (as ++ bs) = makers as ++ makers bs :=
  List.filterMap_append

theorem takers_append (as bs : List (α ⊕ β)) : takers (as ++ bs) = takers as ++ takers bs :=
  List.filterMap_append

theorem handed_append (as bs : List (α ⊕ β)) : P.handed (as ++ bs) = P.handed as ++ P.handed bs := by
  rw [handed, takers_append, List.filterMap_append]
  rfl

/-! ## Steps -/

variable [DecidableEq ι]

/-- One action of the maker or of the taker, where it is possible. -/
def step (s : State σ τ ι) : α ⊕ β → Option (State σ τ ι)
  | .inl a =>
      if s.due = [] ∧ P.accepts s.taker then
        (P.maker.step s.maker a).map fun m =>
          { s with maker := m, due := (P.made m).drop (P.made s.maker).length }
      else none
  | .inr b =>
      match P.takes b with
      | some i =>
          if s.due.head? = some i then
            (P.taker.step s.taker b).map fun t => { s with due := s.due.tail, taker := t }
          else none
      | none =>
          if P.closes b ∧ s.due ≠ [] then none
          else (P.taker.step s.taker b).map fun t => { s with taker := t }

/-- The pipeline as a machine. -/
def machine : Machine (State σ τ ι) (α ⊕ β) := ⟨⟨P.maker.start, [], P.taker.start⟩, P.step⟩

variable {P} {s s' : State σ τ ι} {as : List (α ⊕ β)} {a : α} {b : β} {i : ι}

/-- Everything an action can do. -/
theorem step_cases {ab : α ⊕ β} (h : P.step s ab = some s') :
    (∃ a m, ab = .inl a ∧ s.due = [] ∧ P.accepts s.taker = true ∧
      P.maker.step s.maker a = some m ∧
      s' = ⟨m, (P.made m).drop (P.made s.maker).length, s.taker⟩) ∨
    (∃ b i t, ab = .inr b ∧ P.takes b = some i ∧ s.due = i :: s'.due ∧
      P.taker.step s.taker b = some t ∧ s' = ⟨s.maker, s'.due, t⟩) ∨
    (∃ b t, ab = .inr b ∧ P.takes b = none ∧ (P.closes b = true → s.due = []) ∧
      P.taker.step s.taker b = some t ∧ s' = ⟨s.maker, s.due, t⟩) := by
  cases ab with
  | inl a =>
      simp only [step, Option.ite_none_right_eq_some, Option.map_eq_some_iff] at h
      obtain ⟨⟨hdue, hacc⟩, m, hm, rfl⟩ := h
      exact .inl ⟨a, m, rfl, hdue, hacc, hm, rfl⟩
  | inr b =>
      refine .inr ?_
      cases hb : P.takes b with
      | some i =>
          simp only [step, hb, Option.ite_none_right_eq_some, Option.map_eq_some_iff] at h
          obtain ⟨hdue, t, ht, rfl⟩ := h
          exact .inl ⟨b, i, t, rfl, hb, (List.cons_head?_tail hdue).symm, ht, rfl⟩
      | none =>
          simp only [step, hb, Option.ite_none_left_eq_some, Option.map_eq_some_iff] at h
          obtain ⟨hclose, t, ht, rfl⟩ := h
          exact .inr ⟨b, t, rfl, hb, fun hc => not_not.mp fun hd => hclose ⟨hc, hd⟩, ht, rfl⟩

/-! ## One action at a time -/

theorem step_maker (h : P.maker.step s.maker a = some m) (hdue : s.due = [])
    (hacc : P.accepts s.taker = true) :
    P.machine.step s (.inl a) =
      some ⟨m, (P.made m).drop (P.made s.maker).length, s.taker⟩ := by
  simp only [machine, step]
  rw [if_pos ⟨hdue, hacc⟩, h]
  rfl

theorem step_handOver {due : List ι} {t : τ} (hb : P.takes b = some i) (hdue : s.due = i :: due)
    (ht : P.taker.step s.taker b = some t) :
    P.machine.step s (.inr b) = some ⟨s.maker, due, t⟩ := by
  simp only [machine, step, hb, hdue]
  rw [if_pos (by rfl), ht]
  rfl

/-- The maker has gone through its own actions, and so has the taker. -/
theorem run_parts (h : P.machine.run as = some s) :
    P.maker.run (makers as) = some s.maker ∧ P.taker.run (takers as) = some s.taker := by
  refine Machine.run_induction (P := fun as s => P.maker.run (makers as) = some s.maker ∧
    P.taker.run (takers as) = some s.taker) ⟨rfl, rfl⟩ ?_ h
  intro as s ab s' ⟨hm, ht⟩ hstep
  rw [makers_append, takers_append]
  rcases step_cases hstep with ⟨a, m, rfl, -, -, ha, rfl⟩ | ⟨b, i, t, rfl, -, -, hb, hs'⟩ |
    ⟨b, t, rfl, -, -, hb, rfl⟩
  · refine ⟨?_, (congrArg P.taker.run (List.append_nil _)).trans ht⟩
    change P.maker.run (makers as ++ [a]) = _
    rw [Machine.run_concat, hm]
    exact ha
  · rw [hs']
    refine ⟨(congrArg P.maker.run (List.append_nil _)).trans hm, ?_⟩
    change P.taker.run (takers as ++ [b]) = _
    rw [Machine.run_concat, ht]
    exact hb
  · refine ⟨(congrArg P.maker.run (List.append_nil _)).trans hm, ?_⟩
    change P.taker.run (takers as ++ [b]) = _
    rw [Machine.run_concat, ht]
    exact hb

/-- What was handed over, and what is due, is what was made, if the maker takes nothing back. -/
theorem run_items (h0 : P.made P.maker.start = [])
    (hgrow : ∀ m a m', P.maker.step m a = some m' → P.made m <+: P.made m')
    (h : P.machine.run as = some s) : P.handed as ++ s.due = P.made s.maker := by
  refine Machine.run_induction (P := fun as s => P.handed as ++ s.due = P.made s.maker)
    (by rw [machine, h0]; rfl) ?_ h
  intro as s ab s' hitems hstep
  rw [handed_append]
  rcases step_cases hstep with ⟨a, m, rfl, hdue, -, ha, rfl⟩ | ⟨b, i, t, rfl, hi, hdue, -, hs'⟩ |
    ⟨b, t, rfl, hb, -, -, rfl⟩
  · have hmade : P.handed as = P.made s.maker := by
      rw [← hitems, hdue, List.append_nil]
    change P.handed as ++ [] ++ (P.made m).drop (P.made s.maker).length = P.made m
    rw [List.append_nil, hmade]
    exact List.prefix_iff_eq_append.mp (hgrow _ _ _ ha)
  · have hone : P.handed [.inr b] = [i] := List.filterMap_cons_some hi
    rw [hone, List.append_assoc, List.singleton_append, ← hdue, hitems, hs']
  · have hone : P.handed [.inr b] = [] := List.filterMap_cons_none hb
    rw [hone, List.append_nil, hitems]

end Pipeline
