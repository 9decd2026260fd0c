import Mathlib.Order.Interval.Finset.Nat
import NodeLink.Lib.Splice

/-!
# What a sequence of ranges covers

A range is a position and a length.  `covered rs` are the positions inside some
range of the list, `total rs` is the sum of the lengths.  A sum of lengths says
how much is covered exactly if no two ranges overlap (`card_covered_eq_iff`), so
ranges inside `[0, n)` that keep apart cover all of it exactly if their lengths
sum to `n` (`Apart.covered_eq_iff`).

`Splice.overwriteAll` writes blocks into a list, one after another.  At the
positions covered, the result is what the blocks say, in whatever order they
come, as long as they agree with one content (`overwriteAll_eq`).
-/

namespace Coverage

/-- The positions of a range. -/
def positions (r : Nat × Nat) : Finset Nat := Finset.Ico r.1 (r.1 + r.2)

/-- The positions inside some range. -/
def covered : List (Nat × Nat) → Finset Nat
  | [] => ∅
  | r :: rs => positions r ∪ covered rs

/-- The sum of the lengths. -/
def total : List (Nat × Nat) → Nat
  | [] => 0
  | r :: rs => r.2 + total rs

/-- No two ranges overlap. -/
def Apart (rs : List (Nat × Nat)) : Prop :=
  rs.Pairwise fun r s => Disjoint (positions r) (positions s)

variable {r : Nat × Nat} {rs ss : List (Nat × Nat)} {n p : Nat}

@[simp] theorem card_positions (r : Nat × Nat) : (positions r).card = r.2 := by
  rw [positions, Nat.card_Ico, Nat.add_sub_cancel_left]

@[simp] theorem mem_positions : p ∈ positions r ↔ r.1 ≤ p ∧ p < r.1 + r.2 := Finset.mem_Ico

@[simp] theorem total_nil : total [] = 0 := rfl

@[simp] theorem total_cons (r : Nat × Nat) (rs : List (Nat × Nat)) :
    total (r :: rs) = r.2 + total rs := rfl

@[simp] theorem total_append (rs ss : List (Nat × Nat)) :
    total (rs ++ ss) = total rs + total ss := by
  induction rs with
  | nil => exact (Nat.zero_add _).symm
  | cons r rs ih => rw [List.cons_append, total_cons, total_cons, ih, Nat.add_assoc]

theorem total_perm (h : rs.Perm ss) : total rs = total ss := by
  induction h with
  | nil => rfl
  | cons r _ ih => rw [total_cons, total_cons, ih]
  | swap r s rs =>
      simp only [total_cons]
      omega
  | trans _ _ ih ih' => exact ih.trans ih'

theorem mem_covered : p ∈ covered rs ↔ ∃ r ∈ rs, p ∈ positions r := by
  induction rs with
  | nil => simp [covered]
  | cons r rs ih =>
      rw [covered, Finset.mem_union, ih]
      simp

theorem covered_append (rs ss : List (Nat × Nat)) :
    covered (rs ++ ss) = covered rs ∪ covered ss := by
  induction rs with
  | nil => simp [covered]
  | cons r rs ih => rw [List.cons_append, covered, covered, ih, Finset.union_assoc]

/-- A range of length zero covers nothing. -/
theorem covered_concat_of_zero (h : r.2 = 0) : covered (rs ++ [r]) = covered rs := by
  have hr : positions r = ∅ := by rw [positions, h, Nat.add_zero, Finset.Ico_self]
  rw [covered_append, covered, covered, hr, Finset.union_empty, Finset.union_empty]

/-- No more is covered than the lengths sum to. -/
theorem card_covered_le : (covered rs).card ≤ total rs := by
  induction rs with
  | nil => exact Nat.zero_le _
  | cons r rs ih =>
      have hunion := Finset.card_union_le (positions r) (covered rs)
      rw [card_positions] at hunion
      rw [covered, total_cons]
      omega

theorem disjoint_covered : Disjoint (positions r) (covered rs) ↔
    ∀ s ∈ rs, Disjoint (positions r) (positions s) := by
  induction rs with
  | nil => simp [covered]
  | cons s rs ih => rw [covered, Finset.disjoint_union_right, ih, List.forall_mem_cons]

/-- The lengths sum to what is covered exactly if no two ranges overlap. -/
theorem card_covered_eq_iff : (covered rs).card = total rs ↔ Apart rs := by
  induction rs with
  | nil => exact ⟨fun _ => List.Pairwise.nil, fun _ => rfl⟩
  | cons r rs ih =>
      have hle : (covered rs).card ≤ total rs := card_covered_le
      have hunion := Finset.card_union_le (positions r) (covered rs)
      rw [card_positions] at hunion
      rw [Apart, List.pairwise_cons, ← disjoint_covered, ← Finset.card_union_eq_card_add_card,
        card_positions, covered, total_cons]
      constructor
      · intro h
        have hcard : (covered rs).card = total rs := by omega
        exact ⟨by omega, ih.mp hcard⟩
      · rintro ⟨h, hrs⟩
        rw [h, ih.mpr hrs]

theorem covered_subset (h : ∀ r ∈ rs, r.1 + r.2 ≤ n) : covered rs ⊆ Finset.range n := by
  intro p hp
  obtain ⟨r, hr, hpr⟩ := mem_covered.mp hp
  have := h r hr
  rw [mem_positions] at hpr
  exact Finset.mem_range.mpr (by omega)

/-- All positions below `n` are covered exactly if that many are. -/
theorem covered_eq_range_iff (h : ∀ r ∈ rs, r.1 + r.2 ≤ n) :
    covered rs = Finset.range n ↔ (covered rs).card = n := by
  constructor
  · intro hc
    rw [hc, Finset.card_range]
  · intro hc
    exact Finset.eq_of_subset_of_card_le (covered_subset h) (by rw [hc, Finset.card_range])

/-- Ranges that keep apart cover everything exactly if their lengths sum to it. -/
theorem Apart.covered_eq_iff (ha : Apart rs) (h : ∀ r ∈ rs, r.1 + r.2 ≤ n) :
    covered rs = Finset.range n ↔ total rs = n := by
  rw [covered_eq_range_iff h, card_covered_eq_iff.mpr ha]

/-- Ranges whose lengths sum to what they cover keep apart. -/
theorem apart_of_covered_eq (hc : covered rs = Finset.range n) (ht : total rs = n) : Apart rs := by
  rw [← card_covered_eq_iff, hc, Finset.card_range, ht]

theorem Apart.perm (ha : Apart rs) (h : rs.Perm ss) : Apart ss :=
  (h.pairwise_iff fun hd => hd.symm).mp ha

end Coverage

namespace Splice

open Coverage

variable {α : Type*} {c content : List α} {bs : List (Nat × List α)} {off p : Nat} {b : List α}

/-- Where a block is written stand its elements, elsewhere nothing changes. -/
theorem getElem?_overwrite (h : off + b.length ≤ c.length) (p : Nat) :
    (overwrite c off b)[p]? = if off ≤ p ∧ p < off + b.length then b[p - off]? else (c)[p]? := by
  have hlen : (c.take off).length = off := List.length_take_of_le (by omega)
  simp only [overwrite]
  rw [List.append_assoc]
  rcases Nat.lt_or_ge p off with hlt | hge
  · rw [List.getElem?_append_left (by omega), List.getElem?_take_of_lt hlt, if_neg (by omega)]
  rw [List.getElem?_append_right (by omega), hlen]
  rcases Nat.lt_or_ge (p - off) b.length with hin | hout
  · rw [List.getElem?_append_left hin, if_pos (by omega)]
  · rw [List.getElem?_append_right hout, List.getElem?_drop, if_neg (by omega),
      show off + b.length + (p - off - b.length) = p by omega]

/-- Blocks written one after another. -/
def overwriteAll (c : List α) (bs : List (Nat × List α)) : List α :=
  bs.foldl (fun c b => overwrite c b.1 b.2) c

/-- Where a block goes. -/
def span (b : Nat × List α) : Nat × Nat := (b.1, b.2.length)

@[simp] theorem overwriteAll_nil (c : List α) : overwriteAll c [] = c := rfl

theorem overwriteAll_concat (c : List α) (bs : List (Nat × List α)) (b : Nat × List α) :
    overwriteAll c (bs ++ [b]) = overwrite (overwriteAll c bs) b.1 b.2 := by
  rw [overwriteAll, List.foldl_append]
  rfl

@[simp] theorem overwriteAll_length (h : ∀ b ∈ bs, b.1 + b.2.length ≤ c.length) :
    (overwriteAll c bs).length = c.length := by
  induction bs using List.reverseRecOn with
  | nil => rfl
  | append_singleton bs b ih =>
      have hb := h b (List.mem_append_right bs (List.mem_singleton_self b))
      have hbs := ih fun x hx => h x (List.mem_append_left [b] hx)
      rw [overwriteAll_concat, overwrite_length (by omega), hbs]

/-- The block is part of the content. -/
def PartOf (content : List α) (b : Nat × List α) : Prop := (content.drop b.1).take b.2.length = b.2

/-- At a covered position stands the content. -/
theorem getElem?_overwriteAll (h : ∀ b ∈ bs, b.1 + b.2.length ≤ c.length)
    (hpart : ∀ b ∈ bs, PartOf content b) (hp : p ∈ covered (bs.map span)) :
    (overwriteAll c bs)[p]? = content[p]? := by
  induction bs using List.reverseRecOn with
  | nil => exact absurd hp (Finset.notMem_empty p)
  | append_singleton bs b ih =>
      have hb := h b (List.mem_append_right bs (List.mem_singleton_self b))
      have hbs : ∀ x ∈ bs, x.1 + x.2.length ≤ c.length :=
        fun x hx => h x (List.mem_append_left [b] hx)
      have hlen := overwriteAll_length hbs
      rw [overwriteAll_concat, getElem?_overwrite (by omega)]
      split
      · next hin =>
          -- The last block that covers the position decides.
          have hpb := hpart b (List.mem_append_right bs (List.mem_singleton_self b))
          conv_lhs => rw [← hpb]
          rw [List.getElem?_take_of_lt (by omega), List.getElem?_drop,
            Nat.add_sub_cancel' hin.1]
      · next hout =>
          rw [List.map_append, covered_append, Finset.mem_union] at hp
          rcases hp with hp | hp
          · exact ih hbs (fun x hx => hpart x (List.mem_append_left [b] hx)) hp
          · obtain ⟨r, hr, hpr⟩ := mem_covered.mp hp
            rw [List.mem_singleton.mp hr, mem_positions] at hpr
            exact absurd hpr hout

/-- Parts of a content that cover it, written in any order over a list of its length, give the
content. -/
theorem overwriteAll_eq (hlen : c.length = content.length)
    (h : ∀ b ∈ bs, b.1 + b.2.length ≤ c.length) (hpart : ∀ b ∈ bs, PartOf content b)
    (hcov : covered (bs.map span) = Finset.range content.length) :
    overwriteAll c bs = content := by
  apply List.ext_getElem?
  intro p
  rcases Nat.lt_or_ge p content.length with hp | hp
  · exact getElem?_overwriteAll h hpart (by rw [hcov]; exact Finset.mem_range.mpr hp)
  · have hall := overwriteAll_length h
    rw [List.getElem?_eq_none hp, List.getElem?_eq_none (by omega)]

end Splice
