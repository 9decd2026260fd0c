import NodeLink.Parsing.Numbers

/-!
# Compact peer lists

A tracker answers with six bytes for each peer: the address and the port, high
byte first.  `compactPeers` is the list such a string stands for.  It determines
the bytes (`take_eq_of_compactPeers_eq`), up to a rest of less than six.

`GetPeersHTTP` and `GetPeersUDP` each have a loop for it, `everySix` of a body of
its own.  Where the body reads the peer at an index, the loop reads the compact
list (`everySix_of_body`).
-/

namespace NodeLink

/-- `Peer`. -/
structure Peer where
  ip : Str
  port : UInt16
  id : Str := []
deriving DecidableEq, Repr

namespace Tracker

/-- The text of an address. -/
def dotted (b0 b1 b2 b3 : UInt8) : Str :=
  toStringNat b0.toNat ++ bytes "." ++ toStringNat b1.toNat ++ bytes "." ++
    toStringNat b2.toNat ++ bytes "." ++ toStringNat b3.toNat

/-- The peer six bytes from index `i` on stand for. -/
def peerAt (b : Buffer) (i : Nat) : Peer where
  ip := dotted (b.getD i 0) (b.getD (i + 1) 0) (b.getD (i + 2) 0) (b.getD (i + 3) 0)
  port := UInt16.ofNat (256 * (b.getD (i + 4) 0).toNat + (b.getD (i + 5) 0).toNat)

/-- The peers of a compact list: one for each six bytes, in order. -/
def compactPeers (blob : Buffer) : List Peer :=
  (List.range (blob.length / 6)).map fun k => peerAt blob (6 * k)

/-- `for (i = start; i + 6 <= len; i += 6)`, with one peer for each round. -/
def everySix (len : Nat) (body : Nat → Peer) (i : Nat) : List Peer :=
  if i + 6 ≤ len then body i :: everySix len body (i + 6) else []
termination_by len - i

/-! ## The loop -/

variable {blob blob' : Buffer} {len i : Nat}

theorem everySix_eq (len : Nat) (body : Nat → Peer) (i : Nat) :
    everySix len body i = (List.range ((len - i) / 6)).map fun k => body (i + 6 * k) := by
  fun_induction everySix len body i with
  | case1 i hle ih =>
      have hcount : (len - i) / 6 = (len - (i + 6)) / 6 + 1 := by omega
      rw [ih, hcount, List.range_succ_eq_map, List.map_cons, List.map_map]
      refine congrArg (body i :: ·) (List.map_congr_left fun k _ => congrArg body ?_)
      rw [Nat.mul_succ]
      omega
  | case2 i hgt =>
      have hcount : (len - i) / 6 = 0 := by omega
      rw [hcount]
      rfl

/-- The shifts of the source, made in thirty-two bits and cut to sixteen, are the number of two
bytes. -/
theorem port_eq (a b : UInt8) :
    ((a.toUInt32 <<< 8) ||| b.toUInt32).toUInt16 = UInt16.ofNat (256 * a.toNat + b.toNat) := by
  have ha := a.toNat_lt
  have hb := b.toNat_lt
  have hshift : a.toNat <<< ((8 : UInt32).toNat % 32) % 2 ^ 32 = a.toNat <<< 8 := by
    have h8 : (8 : UInt32).toNat % 32 = 8 := by decide
    rw [h8, Nat.shiftLeft_eq, Nat.mod_eq_of_lt (by omega)]
  have hor : (a.toNat <<< 8 ||| b.toNat) = a.toNat * 2 ^ 8 + b.toNat := by
    rw [Nat.shiftLeft_eq, Nat.mul_comm]
    exact (Nat.two_pow_add_eq_or_of_lt (by omega) _).symm
  apply UInt16.toNat_inj.mp
  rw [UInt32.toNat_toUInt16, UInt32.toNat_or, UInt32.toNat_shiftLeft, UInt8.toNat_toUInt32,
    UInt8.toNat_toUInt32, UInt16.toNat_ofNat', hshift, hor]
  omega

/-- A loop whose body reads the peer at an index, from `i` on up to `len`, reads the compact list
there. -/
theorem everySix_of_body {b : Buffer} {body : Nat → Peer} (hbody : body = peerAt b)
    (hlen : len ≤ b.length) (i : Nat) :
    everySix len body i = compactPeers ((b.take len).drop i) := by
  rw [hbody]
  have hcount : ((b.take len).drop i).length = len - i := by
    rw [List.length_drop, List.length_take, Nat.min_eq_left hlen]
  rw [everySix_eq, compactPeers, hcount]
  refine List.map_congr_left fun k hk => ?_
  have hk := List.mem_range.mp hk
  have hget (r : Nat) (hr : r < 6) :
      b.getD (i + 6 * k + r) 0 = ((b.take len).drop i).getD (6 * k + r) 0 := by
    rw [List.getD_eq_getElem?_getD, List.getD_eq_getElem?_getD, List.getElem?_drop,
      List.getElem?_take_of_lt (by omega), Nat.add_assoc]
  simp only [peerAt]
  rw [← hget 1 (by decide), ← hget 2 (by decide), ← hget 3 (by decide), ← hget 4 (by decide),
    ← hget 5 (by decide)]
  have h0 := hget 0 (by decide)
  rw [Nat.add_zero, Nat.add_zero] at h0
  rw [← h0]

/-! ## The bytes of a list -/

/-- What stands before the first `c`, and what stands behind it. -/
theorem append_cons_inj {α : Type*} {c : α} {s s' t t' : List α} (hs : c ∉ s) (hs' : c ∉ s')
    (h : s ++ c :: t = s' ++ c :: t') : s = s' ∧ t = t' := by
  induction s generalizing s' with
  | nil =>
      cases s' with
      | nil => exact ⟨rfl, (List.cons.inj h).2⟩
      | cons b s' => exact absurd ((List.cons.inj h).1 ▸ List.mem_cons_self) hs'
  | cons a s ih =>
      cases s' with
      | nil => exact absurd ((List.cons.inj h).1 ▸ List.mem_cons_self) hs
      | cons b s' =>
          obtain ⟨hab, h⟩ := List.cons.inj h
          obtain ⟨hst, ht⟩ := ih (List.not_mem_of_not_mem_cons hs)
            (List.not_mem_of_not_mem_cons hs') h
          exact ⟨by rw [hab, hst], ht⟩

theorem toStringNat_injective {m n : Nat} (h : toStringNat m = toStringNat n) : m = n := by
  rw [← digitsValue_toStringNat m, h, digitsValue_toStringNat]

/-- A number up to a dot. -/
theorem toStringNat_dot_inj {b b' : UInt8} {t t' : Str}
    (h : toStringNat b.toNat ++ 46 :: t = toStringNat b'.toNat ++ 46 :: t') : b = b' ∧ t = t' := by
  have hdot : isDigit 46 = false := rfl
  obtain ⟨hb, ht⟩ := append_cons_inj (not_mem_toStringNat hdot _) (not_mem_toStringNat hdot _) h
  exact ⟨UInt8.toNat_inj.mp (toStringNat_injective hb), ht⟩

/-- The text of an address determines its bytes. -/
theorem dotted_inj {b0 b1 b2 b3 c0 c1 c2 c3 : UInt8}
    (h : dotted b0 b1 b2 b3 = dotted c0 c1 c2 c3) : b0 = c0 ∧ b1 = c1 ∧ b2 = c2 ∧ b3 = c3 := by
  have hdot : bytes "." = [46] := rfl
  simp only [dotted, hdot, List.append_assoc, List.singleton_append] at h
  obtain ⟨h0, h⟩ := toStringNat_dot_inj h
  obtain ⟨h1, h⟩ := toStringNat_dot_inj h
  obtain ⟨h2, h⟩ := toStringNat_dot_inj h
  exact ⟨h0, h1, h2, UInt8.toNat_inj.mp (toStringNat_injective h)⟩

/-- A port determines its bytes. -/
theorem port_inj {b0 b1 c0 c1 : UInt8}
    (h : UInt16.ofNat (256 * b0.toNat + b1.toNat) = UInt16.ofNat (256 * c0.toNat + c1.toNat)) :
    b0 = c0 ∧ b1 = c1 := by
  have h := congrArg UInt16.toNat h
  have hb0 := b0.toNat_lt
  have hb1 := b1.toNat_lt
  have hc0 := c0.toNat_lt
  have hc1 := c1.toNat_lt
  rw [UInt16.toNat_ofNat', UInt16.toNat_ofNat'] at h
  exact ⟨UInt8.toNat_inj.mp (by omega), UInt8.toNat_inj.mp (by omega)⟩

/-- A peer determines its six bytes. -/
theorem peerAt_inj {b b' : Buffer} (h : peerAt b i = peerAt b' i) :
    ∀ r < 6, b.getD (i + r) 0 = b'.getD (i + r) 0 := by
  obtain ⟨h0, h1, h2, h3⟩ := dotted_inj (congrArg Peer.ip h)
  obtain ⟨h4, h5⟩ := port_inj (congrArg Peer.port h)
  intro r hr
  have hcases : r = 0 ∨ r = 1 ∨ r = 2 ∨ r = 3 ∨ r = 4 ∨ r = 5 := by omega
  rcases hcases with rfl | rfl | rfl | rfl | rfl | rfl
  · exact h0
  · exact h1
  · exact h2
  · exact h3
  · exact h4
  · exact h5

/-- The list determines the bytes it was read from. -/
theorem take_eq_of_compactPeers_eq (h : compactPeers blob = compactPeers blob') :
    blob.take (6 * (blob.length / 6)) = blob'.take (6 * (blob'.length / 6)) := by
  have hcount : blob.length / 6 = blob'.length / 6 := by
    have hl := congrArg List.length h
    simpa only [compactPeers, List.length_map, List.length_range] using hl
  have hpeer (k : Nat) (hk : k < blob.length / 6) : peerAt blob (6 * k) = peerAt blob' (6 * k) := by
    have hget := congrArg (·[k]?) h
    simp only [compactPeers, List.getElem?_map] at hget
    rw [List.getElem?_range hk, List.getElem?_range (hcount ▸ hk)] at hget
    exact Option.some.inj hget
  refine List.ext_getElem? fun j => ?_
  rw [← hcount]
  by_cases hj : j < 6 * (blob.length / 6)
  · have hbyte := peerAt_inj (hpeer (j / 6) (by omega)) (j % 6) (Nat.mod_lt j (by decide))
    rw [Nat.div_add_mod, List.getD_eq_getElem?_getD, List.getD_eq_getElem?_getD] at hbyte
    rw [List.getElem?_take_of_lt hj, List.getElem?_take_of_lt hj]
    rw [List.getElem?_eq_getElem (show j < blob.length by omega),
      List.getElem?_eq_getElem (show j < blob'.length by omega)] at hbyte ⊢
    exact congrArg some hbyte
  · rw [List.getElem?_eq_none (by rw [List.length_take]; omega),
      List.getElem?_eq_none (by rw [List.length_take]; omega)]

end Tracker

end NodeLink
