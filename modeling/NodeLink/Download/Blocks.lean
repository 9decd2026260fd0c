import NodeLink.Lib.Tiling
import NodeLink.Download.Handlers

/-!
# The blocks of a piece

A piece of `m` bytes is asked for in blocks of 16384 bytes, the last one being
what is left: the tiles of `m`.  The source computes offset and length of a
request in `int`, `uint32_t` and `long long`.  For a piece below `2 ^ 31` bytes
whose offset stands at the start of tile `k`, that is the request of tile `k`,
and afterwards the offset stands at its end (`requested_eq`).
-/

namespace NodeLink

open Cpp

/-- The standard length of a block. -/
def blockUnit : Nat := 16384

theorem blockUnit_pos : 0 < blockUnit := by decide

/-- Where block `k` begins. -/
def blockBegin (k : Nat) : Nat := k * blockUnit

/-- The length of block `k` of a piece of `m` bytes. -/
def blockLen (m k : Nat) : Nat := Tiling.size m blockUnit k

/-- The number of blocks of a piece of `m` bytes. -/
def blockCount (m : Nat) : Nat := Tiling.count m blockUnit

/-- The request of block `k` of piece `i`, which has `m` bytes. -/
def blockRequest (i : Int32) (m k : Nat) : Buffer :=
  Message.buildRequest i.toUInt32 (UInt32.ofNat (blockBegin k)) (UInt32.ofNat (blockLen m k))

section Arithmetic

variable {m k : Nat}

theorem blockBegin_lt_iff : blockBegin k < m ↔ k < blockCount m :=
  (Tiling.lt_count_iff blockUnit_pos).symm

theorem blockEnd_le (h : blockBegin k < m) : blockBegin k + blockLen m k ≤ m :=
  Tiling.offset_add_size_le blockUnit_pos (blockBegin_lt_iff.mp h)

/-- A block that is not the last ends where the next one begins, the last one at the end. -/
theorem blockEnd_eq (h : blockBegin k < m) :
    blockBegin k + blockLen m k = if k + 1 = blockCount m then m else blockBegin (k + 1) := by
  have hk := blockBegin_lt_iff.mp h
  by_cases hlast : k + 1 = blockCount m
  · rw [if_pos hlast]
    exact Tiling.offset_add_size_last blockUnit_pos hlast
  · rw [if_neg hlast]
    exact Tiling.offset_add_size blockUnit_pos (by unfold blockCount at hk hlast; omega)

end Arithmetic

namespace Session

variable {s s' : Session} {n : Int64} {m k : Nat} {o : Int32}

/-- A non-negative `int` as `uint32_t`. -/
theorem toNat_toUInt32 {x : Nat} (ho : o.toInt = x) : o.toUInt32.toNat = x := by
  have h := toInt_toInt32 o.toUInt32
  have hlt := o.toUInt32.toNat_lt
  rw [Int32.toInt32_toUInt32, ho] at h
  split at h <;> omega

theorem toUInt32_eq {x : Nat} (ho : o.toInt = x) : o.toUInt32 = UInt32.ofNat x := by
  rw [← toNat_toUInt32 ho, UInt32.ofNat_toNat]

/-- The length of a request is that of the block. -/
theorem reqLen_eq (hn : n.toInt = m) (hm : m < 2 ^ 31) (ho : o.toInt = blockBegin k)
    (hk : blockBegin k < m) : reqLen o n = UInt32.ofNat (blockLen m k) := by
  have hnat := toNat_toUInt32 ho
  have hsum : (o.toUInt32 + 16384).toNat = blockBegin k + 16384 := by
    rw [UInt32.toNat_add, hnat]
    have h : (16384 : UInt32).toNat = 16384 := by decide
    rw [h, Nat.mod_eq_of_lt (by omega)]
  have hlen : blockLen m k = min 16384 (m - blockBegin k) := rfl
  simp only [reqLen]
  rw [hsum, hn, ho]
  by_cases hgt : blockBegin k + 16384 > m
  · have hrest : (((m : Int) - blockBegin k) % 2 ^ 32).toNat = min 16384 (m - blockBegin k) := by
      omega
    rw [if_pos (by exact_mod_cast hgt), hlen, UInt32.ofInt, hrest]
  · rw [if_neg (by exact_mod_cast hgt), hlen, Nat.min_eq_left (by omega)]
    rfl

/-- The state after the request of block `k`. -/
def requested (s : Session) (m k : Nat) : Session :=
  { s with
    conn := { s.conn.logged (.sent (blockRequest s.conn.currentPiece m k)) with
      blockOffset := Int32.ofNat (blockBegin k + blockLen m k)
      currentPiece := if k + 1 = blockCount m then -1 else s.conn.currentPiece }
    results := s.results.tail }

theorem request_eq (hn : n.toInt = m) (hm : m < 2 ^ 31) (ho : s.conn.blockOffset.toInt = blockBegin k)
    (hk : blockBegin k < m) : s.request n = blockRequest s.conn.currentPiece m k := by
  simp only [request, blockRequest]
  rw [reqLen_eq hn hm ho hk, toUInt32_eq ho]

theorem toInt_ofNat {x : Nat} (h : x < 2 ^ 31) : (Int32.ofNat x).toInt = x :=
  Int32.toInt_ofNat_of_lt h

/-- The request moves the offset to the end of the block, and drops a piece that is done. -/
theorem requested_eq (hn : n.toInt = m) (hm : m < 2 ^ 31)
    (ho : s.conn.blockOffset.toInt = blockBegin k) (hk : blockBegin k < m) :
    ((s.sending (s.request n)).advance (reqLen s.conn.blockOffset n)).finishPiece n =
      s.requested m k := by
  have hend := blockEnd_le hk
  have hcase := blockEnd_eq hk
  have hoff : (s.conn.blockOffset.toUInt32 + reqLen s.conn.blockOffset n).toInt32 =
      Int32.ofNat (blockBegin k + blockLen m k) := by
    rw [reqLen_eq hn hm ho hk, toUInt32_eq ho, ← UInt32.ofNat_add]
    rfl
  simp only [finishPiece]
  have hconn : ((s.sending (s.request n)).advance (reqLen s.conn.blockOffset n)).conn.blockOffset =
      Int32.ofNat (blockBegin k + blockLen m k) := hoff
  rw [hconn, toInt_ofNat (by omega), hn]
  simp only [advance, setConn, sending, requested]
  dsimp only [Connection.logged]
  rw [hoff, request_eq hn hm ho hk]
  by_cases hlast : k + 1 = blockCount m
  · rw [if_pos hlast] at hcase
    rw [if_pos (by exact_mod_cast hcase.ge), if_pos hlast]
  · rw [if_neg hlast] at hcase
    have hnext : blockBegin (k + 1) < m := by
      have := blockBegin_lt_iff.mp hk
      exact blockBegin_lt_iff.mpr (by omega)
    rw [if_neg (by rw [hcase]; exact_mod_cast Nat.not_le.mpr hnext), if_neg hlast]

end Session

end NodeLink
