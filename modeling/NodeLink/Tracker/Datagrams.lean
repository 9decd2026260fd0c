import NodeLink.Lib.Layout
import NodeLink.Tracker.Agreement

/-!
# The datagrams of BEP 15

`ConnectFields` and `AnnounceFields` are the two requests as BEP 15 lays them
out: `ofBytes` reads each field at its offset.  `datagrams_bep15` says that what
`getPeersUDP` sends is read as what was meant.

The connection id is eight bytes of the connect response.  It is read into a
number by a loop of shifts, and written again by shifts (`take_announceRequest`).
-/

namespace NodeLink

open Layout

/-! ## The layout -/

/-- A connect request. -/
structure ConnectFields where
  protocolId : Nat
  action : Nat
  transactionId : Nat
deriving DecidableEq, Repr

/-- A connect request is 16 bytes. -/
def ConnectFields.ofBytes (b : Buffer) : ConnectFields where
  protocolId := beValue (slice b 0 8)
  action := beValue (slice b 8 4)
  transactionId := beValue (slice b 12 4)

/-- An IPv4 announce request. -/
structure AnnounceFields where
  connectionId : Nat
  action : Nat
  transactionId : Nat
  infoHash : Buffer
  peerId : Buffer
  downloaded : Nat
  left : Nat
  uploaded : Nat
  event : Nat
  ip : Nat
  key : Nat
  numWant : Int
  port : Nat
deriving DecidableEq, Repr

/-- An IPv4 announce request is 98 bytes.  `numWant` is signed. -/
def AnnounceFields.ofBytes (b : Buffer) : AnnounceFields where
  connectionId := beValue (slice b 0 8)
  action := beValue (slice b 8 4)
  transactionId := beValue (slice b 12 4)
  infoHash := slice b 16 20
  peerId := slice b 36 20
  downloaded := beValue (slice b 56 8)
  left := beValue (slice b 64 8)
  uploaded := beValue (slice b 72 8)
  event := beValue (slice b 80 4)
  ip := beValue (slice b 84 4)
  key := beValue (slice b 88 4)
  numWant := Int.bmod (beValue (slice b 92 4)) (2 ^ 32)
  port := beValue (slice b 96 2)

/-! ## What the writers write -/

theorem beValue_bytesBE32 (v : UInt32) : beValue (bytesBE32 v) = v.toNat := by
  have h : v.toNat = _ := (congrArg UInt32.toNat (be32_bytesBE32 v)).symm.trans (be32_toNat _ _ _ _)
  rw [h]
  simp only [bytesBE32, beValue, List.reverse_cons, List.reverse_nil, List.nil_append,
    List.cons_append, List.map_cons, List.map_nil, Nat.ofDigits_cons, Nat.ofDigits_nil]
  ring

namespace Tracker

/-- The eight bytes `WriteBE64` appends. -/
def bytesBE64 (v : UInt64) : Buffer := writeBE64 [] v

theorem bytesBE64_eq (v : UInt64) :
    bytesBE64 v = bytesBE32 ((v >>> 32) &&& 0xFFFFFFFF).toUInt32 ++
      bytesBE32 (v &&& 0xFFFFFFFF).toUInt32 := rfl

theorem writeBE64_eq (b : Buffer) (v : UInt64) : writeBE64 b v = b ++ bytesBE64 v :=
  List.append_assoc _ _ _

@[simp] theorem bytesBE64_length (v : UInt64) : (bytesBE64 v).length = 8 := rfl

theorem beValue_bytesBE64 (v : UInt64) : beValue (bytesBE64 v) = v.toNat := by
  have hv := v.toNat_lt
  have hand (n : Nat) : n &&& 4294967295 = n % 2 ^ 32 := Nat.and_two_pow_sub_one_eq_mod n 32
  rw [bytesBE64_eq, beValue_append, beValue_bytesBE32, beValue_bytesBE32, bytesBE32_length]
  simp only [UInt64.toNat_toUInt32, UInt64.toNat_and, UInt64.toNat_shiftRight, UInt64.reduceToNat,
    Nat.reduceMod, Nat.shiftRight_eq_div_pow, hand]
  omega

theorem lowByte_toNat (n : Int32) : (lowByte n).toNat = n.toUInt32.toNat % 256 := by
  have hand (n : Nat) : n &&& 255 = n % 256 := Nat.and_two_pow_sub_one_eq_mod n 8
  have h : (n &&& 0xFF).toUInt32.toNat = n.toUInt32.toNat &&& 255 := rfl
  rw [lowByte, UInt32.toNat_toUInt8, h, hand, Nat.mod_mod]

/-- An `int` that is not negative keeps its value as an unsigned one. -/
theorem toNat_toUInt32 {port : Int32} {n : Nat} (h : port.toInt = n) : port.toUInt32.toNat = n := by
  have hlt := port.toBitVec.isLt
  have hcond : port.toInt = if 2 * port.toBitVec.toNat < 2 ^ 32 then (port.toBitVec.toNat : Int)
      else port.toBitVec.toNat - (2 ^ 32 : Nat) := BitVec.toInt_eq_toNat_cond _
  have hnat : port.toUInt32.toNat = port.toBitVec.toNat := rfl
  rw [hnat]
  split at hcond <;> omega

theorem toInt_shiftRight_eight (port : Int32) : (port >>> 8).toInt = port.toInt / 256 := by
  have h : (port >>> 8).toInt = port.toInt >>> (8 : Nat) := BitVec.toInt_sshiftRight
  rw [h, Int.shiftRight_eq_div_pow]
  rfl

/-- The two bytes of a port are its number. -/
theorem beValue_port {port : Int32} (h0 : 0 ≤ port.toInt) (h1 : port.toInt ≤ 65535) :
    beValue [lowByte (port >>> 8), lowByte port] = port.toInt.toNat := by
  obtain ⟨n, hn⟩ := Int.eq_ofNat_of_zero_le h0
  have hlow : port.toUInt32.toNat = n := toNat_toUInt32 hn
  have hhigh : (port >>> 8).toUInt32.toNat = n / 256 := by
    refine toNat_toUInt32 ?_
    rw [toInt_shiftRight_eight, hn]
    rfl
  have hvalue := beValue_concat [lowByte (port >>> 8)] (lowByte port)
  rw [beValue_singleton, lowByte_toNat, lowByte_toNat, hlow, hhigh] at hvalue
  rw [hn, Int.toNat_natCast]
  exact hvalue.trans (by omega)

/-! ## The requests, field by field -/

variable {connectionId : UInt64} {transactionId key : UInt32} {t : TorrentFile} {peerId : Str}
  {port : Int32} {response : Buffer}

/-- The fields of a connect request. -/
def connectParts (transactionId : UInt32) : List Buffer :=
  [bytesBE64 0x41727101980, bytesBE32 0, bytesBE32 transactionId]

/-- The widths of the fields of a connect request. -/
def connectWidths : List Nat := [8, 4, 4]

/-- The fields of an announce request. -/
def announceParts (connectionId : UInt64) (transactionId key : UInt32) (t : TorrentFile)
    (peerId : Str) (port : Int32) : List Buffer :=
  [bytesBE64 connectionId, bytesBE32 1, bytesBE32 transactionId, t.infoHash, peerId, bytesBE64 0,
    bytesBE64 t.length.toUInt64, bytesBE64 0, bytesBE32 0, bytesBE32 0, bytesBE32 key,
    bytesBE32 (-1), [lowByte (port >>> 8), lowByte port]]

/-- The widths of the fields of an announce request. -/
def announceWidths : List Nat := [8, 4, 4, 20, 20, 8, 8, 8, 4, 4, 4, 4, 2]

theorem connectRequest_eq (transactionId : UInt32) :
    connectRequest transactionId = (connectParts transactionId).flatten := rfl

theorem announceRequest_eq (connectionId : UInt64) (transactionId key : UInt32) (t : TorrentFile)
    (peerId : Str) (port : Int32) :
    announceRequest connectionId transactionId key t peerId port =
      (announceParts connectionId transactionId key t peerId port).flatten := by
  simp only [announceRequest, announceParts, writeBE64_eq, writeBE32, List.flatten_cons,
    List.flatten_nil, List.append_assoc, List.nil_append, List.append_nil, List.singleton_append]

theorem announceParts_widths (ht : t.infoHash.length = 20) (hp : peerId.length = 20) :
    (announceParts connectionId transactionId key t peerId port).map List.length =
      announceWidths := by
  simp only [announceParts, List.map_cons, List.map_nil, ht, hp]
  rfl

theorem connectRequest_length : (connectRequest transactionId).length = 16 := rfl

theorem announceRequest_length (ht : t.infoHash.length = 20) (hp : peerId.length = 20) :
    (announceRequest connectionId transactionId key t peerId port).length = 98 := by
  rw [announceRequest_eq, List.length_flatten, announceParts_widths ht hp]
  rfl

theorem ofBytes_connectRequest :
    ConnectFields.ofBytes (connectRequest transactionId) =
      { protocolId := 0x41727101980, action := 0, transactionId := transactionId.toNat } := by
  have hparts : (connectParts transactionId).map List.length = connectWidths := rfl
  have hprotocol : beValue (slice (connectRequest transactionId) 0 8) = 0x41727101980 := by
    rw [connectRequest_eq]
    exact (congrArg beValue (slice_flatten (k := 0) hparts rfl)).trans (beValue_bytesBE64 _)
  have haction : beValue (slice (connectRequest transactionId) 8 4) = 0 := by
    rw [connectRequest_eq]
    exact (congrArg beValue (slice_flatten (k := 1) hparts rfl)).trans (beValue_bytesBE32 _)
  have htransaction :
      beValue (slice (connectRequest transactionId) 12 4) = transactionId.toNat := by
    rw [connectRequest_eq]
    exact (congrArg beValue (slice_flatten (k := 2) hparts rfl)).trans (beValue_bytesBE32 _)
  rw [ConnectFields.ofBytes, hprotocol, haction, htransaction]

/-- An announce request is read as what was meant. -/
theorem ofBytes_announceRequest (ht : t.infoHash.length = 20) (hp : peerId.length = 20)
    (h0 : 0 ≤ port.toInt) (h1 : port.toInt ≤ 65535) :
    AnnounceFields.ofBytes (announceRequest connectionId transactionId key t peerId port) =
      { connectionId := connectionId.toNat, action := 1, transactionId := transactionId.toNat
        infoHash := t.infoHash, peerId := peerId, downloaded := 0
        left := (t.length.toInt % 2 ^ 64).toNat, uploaded := 0, event := 0, ip := 0
        key := key.toNat, numWant := -1, port := port.toInt.toNat } := by
  have hparts : (announceParts connectionId transactionId key t peerId port).map List.length =
      announceWidths := announceParts_widths ht hp
  have hfield {k : Nat} {p : Buffer}
      (hk : (announceParts connectionId transactionId key t peerId port)[k]? = some p) :
      slice (announceRequest connectionId transactionId key t peerId port)
        (offset announceWidths k) (announceWidths.getD k 0) = p := by
    rw [announceRequest_eq]
    exact slice_flatten hparts hk
  have h64 {k : Nat} {v : UInt64}
      (hk : (announceParts connectionId transactionId key t peerId port)[k]? = some (bytesBE64 v)) :=
    (congrArg beValue (hfield hk)).trans (beValue_bytesBE64 v)
  have h32 {k : Nat} {v : UInt32}
      (hk : (announceParts connectionId transactionId key t peerId port)[k]? = some (bytesBE32 v)) :=
    (congrArg beValue (hfield hk)).trans (beValue_bytesBE32 v)
  have hleft : t.length.toUInt64.toNat = (t.length.toInt % 2 ^ 64).toNat := by
    have hlt := t.length.toBitVec.isLt
    have hnat : t.length.toUInt64.toNat = t.length.toBitVec.toNat := rfl
    have hint : t.length.toInt = Int.bmod t.length.toBitVec.toNat (2 ^ 64) :=
      BitVec.toInt_eq_toNat_bmod _
    have hmod : t.length.toInt % ((2 ^ 64 : Nat) : Int) = (t.length.toBitVec.toNat : Int) := by
      rw [hint, Int.bmod_emod]
      exact Int.emod_eq_of_lt (Int.natCast_nonneg _) (by exact_mod_cast hlt)
    rw [hnat]
    exact (congrArg Int.toNat hmod).symm
  have hwant : Int.bmod ((-1 : UInt32).toNat) (2 ^ 32) = -1 := by decide
  rw [AnnounceFields.ofBytes, AnnounceFields.mk.injEq]
  refine ⟨h64 (k := 0) rfl, h32 (k := 1) rfl, h32 (k := 2) rfl, hfield (k := 3) rfl,
    hfield (k := 4) rfl, h64 (k := 5) rfl, (h64 (k := 6) rfl).trans hleft, h64 (k := 7) rfl,
    h32 (k := 8) rfl, h32 (k := 9) rfl, h32 (k := 10) rfl, ?_, ?_⟩
  · exact (congrArg (fun n : Nat => Int.bmod n (2 ^ 32)) (h32 (k := 11) rfl)).trans hwant
  · exact (congrArg beValue (hfield (k := 12) rfl)).trans (beValue_port h0 h1)

/-! ## The connection id -/

theorem toNat_shift_or {id : UInt64} (h : id.toNat < 2 ^ 56) (b : UInt8) :
    ((id <<< 8) ||| b.toUInt64).toNat = id.toNat * 256 + b.toNat := by
  have hb := b.toNat_lt
  have hor : (id.toNat * 256 ||| b.toNat) = id.toNat * 256 + b.toNat := by
    have h256 : id.toNat * 256 = 2 ^ 8 * id.toNat := Nat.mul_comm _ _
    rw [h256]
    exact (Nat.two_pow_add_eq_or_of_lt (by omega) _).symm
  have hshift : (id <<< 8).toNat = id.toNat * 256 := by
    have h8 : (8 : UInt64).toNat % 64 = 8 := by decide
    rw [UInt64.toNat_shiftLeft, h8, Nat.shiftLeft_eq]
    exact Nat.mod_eq_of_lt (by omega)
  rw [UInt64.toNat_or, hshift, UInt8.toNat_toUInt64, hor]

/-- After `n` rounds the loop holds the value of the first `n` bytes of the connection id. -/
theorem connectionId_rounds (h : 16 ≤ response.length) {n : Nat} (hn : n ≤ 8) :
    ((List.range n).foldl
      (fun (id : UInt64) i => (id <<< 8) ||| (response.getD (8 + i) 0).toUInt64) 0).toNat =
      beValue (slice response 8 n) := by
  induction n with
  | zero => rfl
  | succ n ih =>
      have ih := ih (by omega)
      have hlt : beValue (slice response 8 n) < 2 ^ 56 := by
        have hle : 256 ^ n ≤ 256 ^ 7 := Nat.pow_le_pow_right (by decide) (by omega)
        have hlen : (slice response 8 n).length = n := slice_length (by omega)
        have hv := beValue_lt (slice response 8 n)
        rw [hlen] at hv
        omega
      rw [List.range_succ, List.foldl_append, List.foldl_cons, List.foldl_nil,
        toNat_shift_or (ih.symm ▸ hlt), ih, slice_succ (by omega), beValue_concat]

/-- The connection id goes back as the bytes in which it came. -/
theorem take_announceRequest (h : 16 ≤ response.length) (rest : Buffer) :
    (announceRequest (connectionIdOf (response ++ rest)) transactionId key t peerId port).take 8 =
      (response.drop 8).take 8 := by
  have hbytes : bytesBE64 (connectionIdOf response) = slice response 8 8 := by
    have hlen : (slice response 8 8).length = 8 := slice_length (by omega)
    refine beValue_inj (hlen.symm ▸ bytesBE64_length _) ?_
    rw [beValue_bytesBE64]
    exact connectionId_rounds h (Nat.le_refl 8)
  rw [connectionIdOf_append h, announceRequest_eq, announceParts, List.flatten_cons]
  exact (List.take_left' rfl).trans hbytes

/-- What `getPeersUDP` sends is what BEP 15 defines. -/
theorem datagrams_bep15 (connectionId : UInt64) (transactionId key : UInt32) (t : TorrentFile)
    (peerId : Str) (port : Int32) (ht : t.infoHash.length = 20) (hp : peerId.length = 20)
    (h0 : 0 ≤ port.toInt) (h1 : port.toInt ≤ 65535) :
    (connectRequest transactionId).length = 16 ∧
      ConnectFields.ofBytes (connectRequest transactionId) =
        { protocolId := 0x41727101980, action := 0, transactionId := transactionId.toNat } ∧
      (announceRequest connectionId transactionId key t peerId port).length = 98 ∧
      AnnounceFields.ofBytes (announceRequest connectionId transactionId key t peerId port) =
        { connectionId := connectionId.toNat, action := 1, transactionId := transactionId.toNat
          infoHash := t.infoHash, peerId := peerId, downloaded := 0
          left := (t.length.toInt % 2 ^ 64).toNat, uploaded := 0, event := 0, ip := 0
          key := key.toNat, numWant := -1, port := port.toInt.toNat } ∧
      ∀ response rest : Buffer, 16 ≤ response.length →
        (announceRequest (connectionIdOf (response ++ rest)) transactionId key t peerId port).take 8
          = (response.drop 8).take 8 :=
  ⟨connectRequest_length, ofBytes_connectRequest, announceRequest_length ht hp,
    ofBytes_announceRequest ht hp h0 h1, fun _ rest h => take_announceRequest h rest⟩

/-- `datagrams_bep15`, for one exchange. -/
theorem datagrams_bep15_wanted :
    (connectRequest 7).length = 16 ∧
      ConnectFields.ofBytes (connectRequest 7) = ⟨0x41727101980, 0, 7⟩ ∧
      (announceRequest 258 7 9 wanted (List.replicate 20 65) 6881).length = 98 ∧
      AnnounceFields.ofBytes (announceRequest 258 7 9 wanted (List.replicate 20 65) 6881) =
        ⟨258, 1, 7, List.replicate 20 0, List.replicate 20 65, 0, 1, 0, 0, 0, 9, -1, 6881⟩ ∧
      ∀ response rest : Buffer, 16 ≤ response.length →
        (announceRequest (connectionIdOf (response ++ rest)) 7 9 wanted (List.replicate 20 65)
          6881).take 8 = (response.drop 8).take 8 :=
  datagrams_bep15 258 7 9 wanted (List.replicate 20 65) 6881 rfl rfl (by decide) (by decide)

end Tracker

end NodeLink
