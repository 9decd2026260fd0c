import NodeLink.Parsing.TorrentFile
import NodeLink.Tracker.CompactPeers
import NodeLink.Tracker.Url

/-!
# Asking a tracker by UDP

`getPeersUDP` sends two datagrams and waits for one after each: a connect
request, and an announce request with the connection id from the response.
What the system calls do is a `UdpNet`.  A datagram that arrives may depend on
those sent.  Every exception ends the exchange with an empty list.

The first datagram is checked (`IsConnectResponse`).  `getPeersUDP_of_arrives`
says what the list is: whatever the second one is, its bytes from the twentieth
on are read as peers.
-/

namespace NodeLink

/-! ## UDP -/

/-- What the system calls of an exchange do. -/
structure UdpNet where
  /-- Whether `getaddrinfo` resolves a host and a port. -/
  resolves : Str → Int32 → Bool
  /-- Whether there is a socket. -/
  opens : Bool
  /-- Whether `sendto` succeeds, for the last of the datagrams sent so far. -/
  sends : List Buffer → Bool
  /-- The datagram that arrives after those sent so far, if one does in time. -/
  arrives : List Buffer → Option Buffer

/-- `recvfrom` into a buffer of 1024 bytes: the buffer afterwards, and the length or -1. -/
def UdpNet.recvfrom (net : UdpNet) (sent : List Buffer) (recvBuf : Buffer) : Buffer × Int :=
  match net.arrives sent with
  | some datagram =>
      let received := datagram.take 1024
      (received ++ recvBuf.drop received.length, received.length)
  | none => (recvBuf, -1)

namespace Tracker

/-! ## The datagrams -/

/-- `WriteBE32`. -/
def writeBE32 (b : Buffer) (val : UInt32) : Buffer := b ++ bytesBE32 val

/-- `WriteBE64`. -/
def writeBE64 (b : Buffer) (val : UInt64) : Buffer :=
  writeBE32 (writeBE32 b ((val >>> 32) &&& 0xFFFFFFFF).toUInt32) (val &&& 0xFFFFFFFF).toUInt32

/-- The connect request. -/
def connectRequest (transactionId : UInt32) : Buffer :=
  writeBE32 (writeBE32 (writeBE64 [] 0x41727101980) 0) transactionId

/-- The low byte of an `int`. -/
def lowByte (n : Int32) : UInt8 := (n &&& 0xFF).toUInt32.toUInt8

/-- The announce request. -/
def announceRequest (connectionId : UInt64) (transactionId key : UInt32) (t : TorrentFile)
    (peerId : Str) (port : Int32) : Buffer :=
  let b := writeBE64 [] connectionId
  let b := writeBE32 b 1
  let b := writeBE32 b transactionId
  let b := b ++ t.infoHash
  let b := b ++ peerId
  let b := writeBE64 b 0
  let b := writeBE64 b t.length.toUInt64
  let b := writeBE64 b 0
  let b := writeBE32 b 0
  let b := writeBE32 b 0
  let b := writeBE32 b key
  let b := writeBE32 b (-1)
  b ++ [lowByte (port >>> 8)] ++ [lowByte port]

/-- The connection id of a connect response. -/
def connectionIdOf (recvBuf : Buffer) : UInt64 :=
  (List.range 8).foldl (fun id i => (id <<< 8) ||| (recvBuf.getD (8 + i) 0).toUInt64) 0

/-- One round of the loop over the datagram, which fills in a default `Peer`. -/
def udpPeer (recvBuf : Buffer) (i : Nat) : Peer :=
  let p : Peer := { ip := [], port := 0 }
  let p := { p with
    ip := toStringNat (recvBuf.getD i 0).toNat ++ bytes "." ++
      toStringNat (recvBuf.getD (i + 1) 0).toNat ++ bytes "." ++
      toStringNat (recvBuf.getD (i + 2) 0).toNat ++ bytes "." ++
      toStringNat (recvBuf.getD (i + 3) 0).toNat }
  { p with
    port := (((recvBuf.getD (i + 4) 0).toUInt32 <<< 8) |||
      (recvBuf.getD (i + 5) 0).toUInt32).toUInt16 }

/-- The loop over a compact list. -/
def udpPeers (recvBuf : Buffer) (len : Int) : List Peer := everySix len.toNat (udpPeer recvBuf) 20

/-! ## The exchange -/

/-- Step 2, with the buffer that holds the connect response. -/
def announce (net : UdpNet) (transactionId key : UInt32) (t : TorrentFile) (peerId : Str)
    (port : Int32) (recvBuf : Buffer) : Except Exn (List Peer) :=
  let connectReq := connectRequest transactionId
  let annReq := announceRequest (connectionIdOf recvBuf) transactionId key t peerId port
  if !net.sends [connectReq, annReq] then .error (.runtimeError "Send Announce failed")
  else
    let (recvBuf, len) := net.recvfrom [connectReq, annReq] recvBuf
    if len < 20 then .error (.runtimeError "Announce response too short")
    else .ok (udpPeers recvBuf len)

/-- The part inside the `try`. -/
def exchange (net : UdpNet) (transactionId key : UInt32) (url : Url) (t : TorrentFile)
    (peerId : Str) (port : Int32) : Except Exn (List Peer) :=
  if !net.resolves url.host url.port then .error (.runtimeError "DNS Resolution failed")
  else if !net.opens then .error (.runtimeError "Socket creation failed")
  else
    let connectReq := connectRequest transactionId
    if !net.sends [connectReq] then .error (.runtimeError "Send Connect failed")
    else
      let (recvBuf, len) := net.recvfrom [connectReq] (List.replicate 1024 0)
      if len < 16 then .error (.runtimeError "Connect response too short or timed out")
      else if wordAt recvBuf 0 ≠ 0 ∨ wordAt recvBuf 4 ≠ transactionId then
        .error (.runtimeError "Invalid Connect Response")
      else announce net transactionId key t peerId port recvBuf

/-- `GetPeersUDP`, for a transaction id and a key. -/
def getPeersUDP (net : UdpNet) (transactionId key : UInt32) (url : Url) (t : TorrentFile)
    (peerId : Str) (port : Int32) : List Peer :=
  match exchange net transactionId key url t peerId port with
  | .ok result => result
  | .error _ => []

/-! ## What the list is -/

/-- A connect response to a transaction id. -/
def IsConnectResponse (transactionId : UInt32) (datagram : Buffer) : Prop :=
  16 ≤ datagram.length ∧ wordAt datagram 0 = 0 ∧ wordAt datagram 4 = transactionId

instance (transactionId : UInt32) (datagram : Buffer) :
    Decidable (IsConnectResponse transactionId datagram) :=
  inferInstanceAs (Decidable (_ ∧ _ ∧ _))

/-- The calls succeed, and after the requests the two datagrams arrive. -/
structure Arrives (net : UdpNet) (transactionId key : UInt32) (url : Url) (t : TorrentFile)
    (peerId : Str) (port : Int32) (first second : Buffer) : Prop where
  resolves : net.resolves url.host url.port = true
  opens : net.opens = true
  sent : net.sends [connectRequest transactionId] = true
  connected : net.arrives [connectRequest transactionId] = some first
  sentAnnounce : net.sends [connectRequest transactionId,
    announceRequest (connectionIdOf first) transactionId key t peerId port] = true
  announced : net.arrives [connectRequest transactionId,
    announceRequest (connectionIdOf first) transactionId key t peerId port] = some second
  first_le : first.length ≤ 1024
  second_le : second.length ≤ 1024

variable {net : UdpNet} {transactionId key : UInt32} {url : Url} {t : TorrentFile} {peerId : Str}
  {port : Int32} {first second recvBuf datagram : Buffer} {sent : List Buffer}

theorem recvfrom_eq (h : net.arrives sent = some datagram) (hle : datagram.length ≤ 1024) :
    net.recvfrom sent recvBuf =
      (datagram ++ recvBuf.drop datagram.length, (datagram.length : Int)) := by
  rw [UdpNet.recvfrom, h]
  simp only
  rw [List.take_of_length_le hle]

theorem udpPeer_eq (recvBuf : Buffer) : udpPeer recvBuf = peerAt recvBuf := by
  funext i
  simp only [udpPeer]
  rw [port_eq]
  rfl

/-- The loop reads what the datagram holds behind its first twenty bytes. -/
theorem udpPeers_eq (datagram rest : Buffer) :
    udpPeers (datagram ++ rest) datagram.length = compactPeers (datagram.drop 20) := by
  have hle : datagram.length ≤ (datagram ++ rest).length := by
    rw [List.length_append]
    exact Nat.le_add_right _ _
  rw [udpPeers, Int.toNat_natCast, everySix_of_body (udpPeer_eq _) hle, List.take_left]

/-- The connection id is read inside the datagram. -/
theorem connectionIdOf_append (h : 16 ≤ datagram.length) (rest : Buffer) :
    connectionIdOf (datagram ++ rest) = connectionIdOf datagram := by
  refine List.foldl_ext _ _ _ fun id i hi => ?_
  have hi := List.mem_range.mp hi
  rw [List.getD_append _ _ _ _ (by omega)]

/-- A datagram of less than twenty bytes is an exception, and has no peers. -/
theorem announce_eq (h : Arrives net transactionId key url t peerId port first second)
    (hlen : 16 ≤ first.length) (rest : Buffer) :
    announce net transactionId key t peerId port (first ++ rest) =
      if second.length < 20 then .error (.runtimeError "Announce response too short")
      else .ok (compactPeers (second.drop 20)) := by
  simp only [announce, connectionIdOf_append hlen]
  rw [h.sentAnnounce, recvfrom_eq h.announced h.second_le]
  simp only [Bool.not_true, Bool.false_eq_true, if_false, udpPeers_eq]
  by_cases hshort : second.length < 20
  · rw [if_pos hshort, if_pos (by exact_mod_cast hshort)]
  · rw [if_neg hshort, if_neg (by exact_mod_cast hshort)]

/-- The list is what the second datagram holds, if the first is a connect response. -/
theorem getPeersUDP_of_arrives (h : Arrives net transactionId key url t peerId port first second) :
    getPeersUDP net transactionId key url t peerId port =
      if IsConnectResponse transactionId first then compactPeers (second.drop 20) else [] := by
  have hword {i : Nat} (hi : i + 4 ≤ first.length) :
      wordAt (first ++ (List.replicate 1024 0).drop first.length) i = wordAt first i :=
    wordAt_append_left hi _
  simp only [getPeersUDP, exchange]
  rw [h.resolves, h.opens, h.sent, recvfrom_eq h.connected h.first_le]
  simp only [Bool.not_true, Bool.false_eq_true, if_false]
  by_cases hlen : 16 ≤ first.length
  · rw [if_neg (by omega), hword (by omega), hword (by omega)]
    by_cases hvalid : wordAt first 0 = 0 ∧ wordAt first 4 = transactionId
    · have hresp : IsConnectResponse transactionId first := ⟨hlen, hvalid⟩
      have hno : ¬ (wordAt first 0 ≠ 0 ∨ wordAt first 4 ≠ transactionId) := fun hw =>
        hw.elim (fun h0 => h0 hvalid.1) fun h4 => h4 hvalid.2
      rw [if_neg hno, if_pos hresp, announce_eq h hlen]
      by_cases hshort : second.length < 20
      · rw [if_pos hshort, List.drop_of_length_le (by omega)]
        rfl
      · rw [if_neg hshort]
    · have hresp : ¬ IsConnectResponse transactionId first := fun hr => hvalid hr.2
      rw [if_pos (Decidable.not_and_iff_or_not.mp hvalid), if_neg hresp]
  · have hresp : ¬ IsConnectResponse transactionId first := fun hr => hlen hr.1
    rw [if_pos (by omega), if_neg hresp]

end Tracker

end NodeLink
