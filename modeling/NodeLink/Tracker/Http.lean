import NodeLink.Cpp.Find
import NodeLink.Parsing.RoundTrip
import NodeLink.Parsing.TorrentFile
import NodeLink.Tracker.CompactPeers
import NodeLink.Tracker.Url

/-!
# Asking a tracker by HTTP

`getPeersHTTP` sends one request over TCP and reads one response.  What the
system calls do is a `TcpNet`.  The response may depend on the request.

`parseResponse_of_encode` is about the responses of a tracker that works: a
header, and a dictionary with a compact list.
-/

namespace NodeLink

open Bnode (lift encode)

/-! ## TCP -/

/-- What the system calls behind a `TcpClient` do. -/
structure TcpNet where
  /-- Whether `getaddrinfo` resolves a host and a port. -/
  resolves : Str → Int32 → Bool
  /-- Whether there is a socket. -/
  opens : Bool
  /-- Whether `connect` succeeds. -/
  connects : Bool
  /-- Whether `send` succeeds. -/
  sends : Buffer → Bool
  /-- The bytes that are there for `recv` after a request, if it succeeds. -/
  answers : Buffer → Option Buffer

namespace TcpNet

/-- The constructor of `TcpClient`. -/
def connect (net : TcpNet) (host : Str) (port : Int32) : Except Exn Unit :=
  if !net.resolves host port then .error (.runtimeError ("Could not resolve host: " ++ text host))
  else if !net.opens then .error (.runtimeError "Could not create TCP socket")
  else if !net.connects then .error (.runtimeError ("Could not connect to " ++ text host))
  else .ok ()

/-- `TcpClient::Send`. -/
def send (net : TcpNet) (data : Buffer) : Except Exn Unit :=
  if net.sends data then .ok () else .error (.runtimeError "TCP Send failed")

/-- `TcpClient::Receive`, after `data` was sent. -/
def receive (net : TcpNet) (data : Buffer) (bufferSize : Nat) : Except Exn Buffer :=
  match net.answers data with
  | some received => .ok (received.take bufferSize)
  | none => .error (.runtimeError "TCP Receive failed")

end TcpNet

/-- `IsDict`. -/
def Bnode.isDict : Bnode → Bool
  | .dict _ => true
  | _ => false

namespace Tracker

/-! ## Request and response -/

/-- The request. -/
def httpRequest (url : Url) (t : TorrentFile) (peerId : Str) (port : Int32) : Str :=
  bytes "GET " ++ url.path
    ++ bytes "?info_hash=" ++ urlEncode t.infoHash
    ++ bytes "&peer_id=" ++ peerId
    ++ bytes "&port=" ++ toStringInt port.toInt64
    ++ bytes "&uploaded=0"
    ++ bytes "&downloaded=0"
    ++ bytes "&compact=1"
    ++ bytes "&left=" ++ toStringInt t.length
    ++ bytes " HTTP/1.1\r\n"
    ++ bytes "Host: " ++ url.host ++ bytes "\r\n"
    ++ bytes "User-Agent: BitTorrent/1.0\r\n"
    ++ bytes "Connection: Close\r\n\r\n"

/-- What ends the header. -/
def headerEnd : Str := bytes "\r\n\r\n"

/-- `bin[i]`, a `char`. -/
def charAt (bin : Str) (i : Nat) : Int8 := (bin.getD i 0).toInt8

/-- One round of the loop over the binary string.  Every `char` goes through `uint8_t`. -/
def httpPeer (bin : Str) (i : Nat) : Peer :=
  let p1 := (charAt bin i).toUInt8
  let p2 := (charAt bin (i + 1)).toUInt8
  let p3 := (charAt bin (i + 2)).toUInt8
  let p4 := (charAt bin (i + 3)).toUInt8
  let ip := toStringNat p1.toNat ++ bytes "." ++ toStringNat p2.toNat ++ bytes "." ++
    toStringNat p3.toNat ++ bytes "." ++ toStringNat p4.toNat
  let port := (((charAt bin (i + 4)).toUInt8.toUInt32 <<< 8) |||
    (charAt bin (i + 5)).toUInt8.toUInt32).toUInt16
  { ip := ip, port := port }

/-- The loop over a compact list. -/
def httpPeers (bin : Str) : List Peer := everySix bin.length (httpPeer bin) 0

/-- The part inside the `try`. -/
def parseBody (body : Str) : Except Halt (List Peer) := do
  let root ← Bnode.decode body
  if !root.isDict then return []
  else
    let dict ← lift root.getDict
    if Dict.count dict (bytes "peers") = 0 then return []
    else
      let peersNode ← lift (Dict.at_ dict (bytes "peers"))
      if !peersNode.isString then return []
      else
        let bin ← lift peersNode.toStr
        return httpPeers bin

/-- Step 3 and 4: from the response to the list. -/
def parseResponse (response : Buffer) : Except Halt (List Peer) :=
  match Cpp.find headerEnd response with
  | none => .ok []
  | some i =>
      match parseBody (response.drop (i + 4)) with
      | .error (.exn _) => .ok []
      | r => r

/-- `GetPeersHTTP`. -/
def getPeersHTTP (net : TcpNet) (url : Url) (t : TorrentFile) (peerId : Str) (port : Int32) :
    Except Halt (List Peer) := do
  lift (net.connect url.host url.port)
  let req := httpRequest url t peerId port
  lift (net.send req)
  let response ← lift (net.receive req 8192)
  parseResponse response

/-- The calls succeed, and after the request a response is received. -/
structure Responds (net : TcpNet) (url : Url) (t : TorrentFile) (peerId : Str) (port : Int32)
    (response : Buffer) : Prop where
  resolves : net.resolves url.host url.port = true
  opens : net.opens = true
  connects : net.connects = true
  sends : net.sends (httpRequest url t peerId port) = true
  received : (net.answers (httpRequest url t peerId port)).map (·.take 8192) = some response

/-! ## A response with a compact list -/

variable {blob rest header response : Buffer} {dict : List (Str × Bnode)} {net : TcpNet} {url : Url}
  {t : TorrentFile} {peerId : Str} {port : Int32}

theorem Responds.length_le (h : Responds net url t peerId port response) :
    response.length ≤ 8192 := by
  obtain ⟨b, -, rfl⟩ := Option.map_eq_some_iff.mp h.received
  exact List.length_take_le 8192 b

theorem getPeersHTTP_of_responds (h : Responds net url t peerId port response) :
    getPeersHTTP net url t peerId port = parseResponse response := by
  obtain ⟨b, hb, rfl⟩ := Option.map_eq_some_iff.mp h.received
  have hconnect : net.connect url.host url.port = .ok () := by
    rw [TcpNet.connect, h.resolves, h.opens, h.connects]
    rfl
  have hsend : net.send (httpRequest url t peerId port) = .ok () := by
    rw [TcpNet.send, h.sends]
    rfl
  have hreceive : net.receive (httpRequest url t peerId port) 8192 = .ok (b.take 8192) := by
    rw [TcpNet.receive, hb]
  rw [getPeersHTTP, hconnect]
  simp only [hsend, hreceive]
  rfl

theorem charAt_toUInt8 (bin : Str) (i : Nat) : (charAt bin i).toUInt8 = bin.getD i 0 :=
  UInt8.toUInt8_toInt8 _

theorem httpPeer_eq (bin : Str) : httpPeer bin = peerAt bin := by
  funext i
  simp only [httpPeer, charAt_toUInt8]
  rw [port_eq]
  rfl

theorem httpPeers_eq (bin : Str) : httpPeers bin = compactPeers bin := by
  rw [httpPeers, everySix_of_body (httpPeer_eq bin) (Nat.le_refl _), List.take_length,
    List.drop_zero]

/-- A dictionary at the front of the body is decoded, whatever stands behind it. -/
theorem decode_encode_append {v : Bnode} (hw : v.WellFormed) (rest : Buffer)
    (hlen : (encode v).length < 2 ^ 63) : Bnode.decode (encode v ++ rest) = .ok v := by
  have hat : StandsAt (encode v ++ rest) 0 (encode v) := List.prefix_append _ _
  have hfuel : 2 * (encode v).length ≤ Bnode.fuelFor (encode v ++ rest) := by
    rw [Bnode.fuelFor, List.length_append]
    omega
  rw [Bnode.decode, Bnode.decodeElement_encode v hw hlen (by omega) hfuel hat]
  rfl

/-- The body with a compact list. -/
theorem parseBody_of_encode (hw : (Bnode.dict dict).WellFormed)
    (hpeers : Dict.find? dict (bytes "peers") = some (.str blob))
    (hlen : (encode (.dict dict)).length < 2 ^ 63) :
    parseBody (encode (.dict dict) ++ rest) = .ok (compactPeers blob) := by
  have hcount : Dict.count dict (bytes "peers") = 1 := by
    rw [Dict.count, hpeers]
    rfl
  have hat : Dict.at_ dict (bytes "peers") = .ok (.str blob) := by rw [Dict.at_, hpeers]
  have htail : (do
      let peersNode ← lift (Dict.at_ dict (bytes "peers"))
      if !peersNode.isString then return []
      else
        let bin ← lift peersNode.toStr
        return httpPeers bin : Except Halt (List Peer)) = .ok (httpPeers blob) := by
    rw [hat]
    rfl
  rw [parseBody, decode_encode_append hw rest hlen, ← httpPeers_eq, ← htail]
  change (if Dict.count dict (bytes "peers") = 0 then _ else _) = _
  rw [hcount, if_neg Nat.one_ne_zero]

/-- The response with a compact list, behind a header in which nothing ends it. -/
theorem parseResponse_of_encode
    (hresponse : response = header ++ headerEnd ++ (encode (.dict dict) ++ rest))
    (hfirst : ∀ j < header.length, ¬ headerEnd <+: response.drop j)
    (hw : (Bnode.dict dict).WellFormed)
    (hpeers : Dict.find? dict (bytes "peers") = some (.str blob))
    (hlen : response.length < 2 ^ 63) : parseResponse response = .ok (compactPeers blob) := by
  have hend : headerEnd.length = 4 := rfl
  have hfind : Cpp.find headerEnd response = some header.length := by
    refine Cpp.find_eq_some_iff.mpr ⟨?_, ?_, hfirst⟩
    · rw [hresponse, List.append_assoc, List.length_append]
      exact Nat.le_add_right _ _
    · rw [hresponse, List.append_assoc, List.drop_left]
      exact List.prefix_append _ _
  have hbody : response.drop (header.length + 4) = encode (.dict dict) ++ rest := by
    rw [hresponse, ← hend, ← List.length_append, List.drop_left]
  have hshort : (encode (.dict dict)).length < 2 ^ 63 := by
    rw [hresponse, List.length_append, List.length_append, List.length_append] at hlen
    omega
  rw [parseResponse, hfind]
  simp only
  rw [hbody, parseBody_of_encode hw hpeers hshort]

end Tracker

end NodeLink
