import NodeLink.Tracker.Http
import NodeLink.Tracker.Udp

/-!
# One list by two ways

A tracker that is asked by HTTP sends the compact list inside a dictionary behind
a header, and one that is asked by UDP sends it behind twenty bytes.
`getPeers_agree` says that the client gets the same list from both.
-/

namespace NodeLink

namespace Tracker

variable {tcp : TcpNet} {udp : UdpNet} {url url' : Url} {t : TorrentFile} {peerId : Str}
  {port : Int32} {transactionId key : UInt32} {header rest head first blob response : Buffer}
  {dict : List (Str × Bnode)}

/-- The two loops, which are written differently, read the same peers. -/
theorem udpPeer_eq_httpPeer (b : Buffer) : udpPeer b = httpPeer b :=
  (udpPeer_eq b).trans (httpPeer_eq b).symm

/-- Both ways return the peers of the compact list, and the list determines its bytes. -/
theorem getPeers_agree
    (hhttp : Responds tcp url t peerId port response)
    (hresponse : response = header ++ headerEnd ++ (Bnode.encode (.dict dict) ++ rest))
    (hfirst : ∀ j < header.length, ¬ headerEnd <+: response.drop j)
    (hdict : (Bnode.dict dict).WellFormed)
    (hpeers : Dict.find? dict (bytes "peers") = some (.str blob))
    (hudp : Arrives udp transactionId key url' t peerId port first (head ++ blob))
    (hconnect : IsConnectResponse transactionId first) (hhead : head.length = 20) :
    getPeersHTTP tcp url t peerId port = .ok (compactPeers blob) ∧
    getPeersUDP udp transactionId key url' t peerId port = compactPeers blob ∧
    ∀ blob', compactPeers blob' = compactPeers blob →
      blob'.take (6 * (blob'.length / 6)) = blob.take (6 * (blob.length / 6)) := by
  refine ⟨?_, ?_, fun blob' => take_eq_of_compactPeers_eq⟩
  · have hlen : response.length < 2 ^ 63 :=
      Nat.lt_of_le_of_lt hhttp.length_le (by decide)
    rw [getPeersHTTP_of_responds hhttp]
    exact parseResponse_of_encode hresponse hfirst hdict hpeers hlen
  · rw [getPeersUDP_of_arrives hudp, if_pos hconnect, ← hhead, List.drop_left]

/-! ### One peer -/

/-- The six bytes of a peer, and one that is left over. -/
def onePeer : Buffer := [127, 0, 0, 1, 26, 225, 9]

/-- A torrent to ask for. -/
def wanted : TorrentFile where
  announce := []
  name := bytes "a"
  length := 1
  pieceLength := 1
  pieceHashes := []
  infoHash := List.replicate 20 0

/-- A tracker. -/
def someUrl : Url := ⟨bytes "http", bytes "tracker", 80, bytes "/announce"⟩

/-- The dictionary of a response. -/
def peersDict : List (Str × Bnode) := [(bytes "peers", .str onePeer)]

/-- A header, the dictionary, and a line break behind it. -/
def httpResponse : Buffer :=
  bytes "HTTP/1.1 200 OK" ++ headerEnd ++ (Bnode.encode (.dict peersDict) ++ bytes "\n")

/-- A network on which a request is answered with a response. -/
def answering (response : Buffer) : TcpNet where
  resolves _ _ := true
  opens := true
  connects := true
  sends _ := true
  answers _ := some response

/-- A network on which one datagram arrives after the first request, and another after the second. -/
def delivering (first second : Buffer) : UdpNet where
  resolves _ _ := true
  opens := true
  sends _ := true
  arrives sent := if sent.length = 1 then some first else some second

theorem arrives_delivering {second : Buffer} (h1 : first.length ≤ 1024) (h2 : second.length ≤ 1024) :
    Arrives (delivering first second) transactionId key url t peerId port first second :=
  ⟨rfl, rfl, rfl, rfl, rfl, rfl, h1, h2⟩

/-- A connect response to the transaction id 7. -/
def connectResponse : Buffer := bytesBE32 0 ++ bytesBE32 7 ++ List.replicate 8 1

theorem responds_httpResponse :
    Responds (answering httpResponse) someUrl wanted [] 6881 httpResponse :=
  ⟨rfl, rfl, rfl, rfl, by decide +kernel⟩

theorem wellFormed_peersDict : (Bnode.dict peersDict).WellFormed :=
  ⟨List.pairwise_singleton _ _, trivial, trivial⟩

/-- The peer, by both ways. -/
theorem getPeers_agree_one :
    ∃ peers, getPeersHTTP (answering httpResponse) someUrl wanted [] 6881 = .ok peers ∧
      getPeersUDP (delivering connectResponse (List.replicate 20 0 ++ onePeer)) 7 0 someUrl wanted []
        6881 = peers ∧
      peers = [⟨bytes "127.0.0.1", 6881, []⟩] := by
  have hconnect : IsConnectResponse 7 connectResponse := by decide
  have hudp : Arrives (delivering connectResponse (List.replicate 20 0 ++ onePeer)) 7 0 someUrl wanted
      [] 6881 connectResponse (List.replicate 20 0 ++ onePeer) :=
    arrives_delivering (by decide) (by decide)
  obtain ⟨hhttp, hboth, -⟩ := getPeers_agree responds_httpResponse rfl (by decide +kernel)
    wellFormed_peersDict rfl hudp hconnect rfl
  exact ⟨_, hhttp, hboth, by decide +kernel⟩

end Tracker

end NodeLink
