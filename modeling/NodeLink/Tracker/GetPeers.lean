import NodeLink.Tracker.Agreement
import NodeLink.Tracker.UrlParse

/-!
# Asking a tracker

`getPeers` is `Tracker::GetPeers`: the protocol of the announce URL decides which
way the tracker is asked.

No peer is made up.  Whatever the tracker does, a peer in the list stands for six
bytes next to each other in what was received (`getPeers_received`).
-/

namespace NodeLink

namespace Bnode

variable {data : Buffer} {v : Bnode}

/-- A string is part of the data. -/
def Slice (data : Buffer) : Bnode → Prop
  | .str s => s <:+: data
  | _ => True

theorem decodeString_slice {i j : Nat} (h : decodeString data i = .ok (v, j)) : Slice data v := by
  obtain ⟨len, -, -, -, -, rfl⟩ := decodeString_cases h
  exact (List.take_prefix _ _).isInfix.trans (List.drop_suffix _ _).isInfix

/-- The strings that stand in a decoded dictionary are parts of the data. -/
theorem decode_slice {d : List (Str × Bnode)} (h : decode data = .ok (.dict d)) :
    ∀ e ∈ d, Slice data e.2 := by
  obtain ⟨⟨w, j⟩, hw, hd⟩ := bind_eq_ok h
  cases hd
  have key := (decode_induction (P := fun _ v _ => Slice data v ∧ ∀ d, v = .dict d → ∀ e ∈ d, Slice data e.2)
    (L := fun _ _ v _ => ∃ items, v = .list items)
    (D := fun _ entries v _ => (∀ e ∈ entries, Slice data e.2) →
      ∃ d, v = .dict d ∧ ∀ e ∈ d, Slice data e.2)
    ?int ?str ?list ?dict ?listEnd ?listItem ?dictEnd ?dictEntry (fuelFor data)).1 _ _ _ hw
  case int =>
    intro i v j _ h
    obtain ⟨n, rfl, -⟩ := decodeInt_cases h
    exact ⟨trivial, nofun⟩
  case str =>
    intro i v j _ h
    obtain ⟨len, -, -, -, -, hv⟩ := decodeString_cases h
    refine ⟨decodeString_slice h, fun d hd => ?_⟩
    rw [hv] at hd
    cases hd
  case list =>
    rintro i v j _ ⟨items, rfl⟩
    exact ⟨trivial, nofun⟩
  case dict =>
    intro i v j _ h
    obtain ⟨d, rfl, hd⟩ := h (List.forall_mem_nil _)
    refine ⟨trivial, fun d' hd' => ?_⟩
    cases hd'
    exact hd
  case listEnd => exact fun _ items _ => ⟨items, rfl⟩
  case listItem => exact fun _ _ _ _ _ _ _ _ h => h
  case dictEnd => exact fun _ entries _ h => ⟨entries, rfl, h⟩
  case dictEntry =>
    intro i entries key k w l v j _ _ hw hD hentries
    refine hD fun e he => ?_
    rcases Dict.mem_set he with rfl | he
    · exact hw.1
    · exact hentries e he
  exact key.2 d rfl

end Bnode

namespace Dict

theorem mem_of_find? {α : Type} {d : List (Str × α)} {key : Str} {v : α} (h : find? d key = some v) :
    (key, v) ∈ d := by
  obtain ⟨⟨k, w⟩, he, rfl⟩ := Option.map_eq_some_iff.mp h
  have hk := List.find?_some he
  obtain rfl : k = key := beq_iff_eq.mp hk
  exact List.mem_of_find?_eq_some he

end Dict

namespace Tracker

open Bnode (lift raise)

/-- `GetPeers`, for a transaction id and a key. -/
def getPeers (tcp : TcpNet) (udp : UdpNet) (transactionId key : UInt32) (t : TorrentFile)
    (peerId : Str) (port : Int32) : Except Halt (List Peer) := do
  let url ← lift (Url.parse t.announce)
  if url.protocol = bytes "http" then getPeersHTTP tcp url t peerId port
  else if url.protocol = bytes "udp" then
    return getPeersUDP udp transactionId key url t peerId port
  else raise (.runtimeError ("Unsupported Tracker Protocol: " ++ text url.protocol))

variable {tcp : TcpNet} {udp : UdpNet} {transactionId key : UInt32} {t : TorrentFile} {peerId : Str}
  {port : Int32} {peers : List Peer} {url : Url} {body : Buffer}

/-! ## By HTTP -/

/-- A body that is read gives no peers, or those of the string at `peers` of a dictionary. -/
theorem parseBody_cases (h : parseBody body = .ok peers) :
    peers = [] ∨ ∃ d blob, Bnode.decode body = .ok (.dict d) ∧
      Dict.find? d (bytes "peers") = some (.str blob) ∧ peers = compactPeers blob := by
  simp only [parseBody] at h
  obtain ⟨root, hroot, h⟩ := Bnode.bind_eq_ok h
  split at h
  · cases h
    exact .inl rfl
  obtain ⟨d, hd, h⟩ := Bnode.bind_eq_ok h
  split at h
  · cases h
    exact .inl rfl
  obtain ⟨node, hnode, h⟩ := Bnode.bind_eq_ok h
  split at h
  · cases h
    exact .inl rfl
  obtain ⟨blob, hblob, h⟩ := Bnode.bind_eq_ok h
  cases h
  have hdict := Bnode.getDict_eq_ok (Bnode.lift_eq_ok hd)
  have hstr := Bnode.getString_eq_ok (Bnode.lift_eq_ok hblob)
  subst hdict hstr
  exact .inr ⟨d, blob, hroot, Dict.at_eq_ok (Bnode.lift_eq_ok hnode), httpPeers_eq blob⟩

theorem parseResponse_slice {response : Buffer} (h : parseResponse response = .ok peers)
    (hne : peers ≠ []) : ∃ blob, blob <:+: response ∧ peers = compactPeers blob := by
  simp only [parseResponse] at h
  split at h
  · cases h
    exact absurd rfl hne
  next i hi =>
    split at h
    · cases h
      exact absurd rfl hne
    next hbody =>
      rcases parseBody_cases h with rfl | ⟨d, blob, hd, hf, rfl⟩
      · exact absurd rfl hne
      · have hblob : blob <:+: response.drop (i + 4) :=
          Bnode.decode_slice hd _ (Dict.mem_of_find? hf)
        exact ⟨blob, hblob.trans (List.drop_suffix _ _).isInfix, rfl⟩

/-- Peers from a tracker that was asked by HTTP: all calls have succeeded. -/
theorem responds_of_getPeersHTTP (h : getPeersHTTP tcp url t peerId port = .ok peers) :
    ∃ response, Responds tcp url t peerId port response ∧ parseResponse response = .ok peers := by
  simp only [getPeersHTTP] at h
  obtain ⟨connected, hconnect, h⟩ := Bnode.bind_eq_ok h
  obtain ⟨sent, hsend, h⟩ := Bnode.bind_eq_ok h
  obtain ⟨response, hreceive, h⟩ := Bnode.bind_eq_ok h
  have hconnect := Bnode.lift_eq_ok hconnect
  have hsend := Bnode.lift_eq_ok hsend
  have hreceive := Bnode.lift_eq_ok hreceive
  simp only [TcpNet.connect] at hconnect
  simp only [TcpNet.send] at hsend
  simp only [TcpNet.receive] at hreceive
  split_ifs at hconnect with h1 h2 h3
  split_ifs at hsend with h4
  split at hreceive
  next received hans =>
    cases hreceive
    refine ⟨_, ⟨by simpa using h1, by simpa using h2, by simpa using h3, h4, ?_⟩, h⟩
    rw [hans]
    rfl
  next => cases hreceive

/-! ## By UDP -/

/-- Peers from a tracker that was asked by UDP: they stand in a datagram that arrived. -/
theorem datagram_of_getPeersUDP
    (hne : getPeersUDP udp transactionId key url t peerId port ≠ []) :
    ∃ sent datagram, udp.arrives sent = some datagram ∧
      getPeersUDP udp transactionId key url t peerId port =
        compactPeers ((datagram.take 1024).drop 20) := by
  simp only [getPeersUDP] at hne ⊢
  split at hne
  next result hok =>
    simp only [exchange] at hok
    split_ifs at hok
    simp only [announce] at hok
    split_ifs at hok with h1 h2
    simp only [UdpNet.recvfrom] at hok h2
    split at hok
    next datagram hd =>
      cases hok
      exact ⟨_, datagram, hd, udpPeers_eq _ _⟩
    next hd =>
      rw [hd] at h2
      exact absurd (show (-1 : Int) < 20 by decide) h2
  next => exact absurd rfl hne

/-! ## Either way -/

theorem compactPeers_length (blob : Buffer) : (compactPeers blob).length = blob.length / 6 := by
  rw [compactPeers, List.length_map, List.length_range]

/-- What the network returned in one call. -/
def Received (tcp : TcpNet) (udp : UdpNet) (received : Buffer) : Prop :=
  (∃ request response, tcp.answers request = some response ∧ received = response.take 8192) ∨
    ∃ sent datagram, udp.arrives sent = some datagram ∧ received = datagram.take 1024

theorem Received.length_le {received : Buffer} (h : Received tcp udp received) :
    received.length ≤ 8192 := by
  obtain ⟨-, response, -, rfl⟩ | ⟨-, datagram, -, rfl⟩ := h
  · exact List.length_take_le _ _
  · exact (List.length_take_le _ _).trans (by decide)

/-- Whatever the tracker does, the peers `GetPeers` returns, if there are any, are those of bytes that
stand next to each other in what one call returned, and the URL has one of the two protocols.  There
are at most 1365. -/
theorem getPeers_received (h : getPeers tcp udp transactionId key t peerId port = .ok peers)
    (hne : peers ≠ []) :
    (∃ url, Url.parse t.announce = .ok url ∧
      (url.protocol = bytes "http" ∨ url.protocol = bytes "udp")) ∧
    (∃ received blob, Received tcp udp received ∧ blob <:+: received ∧ peers = compactPeers blob) ∧
      peers.length ≤ 1365 := by
  simp only [getPeers] at h
  obtain ⟨url, hurl, h⟩ := Bnode.bind_eq_ok h
  have hurl := Bnode.lift_eq_ok hurl
  have hbound : (∃ received blob, Received tcp udp received ∧ blob <:+: received ∧
      peers = compactPeers blob) → (∃ received blob, Received tcp udp received ∧
      blob <:+: received ∧ peers = compactPeers blob) ∧ peers.length ≤ 1365 := by
    rintro ⟨received, blob, hr, hb, rfl⟩
    refine ⟨⟨received, blob, hr, hb, rfl⟩, ?_⟩
    have h1 := hb.length_le
    have h2 := hr.length_le
    rw [compactPeers_length]
    omega
  split at h
  next hp =>
    refine ⟨⟨url, hurl, .inl hp⟩, hbound ?_⟩
    obtain ⟨response, hresp, hparse⟩ := responds_of_getPeersHTTP h
    obtain ⟨b, hb, rfl⟩ := Option.map_eq_some_iff.mp hresp.received
    obtain ⟨blob, hblob, rfl⟩ := parseResponse_slice hparse hne
    exact ⟨_, blob, .inl ⟨_, b, hb, rfl⟩, hblob, rfl⟩
  · split at h
    next hp =>
      cases h
      refine ⟨⟨url, hurl, .inr hp⟩, hbound ?_⟩
      obtain ⟨sent, datagram, hd, heq⟩ := datagram_of_getPeersUDP hne
      exact ⟨_, _, .inr ⟨sent, datagram, hd, rfl⟩, (List.drop_suffix _ _).isInfix, heq⟩
    next => cases h

/-- A torrent of the tracker of `someUrl`. -/
def tracked : TorrentFile := { wanted with announce := bytes "http://tracker/announce" }

/-- The peer of the response. -/
theorem getPeers_received_one :
    getPeers (answering httpResponse) (delivering [] []) 7 0 tracked [] 6881 =
        .ok [⟨bytes "127.0.0.1", 6881, []⟩] ∧
      ∃ received blob, Received (answering httpResponse) (delivering [] []) received ∧
        blob <:+: received ∧ [⟨bytes "127.0.0.1", 6881, []⟩] = compactPeers blob := by
  have h : getPeers (answering httpResponse) (delivering [] []) 7 0 tracked [] 6881 =
      .ok [⟨bytes "127.0.0.1", 6881, []⟩] := by decide +kernel
  exact ⟨h, (getPeers_received h (List.cons_ne_nil _ _)).2.1⟩

end Tracker

end NodeLink
