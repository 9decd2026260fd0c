import NodeLink.Tracker.Agreement

/-!
# Which datagrams count

The connect response is checked, the announce response is not: an error, or a
datagram that belongs to another exchange, is read as a list of peers like any
other.  `validates_iff` says for which pairs of datagrams that does not matter.
-/

namespace NodeLink

namespace Tracker

variable {net : UdpNet} {transactionId key : UInt32} {url : Url} {t : TorrentFile} {peerId : Str}
  {port : Int32} {first second blob : Buffer}

/-- An announce response to a transaction id. -/
def IsAnnounceResponse (transactionId : UInt32) (datagram : Buffer) : Prop :=
  20 ≤ datagram.length ∧ wordAt datagram 0 = 1 ∧ wordAt datagram 4 = transactionId

/-- There are peers in the list only if both datagrams are the responses to the requests. -/
def Validates (net : UdpNet) (transactionId key : UInt32) (url : Url) (t : TorrentFile)
    (peerId : Str) (port : Int32) (first second : Buffer) : Prop :=
  getPeersUDP net transactionId key url t peerId port ≠ [] →
    IsConnectResponse transactionId first ∧ IsAnnounceResponse transactionId second

theorem compactPeers_eq_nil_iff : compactPeers blob = [] ↔ blob.length < 6 := by
  rw [compactPeers, List.map_eq_nil_iff, List.range_eq_nil]
  omega

/-- There are peers in the list if the first datagram is a connect response and the second one is
long enough. -/
theorem getPeersUDP_ne_nil_iff (h : Arrives net transactionId key url t peerId port first second) :
    getPeersUDP net transactionId key url t peerId port ≠ [] ↔
      IsConnectResponse transactionId first ∧ 26 ≤ second.length := by
  rw [getPeersUDP_of_arrives h]
  split
  next hfirst =>
    rw [ne_eq, compactPeers_eq_nil_iff, List.length_drop]
    constructor
    · intro hlen
      exact ⟨hfirst, by omega⟩
    · rintro ⟨-, hlen⟩
      omega
  next hfirst => exact ⟨fun hne => absurd rfl hne, fun hc => absurd hc.1 hfirst⟩

/-- The datagrams are checked as far as it matters exactly if the exchange ends at the first one, or
the second one has no room for a peer, or it is an announce response. -/
theorem validates_iff (h : Arrives net transactionId key url t peerId port first second) :
    Validates net transactionId key url t peerId port first second ↔
      ¬IsConnectResponse transactionId first ∨ second.length < 26 ∨
        (wordAt second 0 = 1 ∧ wordAt second 4 = transactionId) := by
  rw [Validates, getPeersUDP_ne_nil_iff h]
  constructor
  · intro hvalid
    by_cases hfirst : IsConnectResponse transactionId first
    · refine .inr ?_
      rcases Nat.lt_or_ge second.length 26 with hshort | hlong
      · exact .inl hshort
      · exact .inr (hvalid ⟨hfirst, hlong⟩).2.2
    · exact .inl hfirst
  · rintro hcase ⟨hfirst, hlong⟩
    rcases hcase with hno | hshort | hsecond
    · exact absurd hfirst hno
    · exact absurd hlong (Nat.not_le.mpr hshort)
    · exact ⟨hfirst, Nat.le_trans (by decide) hlong, hsecond⟩

/-- An announce response to the transaction id 7, with one peer. -/
def announceResponse : Buffer := bytesBE32 1 ++ bytesBE32 7 ++ List.replicate 12 0 ++ onePeer

/-- The law for the responses of a tracker that works. -/
theorem validates_iff_response :
    Validates (delivering connectResponse announceResponse) 7 0 someUrl wanted [] 6881
      connectResponse announceResponse ↔
        ¬IsConnectResponse 7 connectResponse ∨ announceResponse.length < 26 ∨
          (wordAt announceResponse 0 = 1 ∧ wordAt announceResponse 4 = 7) :=
  validates_iff (arrives_delivering (by decide) (by decide))

/-- An error response to the transaction id 7. -/
def errorResponse : Buffer := bytesBE32 3 ++ bytesBE32 7 ++ bytes "torrent not registered"

/-- The text of an error is read as a peer. -/
theorem not_validates_error :
    Arrives (delivering connectResponse errorResponse) 7 0 someUrl wanted [] 6881 connectResponse
      errorResponse ∧
    getPeersUDP (delivering connectResponse errorResponse) 7 0 someUrl wanted [] 6881 =
      [⟨bytes "114.101.103.105", 29556, []⟩] ∧
    ¬Validates (delivering connectResponse errorResponse) 7 0 someUrl wanted [] 6881 connectResponse
      errorResponse := by
  have harrives : Arrives (delivering connectResponse errorResponse) 7 0 someUrl wanted [] 6881
      connectResponse errorResponse := arrives_delivering (by decide) (by decide)
  have hconnect : IsConnectResponse 7 connectResponse := by decide
  refine ⟨harrives, ?_, fun hvalid => ?_⟩
  · rw [getPeersUDP_of_arrives harrives, if_pos hconnect]
    decide +kernel
  · have hpeers := (getPeersUDP_ne_nil_iff harrives).mpr ⟨hconnect, by decide⟩
    exact absurd (hvalid hpeers).2.2.1 (by decide)

end Tracker

end NodeLink
