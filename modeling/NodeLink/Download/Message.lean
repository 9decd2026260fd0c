import NodeLink.Parsing.TorrentFile

/-!
# Peer messages

The builders of `Message`, and its readers of the length prefix and the id.
After the handshake every message is a `frame`: the length of what follows as a
big-endian word, the id, the payload.  `frame` is how the protocol is stated
here.  The builders are written as in the source, and each is proved to be a
frame.
-/

namespace NodeLink

/-- Appends a 32-bit big-endian integer to the buffer. -/
def pushInt32 (b : Buffer) (val : UInt32) : Buffer := b ++ bytesBE32 val

namespace Message

/-! ## Message ids -/

def choke : UInt8 := 0
def unchoke : UInt8 := 1
def interested : UInt8 := 2
def bitfield : UInt8 := 5
def request : UInt8 := 6
def piece : UInt8 := 7

/-! ## Builders -/

def buildHandshake (t : TorrentFile) (peerId : Str) : Buffer :=
  [19] ++ bytes "BitTorrent protocol" ++ List.replicate 8 0 ++ t.infoHash ++ peerId

def buildKeepAlive : Buffer := [0, 0, 0, 0]

def buildChoke : Buffer := pushInt32 [] 1 ++ [choke]

def buildUnchoke : Buffer := pushInt32 [] 1 ++ [unchoke]

def buildInterested : Buffer := pushInt32 [] 1 ++ [interested]

def buildRequest (index begin_ length : UInt32) : Buffer :=
  pushInt32 (pushInt32 (pushInt32 (pushInt32 [] 13 ++ [request]) index) begin_) length

/-! ## Parsers -/

/-- Reads the length prefix. -/
def readMessageLength (b : Buffer) : UInt32 := if b.length < 4 then 0 else wordAt b 0

/-- Reads the id. -/
def readMessageID (b : Buffer) : UInt8 := if b.length < 5 then 0 else b.getD 4 0

/-! ## Frames -/

/-- A message on the wire. -/
def frame (id : UInt8) (payload : Buffer) : Buffer :=
  bytesBE32 (UInt32.ofNat (payload.length + 1)) ++ id :: payload

/-- The payload of a `REQUEST`. -/
def requestPayload (index begin_ length : UInt32) : Buffer :=
  bytesBE32 index ++ bytesBE32 begin_ ++ bytesBE32 length

/-- The payload of a `PIECE`. -/
def piecePayload (index begin_ : UInt32) (data : Buffer) : Buffer :=
  bytesBE32 index ++ bytesBE32 begin_ ++ data

@[simp] theorem frame_length (id : UInt8) (payload : Buffer) :
    (frame id payload).length = payload.length + 5 := by
  simp [frame]
  omega

@[simp] theorem requestPayload_length (i b l : UInt32) : (requestPayload i b l).length = 12 := rfl

@[simp] theorem piecePayload_length (i b : UInt32) (data : Buffer) :
    (piecePayload i b data).length = data.length + 8 := by
  simp [piecePayload]
  omega

theorem buildChoke_eq : buildChoke = frame choke [] := rfl

theorem buildUnchoke_eq : buildUnchoke = frame unchoke [] := rfl

theorem buildInterested_eq : buildInterested = frame interested [] := rfl

theorem buildRequest_eq (i b l : UInt32) :
    buildRequest i b l = frame request (requestPayload i b l) := by
  simp [buildRequest, frame, requestPayload, pushInt32]

/-- The handshake takes 68 bytes. -/
theorem buildHandshake_length {t : TorrentFile} {peerId : Str} (ht : t.infoHash.length = 20)
    (hp : peerId.length = 20) : (buildHandshake t peerId).length = 68 := by
  have h : (bytes "BitTorrent protocol").length = 19 := by decide
  simp [buildHandshake, ht, hp, h]

/-- The prefix of a frame is read back, whatever comes behind it. -/
theorem readMessageLength_frame {id : UInt8} {payload : Buffer} (h : payload.length + 1 < 2 ^ 32)
    (rest : Buffer) : (readMessageLength (frame id payload ++ rest)).toNat = payload.length + 1 := by
  have hlen : ¬ (frame id payload ++ rest).length < 4 := by
    rw [List.length_append, frame_length]
    omega
  have hw := wordAt_append [] (id :: payload ++ rest) (UInt32.ofNat (payload.length + 1))
  rw [List.nil_append, ← List.append_assoc] at hw
  rw [readMessageLength, if_neg hlen, frame]
  erw [hw]
  exact UInt32.toNat_ofNat_of_lt h

/-- The prefix does not depend on what comes behind it. -/
theorem readMessageLength_append {b : Buffer} (h : 4 ≤ b.length) (c : Buffer) :
    readMessageLength (b ++ c) = readMessageLength b := by
  have hlen : ¬ (b ++ c).length < 4 := by
    rw [List.length_append]
    omega
  rw [readMessageLength, readMessageLength, if_neg hlen, if_neg (by omega),
    wordAt_append_left (by omega)]

/-- A keep-alive announces nothing. -/
theorem readMessageLength_keepAlive (rest : Buffer) :
    readMessageLength (buildKeepAlive ++ rest) = 0 := by
  rw [readMessageLength_append (b := buildKeepAlive) (Nat.le_refl 4)]
  rfl

/-- Index and begin of a `PIECE` are read back. -/
theorem readBE32_piecePayload (index begin_ : UInt32) (data : Buffer) :
    BufferUtils.readBE32 (piecePayload index begin_ data) 0 = .ok index ∧
      BufferUtils.readBE32 (piecePayload index begin_ data) 4 = .ok begin_ ∧
      (piecePayload index begin_ data).drop 8 = data := by
  refine ⟨?_, ?_, rfl⟩
  · rw [piecePayload, List.append_assoc]
    exact readBE32_writeBE32 [] _ index
  · exact readBE32_writeBE32 (bytesBE32 index) data begin_

end Message

/-- The three words of a `REQUEST`. -/
theorem wordAt_buildRequest (index begin_ length : UInt32) :
    wordAt (Message.buildRequest index begin_ length) 5 = index ∧
      wordAt (Message.buildRequest index begin_ length) 9 = begin_ ∧
      wordAt (Message.buildRequest index begin_ length) 13 = length := by
  have hreq : Message.buildRequest index begin_ length = (bytesBE32 13 ++ [Message.request]) ++
      (bytesBE32 index ++ (bytesBE32 begin_ ++ (bytesBE32 length ++ []))) := by
    simp [Message.buildRequest, pushInt32]
  rw [hreq]
  refine ⟨wordAt_append _ _ index, ?_, ?_⟩
  · rw [← List.append_assoc]
    exact wordAt_append (bytesBE32 13 ++ [Message.request] ++ bytesBE32 index) _ begin_
  · rw [← List.append_assoc, ← List.append_assoc]
    exact wordAt_append (bytesBE32 13 ++ [Message.request] ++ bytesBE32 index ++ bytesBE32 begin_)
      _ length

end NodeLink
