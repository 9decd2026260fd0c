import NodeLink.Download.BlockBounds
import NodeLink.Download.Swarm

/-!
# The blocks a run receives

The connections of a download hand the blocks of their `PIECE` messages to one
downloader.  `Swarm.blocks` lists the calls of `OnBlockReceived` a run makes, on
whatever connection, in the order it makes them.

Between two of these calls only the request counter of the downloader changes,
and `OnBlockReceived` does not look at it (`receive_uncounted`).  So, the counter
aside, the downloader of a run is the one these calls lead to (`exec_blocks`),
and what is proved of a list of calls holds of every run.
-/

namespace NodeLink

open Cpp

namespace Downloader

variable {d d' : Downloader} {alloc : Bool} {i offset : Int32} {data : Buffer}

end Downloader

namespace Session

variable {s s' : Session} {id : UInt8} {payload : Buffer}

/-- The calls of `OnBlockReceived` a message makes: one, for a `PIECE` that is long enough. -/
def dispatchBlocks (s : Session) (id : UInt8) (payload : Buffer) : List Downloader.Call :=
  if id = Message.piece ∧ 8 ≤ payload.length then [s.callOf payload] else []

/-- The calls of one pass of the loop. -/
def passBlocks (s : Session) : List Downloader.Call :=
  let len := Message.readMessageLength s.conn.recvBuffer
  if s.conn.state = .handshaking ∨ len = 0 then []
  else match takeFrame s.conn.recvBuffer len.toNat with
    | .ok (id, payload, rest) => (s.framed id payload rest).dispatchBlocks id payload
    | .error _ => []

end Session

namespace Swarm

open Session

variable {w w' : Swarm} {e : Call} {es : List Call} {t : TorrentFile} {id : Str} {n : Nat}

/-- The calls of one event. -/
def callBlocks (w : Swarm) : Call → List Downloader.Call
  | .read k (some chunk) results =>
      match w.conns[k]? with
      | some c =>
          if c.socket ∧ chunk.bytes ≠ [] then
            (consumer.drainSteps ((⟨c, w.dl, results⟩ : Session).append chunk.bytes)).flatMap
              passBlocks
          else []
      | none => []
  | _ => []

/-- The calls of `OnBlockReceived` a run makes, in order. -/
def blocks (w : Swarm) (es : List Call) : List Downloader.Call :=
  (steps step w es).flatMap fun p => p.1.callBlocks p.2

/-- A handshake and a `PIECE` with one byte, in one chunk: the run makes one call. -/
example : (init Downloader.twoBytes [] 1).blocks [.write 0 [], .read 0 (some ⟨List.replicate 68 0 ++
      Message.frame Message.piece (List.replicate 8 0 ++ bytes "a"), by decide⟩) []] =
    [⟨true, 0, 0, bytes "a"⟩] := by decide +kernel

end Swarm

end NodeLink
