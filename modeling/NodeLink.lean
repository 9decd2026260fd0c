import NodeLink.Cpp.Int
import NodeLink.Cpp.Outcome
import NodeLink.Cpp.Find
import NodeLink.Lib.Fips180
import NodeLink.Parsing.Buffer
import NodeLink.Parsing.Sha1
import NodeLink.Parsing.Sha1Spec
import NodeLink.Parsing.Bnode
import NodeLink.Parsing.Numbers
import NodeLink.Parsing.Decoding
import NodeLink.Parsing.RoundTrip
import NodeLink.Parsing.Strict
import NodeLink.Parsing.SelfDelimiting
import NodeLink.Parsing.Grammar
import NodeLink.Parsing.TorrentFile
import NodeLink.Parsing.InfoHash
import NodeLink.Lib.Splice
import NodeLink.Lib.Coverage
import NodeLink.Download.Worker
import NodeLink.Download.Downloader
import NodeLink.Download.Integrity
import NodeLink.Download.FailedCalls
import NodeLink.Download.Completeness
import NodeLink.Lib.Tiling
import NodeLink.Download.Geometry
import NodeLink.Download.OutOfOrder
import NodeLink.Download.Accounting
import NodeLink.Download.BlockBounds
import NodeLink.Download.VerifiedWrites
import NodeLink.Lib.Stream
import NodeLink.Download.Message
import NodeLink.Download.Connection
import NodeLink.Download.ProcessBuffer
import NodeLink.Download.FrameBounds
import NodeLink.Download.Handlers
import NodeLink.Download.Swarm
import NodeLink.Download.Chunking
import NodeLink.Download.Bitfield
import NodeLink.Download.Blocks
import NodeLink.Download.Handout
import NodeLink.Download.Candidates
import NodeLink.Download.Requests
import NodeLink.Download.Farm
import NodeLink.Download.Handshake
import NodeLink.Download.Assembly
import NodeLink.Download.Interleaving
import NodeLink.Download.Dialogue
import NodeLink.Download.Selection
import NodeLink.Download.PieceRequests
import NodeLink.Download.ReceivedBits
import NodeLink.Download.Peer
import NodeLink.Download.WireFormat
import NodeLink.Download.Transfer
import NodeLink.Download.Completion
import NodeLink.Download.LoadGeometry
import NodeLink.Lib.Machine
import NodeLink.Download.WriterThread
import NodeLink.Tracker.CompactPeers
import NodeLink.Tracker.Url
import NodeLink.Tracker.Http
import NodeLink.Tracker.Udp
import NodeLink.Tracker.Agreement
import NodeLink.Tracker.Validation
import NodeLink.Lib.Layout
import NodeLink.Tracker.Datagrams
import NodeLink.Lib.Percent
import NodeLink.Tracker.UrlEncode
import NodeLink.Tracker.UrlParse
import NodeLink.Tracker.PortText
import NodeLink.Lib.HttpText
import NodeLink.Tracker.HttpRequest
import NodeLink.Tracker.Transport
import NodeLink.Download.ShortSends
import NodeLink.Download.FarmLoop
import NodeLink.Parsing.Accesses
import NodeLink.Lib.Slots
import NodeLink.Lib.Pipeline
import NodeLink.Download.Shared
import NodeLink.Download.Received
import NodeLink.Download.Arrivals
import NodeLink.Download.Fate
import NodeLink.Download.Disk
import NodeLink.Download.Joining
import NodeLink.Download.Seeded
import NodeLink.Tracker.Truncation
import NodeLink.Tracker.GetPeers
import NodeLink.Download.Start
import NodeLink.Download.Loaded
import NodeLink.Program
import NodeLink.Lib.Framing
import NodeLink.Download.WireUnits
import NodeLink.Parsing.Spellings
import NodeLink.Download.Loss
import NodeLink.Parsing.Normal
import NodeLink.Download.Safety
import NodeLink.Lib.Interpreter
import NodeLink.Download.Meaning
import NodeLink.Download.Tally
import NodeLink.Download.Draws
import NodeLink.Download.Shares
import NodeLink.Download.Sharing
