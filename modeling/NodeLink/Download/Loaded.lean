import NodeLink.Download.Disk
import NodeLink.Download.Integrity

/-!
# A loaded torrent

The digests `Load` cuts from a file have twenty bytes, and `Sha1::Calculate`
returns forty characters.  So no piece of a torrent that comes from a file passes
its check: no job is made, and nothing is written to the file on the disk
(`loaded_out_empty`).
-/

namespace NodeLink

open Cpp

namespace Downloader

variable {SHA1 : Buffer → Vector UInt8 20} {data : Buffer} {t : TorrentFile}

/-- The torrent is the loaded one, and no job was made. -/
def NoJob (t : TorrentFile) (d : Downloader) : Prop := d.torrent = t ∧ d.fileWriter.q = []

theorem noJob_init (t : TorrentFile) (id : Str) : NoJob t (init t id) := ⟨rfl, rfl⟩

/-- A call that fails makes no job either. -/
theorem dlInvariant_noJob (s : TorrentFile.Source data t SHA1) : DlInvariant (NoJob t) where
  block := by
    intro d d' c h hr
    have ht := (receive_sameFixed hr).1.trans h.1
    refine ⟨ht, ?_⟩
    rcases receive_cases hr with ⟨e, -, -, rfl⟩ | ⟨d1, d2, hok, -, -, -⟩
    · exact h.2
    · rw [receive_q_of_ne hok fun b => h.1 ▸ loaded_hash_ne_calculate s _ b]
      exact h.2
  counter := fun _ h => h

end Downloader

namespace Client

open Downloader

variable {SHA1 : Buffer → Vector UInt8 20} {filepath : String} {data : Buffer} {t : TorrentFile}
  {id : Str} {n : Nat} {opened : Bool} {as : List (Swarm.Call ⊕ WriterThread.Action)}
  {c : Pipeline.State Swarm WriterThread Job}

/-- The client of a torrent that comes from a file: for any number of connections, whatever the peers
send, in every state of every interleaving of the event loop with the thread of the writer, no job
was made, and nothing was written to the file, opened or not. -/
theorem loaded_out_empty (hload : TorrentFile.load SHA1 filepath (some data) = .ok t)
    (h : (client t id n opened).machine.run as = some c) :
    c.maker.dl.fileWriter.q = [] ∧ c.taker.jobs = [] ∧ c.taker.out = .fresh opened := by
  obtain ⟨s⟩ := TorrentFile.load_source hload
  have hq := ((dlInvariant_noJob s).exec (noJob_init t id) (run_swarm h)).2
  obtain ⟨hjobs, hout⟩ := run_jobs h
  rw [hq, List.append_eq_nil_iff] at hjobs
  obtain ⟨hjobs, -⟩ := hjobs
  have hwritten : c.taker.written = [] := (List.append_eq_nil_iff.mp hjobs).1
  rw [hwritten] at hout
  exact ⟨hq, hjobs, hout⟩

/-- The one piece of the torrent of one byte arrives with the handshake. -/
theorem loaded_out_empty_fileOfA :
    ∃ c, (client torrentOfA [] 1 true).machine.run
        [.inl (.write 0 []), .inl (.read 0 (some ⟨_, shakeAndPiece_length_le⟩) [])] = some c ∧
      c.maker.dl.pieceBytesReceived = 1 ∧ c.taker.out = .empty := by
  have hsome : ((client torrentOfA [] 1 true).machine.run
      [.inl (.write 0 []), .inl (.read 0 (some ⟨_, shakeAndPiece_length_le⟩) [])]).map
        (fun c => c.maker.dl.pieceBytesReceived) = some 1 := by decide +kernel
  obtain ⟨c, hrun, hc⟩ := Option.map_eq_some_iff.mp hsome
  exact ⟨c, hrun, hc, (loaded_out_empty load_fileOfA hrun).2.2⟩

end Client

end NodeLink
