import NodeLink.Download.Loaded
import NodeLink.Download.Start
import NodeLink.Tracker.GetPeers

/-!
# The program

`main` loads the torrent of its first argument, asks the tracker for peers, and
starts the download.  Every exception is caught and gives the exit status one.

The status zero says little: it means that `Start` has returned, and `Start` does
not return because the download is complete (`main_exited_zero_iff`).  While the
program waits for events, no job was made for the disk (`main_downloading`).
-/

namespace NodeLink

namespace Program

/-- What the program meets. -/
structure World where
  /-- The contents of the file at a path, if it can be opened. -/
  files : String → Option Buffer
  /-- OpenSSL's `SHA1`. -/
  SHA1 : Buffer → Vector UInt8 20
  tcp : TcpNet
  udp : UdpNet
  /-- The numbers `GetPeersUDP` draws. -/
  transactionId : UInt32
  key : UInt32
  download : Downloader.Surroundings

/-- How far the process has come. -/
inductive End where
  | exited (code : Int32)
  /-- It is in `epoll_wait`. -/
  | downloading (w : Swarm)
  /-- A handler has run into undefined behaviour. -/
  | faulted
  /-- The fuel of the parser ran out. -/
  | fuel

/-- The peer id. -/
def myId : Str := bytes "-CPP-CLIENT-0001-XYZ"

/-- The part inside the `try`, up to the download. -/
def prepare (world : World) (path : String) : Except Halt (TorrentFile × List Peer) := do
  let torrent ← TorrentFile.load world.SHA1 path (world.files path)
  let peers ← Tracker.getPeers world.tcp world.udp world.transactionId world.key torrent myId 6881
  return (torrent, peers)

/-- `main`, with the arguments as a list, the name of the program first. -/
def main (args : List String) (world : World) : End :=
  match args with
  | _ :: path :: _ =>
      match prepare world path with
      | .error (.exn _) => .exited 1
      | .error .fuel => .fuel
      | .ok (torrent, peers) =>
          if peers = [] then .exited 1
          else
            match Downloader.start torrent myId peers world.download with
            | .threw _ => .exited 1
            | .returned _ => .exited 0
            | .waiting w => .downloading w
            | .faulted => .faulted
  | _ => .exited 1

variable {args : List String} {world : World} {path : String} {t : TorrentFile} {peers : List Peer}

theorem prepare_ok_iff : prepare world path = .ok (t, peers) ↔
    TorrentFile.load world.SHA1 path (world.files path) = .ok t ∧
      Tracker.getPeers world.tcp world.udp world.transactionId world.key t myId 6881 =
        .ok peers := by
  constructor
  · intro h
    simp only [prepare] at h
    obtain ⟨torrent, ht, h⟩ := Bnode.bind_eq_ok h
    obtain ⟨ps, hps, h⟩ := Bnode.bind_eq_ok h
    cases h
    exact ⟨ht, hps⟩
  · rintro ⟨ht, hps⟩
    rw [prepare, ht]
    exact congrArg (· >>= fun ps => .ok (t, ps)) hps

/-- The process exits with zero if the torrent is loaded, the tracker gives a peer, there is an epoll
instance, and the length of the torrent is not positive, or no connection is added, or `epoll_wait`
fails.  In no run does it exit with zero because the download is complete. -/
theorem main_exited_zero_iff : main args world = .exited 0 ↔
    ∃ name path rest t peers, args = name :: path :: rest ∧
      TorrentFile.load world.SHA1 path (world.files path) = .ok t ∧
      Tracker.getPeers world.tcp world.udp world.transactionId world.key t myId 6881 = .ok peers ∧
      peers ≠ [] ∧ world.download.epoll = true ∧
      (t.length.toInt ≤ 0 ∨ (∀ a ∈ world.download.attempts peers, ¬ a.Adds) ∨
        Farm.Fails (Farm.added t myId (world.download.attempts peers)) world.download.waits) := by
  have hcodes : End.exited 1 ≠ .exited 0 := by
    intro h
    cases h
  constructor
  · intro h
    match args with
    | [] | [_] => exact absurd h hcodes
    | name :: path :: rest =>
        simp only [main] at h
        split at h
        next => exact absurd h hcodes
        next => cases h
        next t peers hprep =>
          split at h
          next => exact absurd h hcodes
          next hne =>
            split at h
            next => exact absurd h hcodes
            next w hw =>
              obtain ⟨hload, hpeers⟩ := prepare_ok_iff.mp hprep
              have hstart := Downloader.start_returned_iff.mp ⟨w, hw⟩
              exact ⟨name, path, rest, t, peers, rfl, hload, hpeers, hne, hstart⟩
            next => cases h
            next => cases h
  · rintro ⟨name, path, rest, t, peers, rfl, hload, hpeers, hne, hstart⟩
    obtain ⟨w, hw⟩ := Downloader.start_returned_iff.mpr hstart
    simp only [main, prepare_ok_iff.mpr ⟨hload, hpeers⟩, if_neg hne, hw]

/-! ## The parser comes to an end -/

theorem lift_bind_ne_fuel {α β : Type} {x : Except Exn α} {f : α → Except Halt β}
    (h : ∀ a, f a ≠ .error .fuel) : (Bnode.lift x >>= f) ≠ .error .fuel := by
  intro hf
  rcases Bnode.bind_eq_fuel hf with hx | ⟨a, -, ha⟩
  · exact Bnode.lift_ne_fuel x hx
  · exact h a ha

theorem load_ne_fuel {SHA1 : Buffer → Vector UInt8 20} {data : Buffer}
    (hdata : data.length < 2 ^ 63) : TorrentFile.load SHA1 path (some data) ≠ .error .fuel := by
  intro h
  simp only [TorrentFile.load] at h
  rcases Bnode.bind_eq_fuel h with h | ⟨root, -, h⟩
  · exact Bnode.decode_ne_fuel hdata h
  revert h
  refine lift_bind_ne_fuel fun rootDict => lift_bind_ne_fuel fun announce =>
    lift_bind_ne_fuel fun announce => ?_
  split
  · intro h
    cases h
  refine lift_bind_ne_fuel fun infoNode => lift_bind_ne_fuel fun infoDict =>
    lift_bind_ne_fuel fun name => lift_bind_ne_fuel fun name =>
    lift_bind_ne_fuel fun pieceLength => lift_bind_ne_fuel fun pieceLength => ?_
  split
  · intro h
    cases h
  refine lift_bind_ne_fuel fun length => lift_bind_ne_fuel fun length =>
    lift_bind_ne_fuel fun pieces => lift_bind_ne_fuel fun piecesBlob => ?_
  split <;> intro h <;> cases h

theorem parseBody_ne_fuel {body : Buffer} (hbody : body.length < 2 ^ 63) :
    Tracker.parseBody body ≠ .error .fuel := by
  intro h
  simp only [Tracker.parseBody] at h
  rcases Bnode.bind_eq_fuel h with h | ⟨root, -, h⟩
  · exact Bnode.decode_ne_fuel hbody h
  revert h
  split
  · intro h
    cases h
  refine lift_bind_ne_fuel fun dict => ?_
  split
  · intro h
    cases h
  refine lift_bind_ne_fuel fun peersNode => ?_
  split
  · intro h
    cases h
  refine lift_bind_ne_fuel fun bin h => ?_
  cases h

/-- A response has at most 8192 bytes. -/
theorem getPeers_ne_fuel {tcp : TcpNet} {udp : UdpNet} {transactionId key : UInt32} {id : Str}
    {port : Int32} : Tracker.getPeers tcp udp transactionId key t id port ≠ .error .fuel := by
  refine lift_bind_ne_fuel fun url => ?_
  split
  · refine lift_bind_ne_fuel fun _ => lift_bind_ne_fuel fun _ => ?_
    intro h
    rcases Bnode.bind_eq_fuel h with h | ⟨response, hreceive, h⟩
    · exact Bnode.lift_ne_fuel _ h
    have hreceive := Bnode.lift_eq_ok hreceive
    simp only [TcpNet.receive] at hreceive
    split at hreceive
    next received _ =>
      cases hreceive
      simp only [Tracker.parseResponse] at h
      split at h
      next => cases h
      next i _ =>
        split at h
        next => cases h
        next =>
          refine parseBody_ne_fuel ?_ h
          rw [List.length_drop, List.length_take]
          omega
    next => cases hreceive
  · split
    · intro h
      cases h
    · intro h
      cases h

/-- The program gets as far as an exit status or the event loop. -/
theorem main_ne_fuel
    (hfiles : ∀ path data, world.files path = some data → data.length < 2 ^ 63) :
    main args world ≠ .fuel := by
  match args with
  | [] | [_] => nofun
  | _ :: path :: _ =>
      intro h
      simp only [main] at h
      split at h
      next => cases h
      next hprep =>
        rcases Bnode.bind_eq_fuel hprep with h | ⟨t, -, h⟩
        · cases hdata : world.files path with
          | none =>
              rw [hdata] at h
              cases h
          | some data =>
              rw [hdata] at h
              exact load_ne_fuel (hfiles path data hdata) h
        · rcases Bnode.bind_eq_fuel h with h | ⟨peers, -, h⟩
          · exact getPeers_ne_fuel h
          · cases h
      next t peers _ =>
        split at h
        next => cases h
        next => split at h <;> cases h

/-! ## While it waits -/

variable {w : Swarm}

/-- The process waits for events in the state the handlers have left. -/
theorem main_downloading_cases (h : main args world = .downloading w) :
    ∃ path data t peers, TorrentFile.load world.SHA1 path (some data) = .ok t ∧
      Downloader.start t myId peers world.download = .waiting w := by
  match args with
  | [] | [_] => cases h
  | _ :: path :: _ =>
      simp only [main] at h
      split at h
      next => cases h
      next => cases h
      next t peers hprep =>
        split at h
        next => cases h
        next =>
          split at h
          next => cases h
          next => cases h
          next w' hw =>
            cases h
            obtain ⟨hload, -⟩ := prepare_ok_iff.mp hprep
            cases hdata : world.files path with
            | none =>
                rw [hdata] at hload
                cases hload
            | some data => exact ⟨path, data, t, peers, hdata ▸ hload, hw⟩
          next => cases h

/-- Whatever is in the file, whatever the tracker answers and whatever the peers send: while the
program waits for events it has one to five connections, nothing is counted as downloaded, and no
job was made for the disk. -/
theorem main_downloading (h : main args world = .downloading w) :
    1 ≤ w.conns.length ∧ w.conns.length ≤ 5 ∧ w.dl.downloadedBytes = 0 ∧ w.dl.fileWriter.q = [] := by
  obtain ⟨path, data, t, peers, hload, hstart⟩ := main_downloading_cases h
  obtain ⟨-, -, ⟨a, ha, hadds⟩, -, hrun⟩ := Downloader.start_waiting_iff.mp hstart
  obtain ⟨s⟩ := TorrentFile.load_source hload
  have hinit := Farm.added_eq_init t myId (world.download.attempts peers)
  have hlen : w.conns.length = (world.download.attempts peers).countP (·.Adds) := by
    rw [Farm.run_length hrun, hinit, Swarm.init, List.length_replicate]
  have hone : 0 < (world.download.attempts peers).countP (·.Adds) :=
    List.countP_pos_iff.mpr ⟨a, ha, decide_eq_true hadds⟩
  have hfive : (world.download.attempts peers).countP (·.Adds) ≤ 5 := by
    refine List.countP_le_length.trans ?_
    rw [Downloader.Surroundings.attempts, Downloader.chosen_eq_take, List.length_mapIdx]
    exact List.length_take_le _ _
  have hno : Downloader.NoJob t w.dl := by
    refine (Downloader.dlInvariant_noJob s).exec ?_ hrun
    rw [hinit]
    exact Downloader.noJob_init t myId
  have hzero := Downloader.uncounted_run (Downloader.uncounted_added _) hrun
  exact ⟨by omega, by omega, hzero.2, hno.2⟩

/-- The torrent of one byte, with a tracker. -/
def fileOfTracked : Buffer :=
  bytes "d8:announce23:http://tracker/announce" ++ Downloader.fileOfA.drop 16

/-- The tracker answers with one peer, and the peer sends the one piece. -/
def oneByteWorld : World where
  files := fun _ => some fileOfTracked
  SHA1 := Downloader.openssl
  tcp := Tracker.answering Tracker.httpResponse
  udp := Tracker.delivering [] []
  transactionId := 7
  key := 0
  download := {
    epoll := true
    attempt := fun _ _ => ⟨true, true⟩
    waits := [.ready [⟨0, some [], none⟩], .interrupted,
      .ready [⟨0, none, some (some ⟨_, Client.shakeAndPiece_length_le⟩, [])⟩]] }

/-- The states in which the program waits. -/
def End.state? : End → Option Swarm
  | .downloading w => some w
  | _ => none

/-- The true piece has arrived. -/
theorem main_downloading_oneByte :
    ∃ w, main ["client", "a.torrent"] oneByteWorld = .downloading w ∧
      w.dl.pieceBuffer = bytes "a" ∧ w.conns.length = 1 ∧ w.dl.fileWriter.q = [] := by
  have hsome : (main ["client", "a.torrent"] oneByteWorld).state?.map
      (fun w => (w.dl.pieceBuffer, w.conns.length)) = some (bytes "a", 1) := by decide +kernel
  obtain ⟨w, hw, hb⟩ := Option.map_eq_some_iff.mp hsome
  have hmain : main ["client", "a.torrent"] oneByteWorld = .downloading w := by
    cases hend : main ["client", "a.torrent"] oneByteWorld with
    | downloading w' =>
        rw [hend] at hw
        cases hw
        rfl
    | exited code => rw [hend] at hw; cases hw
    | faulted => rw [hend] at hw; cases hw
    | fuel => rw [hend] at hw; cases hw
  exact ⟨w, hmain, congrArg Prod.fst hb, congrArg Prod.snd hb, (main_downloading hmain).2.2.2⟩

end Program

end NodeLink
