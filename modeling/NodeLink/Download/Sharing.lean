import NodeLink.Download.Completion
import NodeLink.Download.Disk
import NodeLink.Download.Shares

/-!
# A download from a peer with some of the pieces

The run of one connection with a peer that has the pieces of its `BITFIELD`, any
of them, and answers every request.  It goes through stages, as a whole download
goes through phases (`Sharing`): one pass of the read loop takes the message that
is awaited and goes to the next stage, or some of the message is on its way.

When no byte is on its way, every block of these pieces has been asked for and
no other, and the file holds these pieces and nothing else (`partial_download`).
-/

namespace NodeLink

open Cpp

/-! ## Stages -/

/-- What the connection waits for.  A block is the first one from a place on. -/
inductive Stage where
  | bitfield
  | unchoke
  | block (pl : Place) (b : Delivery)
  | done

namespace Stage

variable (t : TorrentFile) (content payload : Buffer)

/-- The messages on their way, from the one awaited on. -/
def stream : Stage → Buffer
  | bitfield => Message.frame Message.bitfield payload ++ Message.frame Message.unchoke []
  | unchoke => Message.frame Message.unchoke []
  | block _ b => Message.frame Message.piece (pieceMessage t content b)
  | done => []

/-- The blocks that have not been asked for. -/
def left : Stage → List Delivery
  | bitfield => wantedFrom t payload 0
  | unchoke => wantedFrom t payload 0
  | block _ b => (Place.behind t b).blocks t payload
  | done => []

/-- What holds of the connection and the downloader. -/
def Holds : Stage → Session → Prop
  | bitfield, s => (s.marked payload).unchoked.Standing t payload (.before 0) ∧
      s.dl.Lacks t content payload (.before 0)
  | unchoke, s => s.unchoked.Standing t payload (.before 0) ∧
      s.dl.Lacks t content payload (.before 0)
  | block pl b, s => (pl.Valid t ∧ pl.blocks t payload = b :: (Place.behind t b).blocks t payload) ∧
      s.Standing t payload (Place.behind t b) ∧ s.dl.Lacks t content payload pl
  | done, s => s.conn.choked = false ∧ s.conn.currentPiece = -1 ∧
      (s.dl.torrent.pieceHashes.length : Int) ≤ s.dl.nextReqIndex.toInt ∧
      s.dl.fileWriter.q = (piecesFrom t payload 0).map (pieceJob t content)

end Stage

/-- The connection is in a stage: `past` has been received, and `more` is on its way. -/
structure Sharing (t : TorrentFile) (content payload : Buffer) (g : Stage) (s : Session)
    (past more : Buffer) : Prop where
  holds : g.Holds t content payload s
  socket : s.conn.socket = true
  state : s.conn.state = .downloading
  asked : requests s.conn.log ++ (g.left t payload).map (requestOf t) =
    (wantedFrom t payload 0).map (requestOf t)
  stream : s.conn.recvBuffer ++ more = g.stream t content payload
  sent : peerStream t content payload s.conn.log = past ++ more

namespace Session

variable {t : TorrentFile} {content payload past more : Buffer} {s s' : Session} {b : Delivery}
  {pl : Place}

/-! ## Messages -/

/-- A connection at a place asks for the first block from there, or for nothing if none is left. -/
theorem sharing_ask (h : Describes t content) (hN : t.pieceHashes.length < 2 ^ 30)
    (hs : Standing t payload s pl) (hv : pl.Valid t) (hd : s.dl.Lacks t content payload pl)
    (hsock : s.conn.socket = true) (hst : s.conn.state = .downloading)
    (hreq : requests s.conn.log ++ (pl.blocks t payload).map (requestOf t) =
      (wantedFrom t payload 0).map (requestOf t))
    (hbuf : s.conn.recvBuffer ++ more = [])
    (hsent : peerStream t content payload s.conn.log = past ++ more) :
    ∃ g' s' more', s.requestNextBlock = .ok s' ∧ Sharing t content payload g' s' past more' := by
  cases hbl : pl.blocks t payload with
  | nil =>
      obtain ⟨s', hs', hlog, hf, hcur, hnext⟩ := hs.ended h hN hv hbl
      refine ⟨.done, s', more, hs', ⟨⟨hf.choked.trans hs.willing.choked, hcur, ?_, ?_⟩,
        hf.socket.trans hsock, hf.state.trans hst, ?_, ?_, ?_⟩⟩
      · rw [hf.torrent, hs.willing.torrent]
        exact hnext
      · rw [hf.dl]
        exact (hd.congr _).whole h hv hbl
      · rw [hlog, ← hreq, hbl]
        rfl
      · rw [hf.recvBuffer]
        exact hbuf
      · rw [peerStream_congr hlog]
        exact hsent
  | cons b rest =>
      obtain ⟨hin, rfl, -⟩ := Place.blocks_cons h hv hbl
      obtain ⟨s', hs', hstand, hlog⟩ := hs.request h hN hv hbl
      have hf : RequestFrame s s' := requestNextBlock_frame (by rw [hs']; rfl)
      have hanswer := answer_requestOf h hN hin
      refine ⟨.block pl b, s', more ++ answer t content (requestOf t b), hs',
        ⟨⟨⟨hv, hbl⟩, hstand, ?_⟩, hf.socket.trans hsock, hf.state.trans hst, ?_, ?_, ?_⟩⟩
      · rw [hf.dl]
        exact hd.congr _
      · rw [hlog, ← hreq, hbl, List.append_assoc]
        rfl
      · rw [hf.recvBuffer, ← List.append_assoc, hbuf, List.nil_append, hanswer]
        rfl
      · simp only [peerStream] at hsent ⊢
        rw [hlog, List.flatMap_append, List.flatMap_singleton, ← List.append_assoc, hsent,
          List.append_assoc]

/-- The `BITFIELD` arrives. -/
theorem sharing_bitfield {rest : Buffer} (hS : Sharing t content payload .bitfield s past more)
    (hrest : rest ++ more = Message.frame Message.unchoke []) :
    Sharing t content payload .unchoke ((s.framed Message.bitfield payload rest).marked payload)
      past more where
  holds := ⟨hS.holds.1.congr (hS.holds.1.willing.congr rfl rfl rfl rfl) rfl rfl rfl, hS.holds.2⟩
  socket := hS.socket
  state := hS.state
  asked := by
    rw [← hS.asked]
    exact congrArg (· ++ _) (requests_framed _ _ rest)
  stream := hrest
  sent := (peerStream_congr (requests_framed _ _ rest)).trans hS.sent

/-- The `UNCHOKE` arrives. -/
theorem sharing_unchoke (h : Describes t content) (hN : t.pieceHashes.length < 2 ^ 30)
    {rest : Buffer} (hS : Sharing t content payload .unchoke s past more) (hrest : rest ++ more = []) :
    ∃ g' s' more', (s.framed Message.unchoke [] rest).unchoked.requestNextBlock = .ok s' ∧
      Sharing t content payload g' s' past more' := by
  obtain ⟨hs, hd⟩ := hS.holds
  have hs1 : Standing t payload (s.framed Message.unchoke [] rest).unchoked (.before 0) :=
    hs.congr (hs.willing.congr rfl rfl rfl rfl) rfl rfl rfl
  refine sharing_ask h hN hs1 (Nat.zero_le _) hd hS.socket hS.state ?_ hrest
    ((peerStream_congr (requests_framed _ _ rest)).trans hS.sent)
  rw [← hS.asked]
  exact congrArg (· ++ _) (requests_framed _ _ rest)

/-- The block that is awaited arrives. -/
theorem onPiece_shared (h : Describes t content) (hN : t.pieceHashes.length < 2 ^ 30)
    (hv : pl.Valid t) (hbl : pl.blocks t payload = b :: (Place.behind t b).blocks t payload)
    (hs : Standing t payload s (Place.behind t b)) (hd : s.dl.Lacks t content payload pl) :
    ∃ d', s.onPiece (pieceMessage t content b) = (s.delivered d').requestNextBlock ∧
      Standing t payload (s.delivered d') (Place.behind t b) ∧
      d'.Lacks t content payload (Place.behind t b) := by
  obtain ⟨d', hd', hlacks⟩ := hd.receive h hN hv hbl
  have hsame : Downloader.SameFixed s.dl d' := Downloader.receive_sameFixed (by rw [hd']; rfl)
  obtain ⟨ht, -, hn⟩ := hsame
  have hres := hs.willing.results
  obtain ⟨h0, h4, h8⟩ := Message.readBE32_piecePayload (UInt32.ofNat b.piece)
    (UInt32.ofNat (blockBegin b.block)) (blockData t content b.piece b.block)
  have hdelivered : (s.delivered d').results = s.results := by
    rw [delivered_results, hres]
    rfl
  refine ⟨d', ?_, hs.congr (hs.willing.congr rfl rfl hdelivered ht) rfl rfl hn, hlacks⟩
  have hcall : (⟨[].headD true, (UInt32.ofNat b.piece).toInt32,
      (UInt32.ofNat (blockBegin b.block)).toInt32, blockData t content b.piece b.block⟩ :
      Downloader.Call) = Downloader.deliverBlock t content b := rfl
  simp only [onPiece, pieceMessage]
  rw [h0, h4, h8, Outcome.tryThen_ok, Outcome.tryThen_ok, deliver, hres, hcall, hd', Outcome.map_ok,
    Outcome.andThen_ok, delivered, hres]

/-- A `PIECE` arrives. -/
theorem sharing_block (h : Describes t content) (hN : t.pieceHashes.length < 2 ^ 30)
    {rest : Buffer} (hS : Sharing t content payload (.block pl b) s past more)
    (hrest : rest ++ more = []) :
    ∃ g' s' more', (s.framed Message.piece (pieceMessage t content b) rest).onPiece
        (pieceMessage t content b) = .ok s' ∧ Sharing t content payload g' s' past more' := by
  obtain ⟨⟨hv, hbl⟩, hs, hd⟩ := hS.holds
  have hs1 : Standing t payload (s.framed Message.piece (pieceMessage t content b) rest)
      (Place.behind t b) := hs.congr (hs.willing.congr rfl rfl rfl rfl) rfl rfl rfl
  obtain ⟨d', hpiece, hs', hd'⟩ := onPiece_shared h hN hv hbl hs1 hd
  obtain ⟨hin, -⟩ := Place.blocks_cons h hv hbl
  rw [hpiece]
  refine sharing_ask h hN hs' (Place.behind_valid hin) hd' hS.socket hS.state ?_ hrest
    ((peerStream_congr (requests_framed _ _ rest)).trans hS.sent)
  rw [← hS.asked]
  exact congrArg (· ++ _) (requests_framed _ _ rest)

end Session

namespace Sharing

open Session

variable {t : TorrentFile} {content payload past more : Buffer} {s s' : Session} {g : Stage}

/-- One pass takes the message that is awaited and goes on to the next stage.  Where it stops, nothing
is awaited or some bytes are on their way. -/
theorem pass (h : Describes t content) (hN : t.pieceHashes.length < 2 ^ 30)
    (hb : payload.length + 5 < 2 ^ 32) (hS : Sharing t content payload g s past more) :
    (s.pass = none ∧ (g = .done ∨ more ≠ [])) ∨
      ∃ g' s' more', s.pass = some (.ok s') ∧ Sharing t content payload g' s' past more' := by
  have hst : s.conn.state ≠ .handshaking := by
    rw [hS.state]
    decide
  cases g with
  | bitfield =>
      refine (pass_or_split hst hb hS.stream).imp (fun hn => ⟨hn.1, .inr hn.2⟩) ?_
      rintro ⟨rest, hbuf, hrest⟩
      exact ⟨_, _, _, pass_frame hst hbuf (by omega), sharing_bitfield hS hrest⟩
  | unchoke =>
      have hs : s.conn.recvBuffer ++ more = Message.frame Message.unchoke [] ++ [] :=
        hS.stream.trans (List.append_nil _).symm
      refine (pass_or_split hst (by simp) hs).imp (fun hn => ⟨hn.1, .inr hn.2⟩) ?_
      rintro ⟨rest, hbuf, hrest⟩
      obtain ⟨g', s', more', hs', hS'⟩ := sharing_unchoke h hN hS hrest
      exact ⟨g', s', more', (pass_frame hst hbuf (by simp)).trans (congrArg some hs'), hS'⟩
  | block pl b =>
      obtain ⟨hin, -⟩ := Place.blocks_cons h hS.holds.1.1 hS.holds.1.2
      have hlen := pieceMessage_length h hin
      have hle : blockLen (t.lengthOfPiece b.piece) b.block ≤ blockUnit := Tiling.size_le
      have hunit : blockUnit = 16384 := rfl
      have hs : s.conn.recvBuffer ++ more =
          Message.frame Message.piece (pieceMessage t content b) ++ [] :=
        hS.stream.trans (List.append_nil _).symm
      refine (pass_or_split hst (by omega) hs).imp (fun hn => ⟨hn.1, .inr hn.2⟩) ?_
      rintro ⟨rest, hbuf, hrest⟩
      obtain ⟨g', s', more', hs', hS'⟩ := sharing_block h hN hS hrest
      exact ⟨g', s', more', (pass_frame hst hbuf (by omega)).trans (congrArg some hs'), hS'⟩
  | done => exact .inl ⟨pass_of_empty (List.append_eq_nil_iff.mp hS.stream).1, .inl rfl⟩

/-- The loop ends in some stage, and nothing is awaited or some bytes are on their way. -/
theorem processBuffer (h : Describes t content) (hN : t.pieceHashes.length < 2 ^ 30)
    (hb : payload.length + 5 < 2 ^ 32) (hS : Sharing t content payload g s past more) :
    ∃ g' s' more', s.processBuffer = .ok s' ∧ (g' = .done ∨ more' ≠ []) ∧
      Sharing t content payload g' s' past more' := by
  induction s using Stream.Consumer.drain_induction (c := consumer) generalizing g more with
  | step s ih =>
      rcases hS.pass h hN hb with ⟨hnone, hwait⟩ | ⟨g', s', more', hs', hS'⟩
      · exact ⟨g, s, more, Stream.Consumer.drain_of_none hnone, hwait, hS⟩
      · obtain ⟨g'', s'', more'', hs'', hwait, hS''⟩ := ih s' hs' hS'
        refine ⟨g'', s'', more'', ?_, hwait, hS''⟩
        simp only [Session.processBuffer] at hs'' ⊢
        rw [Stream.Consumer.drain_of_some hs', Outcome.andThen_ok, hs'']

end Sharing

/-! ## The length of the stream -/

section Length

variable {t : TorrentFile} {content payload : Buffer} {b : Delivery} {g : Stage}

/-- The length of everything the peer sends. -/
def sharedLength (t : TorrentFile) (payload : Buffer) : Nat :=
  payload.length + 10 + ((wantedFrom t payload 0).map fun b =>
    blockLen (t.lengthOfPiece b.piece) b.block + 13).sum

theorem inTorrent_of_mem_wantedFrom (hb : b ∈ wantedFrom t payload 0) : b.InTorrent t := by
  obtain ⟨k, hk, hb⟩ := List.mem_flatMap.mp hb
  obtain ⟨c, hc, rfl⟩ := List.mem_map.mp hb
  exact ⟨(mem_piecesFrom_zero.mp hk).1, List.mem_range.mp hc⟩

/-- The requests are those of the first blocks. -/
theorem Sharing.exists_asked {s : Session} {past more : Buffer}
    (hS : Sharing t content payload g s past more) :
    ∃ bs, bs <+: wantedFrom t payload 0 ∧ requests s.conn.log = bs.map (requestOf t) := by
  obtain ⟨bs, rest, hbs, hreq, -⟩ := List.map_eq_append_iff.mp hS.asked.symm
  exact ⟨bs, ⟨rest, hbs.symm⟩, hreq.symm⟩

theorem sharedStream_length_le (h : Describes t content) (hN : t.pieceHashes.length < 2 ^ 30)
    {log : List Event} {bs : List Delivery} (hbs : bs <+: wantedFrom t payload 0)
    (hreq : requests log = bs.map (requestOf t)) :
    (peerStream t content payload log).length ≤ sharedLength t payload := by
  have hanswers : ((requests log).flatMap (answer t content)).length =
      (bs.map fun b => blockLen (t.lengthOfPiece b.piece) b.block + 13).sum := by
    rw [hreq, List.length_flatMap, List.map_map]
    refine congrArg List.sum (List.map_congr_left fun b hb => ?_)
    have hin := inTorrent_of_mem_wantedFrom (hbs.subset hb)
    change (answer t content (requestOf t b)).length = _
    rw [answer_requestOf h hN hin, Message.frame_length, pieceMessage_length h hin]
  obtain ⟨rest, hrest⟩ := hbs
  simp only [peerStream, sharedLength]
  rw [List.length_append, List.length_append, Message.frame_length, Message.frame_length,
    hanswers, ← hrest, List.map_append, List.sum_append, List.length_nil]
  omega

end Length

/-! ## The file -/

/-- The file holds these pieces, and zeros or nothing in the place of the others. -/
structure OutFile.HoldsOnly (t : TorrentFile) (content : Buffer) (ks : List Nat) (f : OutFile) :
    Prop where
  good : f.good = true
  shows : Slots.Shows 0 t.pieceUnit
    (fun k => if k ∈ ks then some (pieceData t content k) else none) f.content

/-- The jobs of some pieces make the file hold them. -/
theorem writeAll_holdsOnly {t : TorrentFile} {content : Buffer} (h : Describes t content)
    {ks : List Nat} (hks : ∀ k ∈ ks, k < t.pieceHashes.length) :
    (OutFile.empty.writeAll (ks.map (pieceJob t content))).HoldsOnly t content ks := by
  induction ks using List.reverseRecOn with
  | nil =>
      refine ⟨rfl, ?_⟩
      simp only [List.not_mem_nil, if_false]
      exact Slots.shows_nil 0 _
  | append_singleton ks k ih =>
      obtain ⟨hgood, hshows⟩ := ih fun k' hk' => hks k' (List.mem_append_left _ hk')
      have hk := hks k (by simp)
      have hlen := h.pieceData_length hk
      have hunit : (pieceData t content k).length ≤ t.pieceUnit := by
        rw [hlen, h.consistent.lengthOfPiece_eq hk]
        exact Tiling.size_le
      have hne : pieceData t content k ≠ [] := fun h0 => by
        have hpos := h.lengthOfPiece_pos hk
        rw [h0, List.length_nil] at hlen
        omega
      have hfits : Slots.Fits t.pieceUnit
          (fun k => if k ∈ ks then some (pieceData t content k) else none) := by
        intro k' b hb
        dsimp only at hb
        split at hb
        · cases Option.some.inj hb
          rw [pieceData, Tiling.tile_length]
          exact Tiling.size_le
        · cases hb
      have hwrite : OutFile.empty.writeAll ((ks ++ [k]).map (pieceJob t content)) =
          ⟨Slots.put 0 (OutFile.empty.writeAll (ks.map (pieceJob t content))).content
            (k * t.pieceUnit) (pieceData t content k), true⟩ := by
        rw [OutFile.writeAll, List.map_append, List.map_singleton, List.foldl_concat]
        exact (OutFile.write_eq hgood (Downloader.pieceJob_offset h hk)).trans (if_neg hne)
      have hupdate : (fun k' => if k' ∈ ks ++ [k] then some (pieceData t content k') else none) =
          Function.update (fun k' => if k' ∈ ks then some (pieceData t content k') else none) k
            (some (pieceData t content k)) := by
        funext k'
        by_cases hkk : k' = k
        · subst hkk
          rw [Function.update_self, if_pos (by simp)]
        · rw [Function.update_of_ne hkk]
          simp [hkk]
      rw [hwrite]
      refine ⟨rfl, ?_⟩
      rw [hupdate]
      exact hshows.put hfits hunit

/-! ## Runs -/

namespace Exchange

variable {t : TorrentFile} {content payload : Buffer} {x x' : Exchange} {id : Str} {hs : Buffer}

/-- The exchange is in some stage.  It has nothing to wait for, or some bytes are on their way. -/
def InStage (t : TorrentFile) (content payload : Buffer) (x : Exchange) : Prop :=
  ∃ g past, Sharing t content payload g x.session past (x.pending t content payload) ∧
    past.length = x.received ∧ (g = .done ∨ x.pending t content payload ≠ [])

theorem inStage_start (hN : t.pieceHashes.length < 2 ^ 30) :
    InStage t content payload (start t id hs) := by
  have hreq : requests (Session.shookHandsWith t id hs).conn.log = [] := rfl
  have hpend : (start t id hs).pending t content payload =
      Message.frame Message.bitfield payload ++ Message.frame Message.unchoke [] := by
    simp only [pending, peerStream, start]
    rw [hreq]
    exact List.append_nil _
  have hstanding : ((Session.shookHandsWith t id hs).marked payload).unchoked.Standing t payload
      (.before 0) := by
    refine ⟨⟨rfl, rfl, fun j hj => ?_, rfl⟩, rfl, rfl⟩
    refine (Connection.markPieces_getD [] _ payload j).2.trans ⟨fun hb => ?_, fun hb => ⟨hj, .inr hb⟩⟩
    exact hb.2.resolve_left fun h0 => by cases h0
  refine ⟨.bitfield, [], ⟨⟨hstanding, Downloader.lacks_init t content payload id hN⟩, rfl, rfl, rfl,
    ?_, rfl⟩, rfl, .inr ?_⟩
  · exact hpend
  · rw [hpend]
    exact List.append_ne_nil_of_right_ne_nil _ (List.cons_ne_nil _ _)

/-- What the connection has received is not longer than the whole stream. -/
theorem InStage.received_add_le (h : Describes t content) (hN : t.pieceHashes.length < 2 ^ 30)
    (hx : InStage t content payload x) :
    x.received + (x.pending t content payload).length ≤ sharedLength t payload := by
  obtain ⟨g, past, hS, hpast, -⟩ := hx
  obtain ⟨bs, hbs, hreq⟩ := hS.exists_asked
  have hle := sharedStream_length_le h hN hbs hreq
  rw [hS.sent, List.length_append, hpast] at hle
  exact hle

/-- More bytes in the buffer. -/
theorem sharing_append {g : Stage} {past more chunk : Buffer} {s : Session}
    (hS : Sharing t content payload g s past (chunk ++ more)) :
    Sharing t content payload g (s.append chunk) (past ++ chunk) more where
  holds := by
    have hholds := hS.holds
    cases g with
    | bitfield => exact ⟨hholds.1.congr (hholds.1.willing.congr rfl rfl rfl rfl) rfl rfl rfl, hholds.2⟩
    | unchoke => exact ⟨hholds.1.congr (hholds.1.willing.congr rfl rfl rfl rfl) rfl rfl rfl, hholds.2⟩
    | block pl b =>
        exact ⟨hholds.1, hholds.2.1.congr (hholds.2.1.willing.congr rfl rfl rfl rfl) rfl rfl rfl,
          hholds.2.2⟩
    | done => exact hholds
  socket := hS.socket
  state := hS.state
  asked := hS.asked
  stream := by
    rw [← hS.stream, ← List.append_assoc]
    rfl
  sent := by
    rw [List.append_assoc]
    exact hS.sent

/-- One step keeps the exchange in some stage. -/
theorem InStage.step (h : Describes t content) (hN : t.pieceHashes.length < 2 ^ 30)
    (hb : payload.length + 5 < 2 ^ 32) (hx : InStage t content payload x) (n : Nat) :
    ∃ x', x.step t content payload n = .ok x' ∧ InStage t content payload x' ∧
      x'.received = x.received + (x.arriving t content payload n).bytes.length := by
  by_cases hn : (x.arriving t content payload n).bytes = []
  · exact ⟨x, step_of_nothing hn, hx, by rw [hn]; rfl⟩
  obtain ⟨g, past, hS, hpast, -⟩ := hx
  generalize hc : x.arriving t content payload n = chunk at hn
  have hsplit : x.pending t content payload =
      chunk.bytes ++ (x.pending t content payload).drop (min n 8192) := by
    rw [← hc]
    exact (List.take_append_drop ..).symm
  rw [hsplit] at hS
  obtain ⟨g', s', more', hs', hwait, hS'⟩ := (sharing_append hS).processBuffer h hN hb
  have hread : x.session.onReadyRead (some chunk) = .ok s' := by
    rw [Session.onReadyRead, if_pos hS.socket, if_neg hn, hs', Outcome.catching_ok]
  have hmore : more' = pending t content payload ⟨s', x.received + chunk.bytes.length⟩ := by
    rw [pending, hS'.sent, ← hpast, ← List.length_append, List.drop_left]
  refine ⟨⟨s', x.received + chunk.bytes.length⟩, ?_, ⟨g', past ++ chunk.bytes, ?_, ?_, ?_⟩, rfl⟩
  · simp only [Exchange.step]
    rw [hc, if_neg hn, hread]
    rfl
  · exact hmore ▸ hS'
  · rw [List.length_append, hpast]
  · exact hmore ▸ hwait

/-- A run stays in some stage, and receives a byte in every step until there are no more. -/
theorem InStage.run (h : Describes t content) (hN : t.pieceHashes.length < 2 ^ 30)
    (hb : payload.length + 5 < 2 ^ 32) (hx : InStage t content payload x) (ns : List Nat) :
    ∃ x', exec (Exchange.step t content payload) x ns = some x' ∧ InStage t content payload x' ∧
      (x'.pending t content payload ≠ [] →
        x.received + (ns.filter (0 < ·)).length ≤ x'.received) := by
  induction ns generalizing x with
  | nil => exact ⟨x, rfl, hx, fun _ => le_refl _⟩
  | cons n ns ih =>
      by_cases hp : x.pending t content payload = []
      · exact ⟨x, exec_of_nothing hp _, hx, fun hne => absurd hp hne⟩
      obtain ⟨x1, hx1, hin, hrec⟩ := hx.step h hN hb n
      obtain ⟨x', hx', hin', hle⟩ := ih hin
      refine ⟨x', ?_, hin', fun hne => ?_⟩
      · rw [exec_cons_of_state? (by rw [hx1]; rfl)]
        exact hx'
      · have h1 := hle hne
        have hlen : (x.arriving t content payload n).bytes.length =
            min (min n 8192) (x.pending t content payload).length := List.length_take
        have hpos := List.length_pos_iff.mpr hp
        rw [List.filter_cons]
        split
        next h0 =>
          have := of_decide_eq_true h0
          rw [List.length_cons]
          omega
        next => omega

/-- The pieces handed over are the first ones of the bitfield. -/
theorem InStage.queue (hx : InStage t content payload x) :
    x.session.dl.fileWriter.q <+: (piecesFrom t payload 0).map (pieceJob t content) := by
  obtain ⟨g, past, hS, -, -⟩ := hx
  have hholds := hS.holds
  cases g with
  | bitfield => exact ⟨_, hholds.2.queue⟩
  | unchoke => exact ⟨_, hholds.2.queue⟩
  | block pl b => exact ⟨_, hholds.2.2.queue⟩
  | done => exact hholds.2.2.2 ▸ List.prefix_rfl

/-- One connection of a fresh downloader, with a peer that has the pieces of its bitfield, whichever
they are, and answers every request with the bytes asked for.  Whatever the sizes of the chunks, a run
does not fault, and only blocks of these pieces are asked for, each once and in order.  When no byte
is on its way, and enough chunks bring that about, all of them have been asked for, these pieces have
been handed to the writer, their jobs make of an empty file one that holds them and nothing else, and
the connection, even if asked for a request, sends none. -/
theorem partial_download (h : Describes t content) (hN : t.pieceHashes.length < 2 ^ 30)
    (hb : payload.length + 5 < 2 ^ 32) (id : Str) (hs : Buffer) (ns : List Nat) :
    ∃ x, exec (step t content payload) (start t id hs) ns = some x ∧
      requests x.session.conn.log <+: (wantedFrom t payload 0).map (requestOf t) ∧
      x.session.dl.fileWriter.q <+: (piecesFrom t payload 0).map (pieceJob t content) ∧
      (sharedLength t payload ≤ (ns.filter (0 < ·)).length → x.pending t content payload = []) ∧
      (x.pending t content payload = [] →
        requests x.session.conn.log = (wantedFrom t payload 0).map (requestOf t) ∧
        x.session.dl.fileWriter.q = (piecesFrom t payload 0).map (pieceJob t content) ∧
        (OutFile.empty.writeAll x.session.dl.fileWriter.q).HoldsOnly t content
          (piecesFrom t payload 0) ∧
        ∃ s', x.session.requestNextBlock = .ok s' ∧
          requests s'.conn.log = requests x.session.conn.log) := by
  have hstart : InStage t content payload (start t id hs) := inStage_start hN
  obtain ⟨x, hx, hin, hprog⟩ := hstart.run h hN hb ns
  have hbound := hin.received_add_le h hN
  have hqueue := hin.queue
  obtain ⟨g, past, hS, hpast, hwait⟩ := hin
  obtain ⟨bs, hbs, hreq⟩ := hS.exists_asked
  refine ⟨x, hx, hreq ▸ hbs.map _, hqueue, fun hlen => ?_, fun hnone => ?_⟩
  · by_contra hne
    have h1 := hprog hne
    have hpos := List.length_pos_iff.mpr hne
    have h0 : (start t id hs).received = 0 := rfl
    omega
  · obtain rfl : g = .done := hwait.resolve_right fun hne => hne hnone
    obtain ⟨hc, hcur, hnext, hq⟩ := hS.holds
    have hall := hS.asked
    rw [Stage.left, List.map_nil, List.append_nil] at hall
    refine ⟨hall, hq, ?_, _, Session.requestNextBlock_ended hc hcur hnext, rfl⟩
    rw [hq]
    exact writeAll_holdsOnly h fun k hk => (mem_piecesFrom_zero.mp hk).1

/-- A peer that has the second of two pieces. -/
theorem partial_download_second :
    ∃ x, exec (step Downloader.twoPieces Downloader.zeros [0x40])
        (start Downloader.twoPieces [] []) (List.replicate 16422 8192) = some x ∧
      x.session.dl.fileWriter.q = [pieceJob Downloader.twoPieces Downloader.zeros 1] ∧
      (OutFile.empty.writeAll x.session.dl.fileWriter.q).HoldsOnly Downloader.twoPieces
        Downloader.zeros [1] := by
  have hshort : ([0x40] : Buffer).length + 5 < 2 ^ 32 := by decide
  obtain ⟨x, hx, -, -, hall, hend⟩ := partial_download Downloader.describes_twoPieces (by decide)
    hshort [] [] (List.replicate 16422 8192)
  have hpieces : piecesFrom Downloader.twoPieces [0x40] 0 = [1] := by decide
  have hlen : sharedLength Downloader.twoPieces [0x40] = 16422 := by decide
  rw [hlen, List.filter_replicate, if_pos (by decide), List.length_replicate] at hall
  obtain ⟨-, hq, hfile, -⟩ := hend (hall (le_refl _))
  rw [hpieces] at hq hfile
  exact ⟨x, hx, hq, hfile⟩

end Exchange

end NodeLink
