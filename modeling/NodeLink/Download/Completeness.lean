import NodeLink.Lib.Coverage
import NodeLink.Download.Integrity

/-!
# When the check runs

`OnBlockReceived` judges a piece complete by the sum of the sizes it received.
The piece is complete when every position of the buffer has been received.  For
the deliveries of one piece since it became the current one, the two agree at a
delivery exactly if no byte was counted twice by then, as long as one of them
says that the piece is complete (`checks_iff_makesWhole_iff`).

`Gathered i size hist d` is the state after the deliveries `hist`.  The buffer is
still there and the counter is the sum of the sizes, or the piece was handed to
the writer and the buffer is gone.
-/

namespace NodeLink

open Cpp Coverage

namespace Downloader

variable {d d0 d1 d' : Downloader} {i : Int32} {size : Nat} {hist : List Call} {c : Call}

/-- Where the data of a call goes. -/
def Call.span (c : Call) : Nat × Nat := (c.offset.toInt.toNat, c.data.length)

/-- The call delivers a block of piece `i`, inside its `size` bytes. -/
structure Delivers (i : Int32) (size : Nat) (c : Call) : Prop where
  index : c.pieceIndex = i
  start : 0 ≤ c.offset.toInt
  stop : c.offset.toInt + c.data.length ≤ size

/-- The sum of the sizes of the blocks. -/
def received (hist : List Call) : Nat := total (hist.map Call.span)

/-- The positions the blocks went to. -/
def arrived (hist : List Call) : Finset Nat := covered (hist.map Call.span)

/-- The delivery `c` after `hist` completes the piece. -/
def MakesWhole (size : Nat) (hist : List Call) (c : Call) : Prop :=
  arrived (hist ++ [c]) = Finset.range size ∧ (hist = [] ∨ arrived hist ≠ Finset.range size)

/-- The sizes reach that of the piece, and its buffer is still there. -/
def SumReached (d : Downloader) (size : Nat) (hist : List Call) (c : Call) : Prop :=
  received (hist ++ [c]) = size ∧ (hist = [] ∨ d.pieceBuffer.length = size)

/-- Where the sum or the positions say that the piece is complete, no byte came twice: the blocks
do not overlap, and this one is not an empty one behind others. -/
def NoneTwice (d : Downloader) (size : Nat) (hist : List Call) (c : Call) : Prop :=
  SumReached d size hist c ∨ MakesWhole size hist c →
    Apart ((hist ++ [c]).map Call.span) ∧ (hist = [] ∨ c.data ≠ [])

/-- The state after the deliveries `hist` of piece `i`. -/
structure Gathered (i : Int32) (size : Nat) (hist : List Call) (d : Downloader) : Prop where
  current : d.currentPieceIndex = i
  size_le : size ≤ maxSize
  buffer :
    (d.pieceBuffer.length = size ∧ d.pieceBytesReceived.toInt = received hist) ∨
    (d.pieceBuffer = [] ∧ 0 < size ∧ size ≤ received hist ∧ d.pieceBytesReceived.toInt = size)

theorem received_concat (hist : List Call) (c : Call) :
    received (hist ++ [c]) = received hist + c.data.length := by
  simp only [received]
  rw [List.map_append, total_append]
  rfl

/-- A block inside the buffer is copied. -/
theorem copyBlock_of_delivers (hc : Delivers i d.pieceBuffer.length c)
    (hmax : d.pieceBuffer.length ≤ maxSize) :
    copyBlock d c.offset c.data = .ok (d.copied c.offset c.data) := by
  have h0 := hc.start
  have h1 := hc.stop
  simp only [maxSize] at hmax
  have hoff : c.offset.toInt = (c.offset.toInt.toNat : Nat) := by omega
  have hguard : d.CopyGuard c.offset c.data := by
    simp only [CopyGuard]
    rw [hoff, toSizeT_natCast (by omega), Nat.mod_eq_of_lt (by omega)]
    omega
  rw [copyBlock, if_pos hguard, if_pos ⟨h0, h1⟩]

/-- Into the buffer that was left to the writer nothing is copied. -/
theorem copyBlock_of_moved (h0 : 0 ≤ c.offset.toInt) (hsmall : c.data.length < 2 ^ 31)
    (hd : d.pieceBuffer = []) :
    ∃ d', copyBlock d c.offset c.data = .ok d' ∧ d'.pieceBuffer = [] ∧
      d'.pieceBytesReceived = d.pieceBytesReceived ∧
      d'.currentPieceIndex = d.currentPieceIndex ∧ d'.torrent = d.torrent := by
  by_cases hguard : d.CopyGuard c.offset c.data
  · have hfit := hguard
    have hoff := c.offset.toInt_lt
    simp only [CopyGuard, toSizeT] at hfit
    rw [hd, List.length_nil] at hfit
    have hnil : c.data = [] := List.length_eq_zero_iff.mp (by omega)
    have hinside : d.CopyInside c.offset c.data := by
      refine ⟨h0, ?_⟩
      rw [hd, List.length_nil]
      omega
    refine ⟨d.copied c.offset c.data, by rw [copyBlock, if_pos hguard, if_pos hinside], ?_, ?_,
      rfl, rfl⟩
    · rw [copied_pieceBuffer, hnil, Splice.overwrite_nil, hd]
    · rw [copied_pieceBytesReceived, hnil, List.length_nil, Int.natCast_zero, Int.add_zero,
        Int32.ofInt_toInt]
  · exact ⟨d, by rw [copyBlock, if_neg hguard], hd, rfl, rfl, rfl⟩

/-- The state after the copy of a delivery, and whether the check runs. -/
theorem Gathered.copied (hg : Gathered i size hist d) (hc : Delivers i size c)
    (htotal : received (hist ++ [c]) < 2 ^ 31) :
    ∃ d2, copyBlock d c.offset c.data = .ok d2 ∧ Gathered i size (hist ++ [c]) d2 ∧
      (d2.Full ↔ received (hist ++ [c]) = size ∧ d.pieceBuffer.length = size) := by
  rw [received_concat] at htotal ⊢
  rcases hg.buffer with ⟨hlen, hrec⟩ | ⟨hnil, hpos, hle, hrec⟩
  · -- The buffer is there, and the block lies inside.
    have hinside : Delivers i d.pieceBuffer.length c := by rwa [hlen]
    have hcopy := copyBlock_of_delivers hinside (by rw [hlen]; exact hg.size_le)
    have hlen' : (d.copied c.offset c.data).pieceBuffer.length = size := by
      have hstop := hinside.stop
      have hstart := hinside.start
      rw [copied_pieceBuffer, Splice.overwrite_length (by omega), hlen]
    have hrec' : (d.copied c.offset c.data).pieceBytesReceived.toInt =
        (received hist + c.data.length : Nat) := by
      rw [copied_pieceBytesReceived, hrec, toInt_ofInt32]
      omega
    refine ⟨_, hcopy, ⟨hg.current, hg.size_le, .inl ⟨hlen', ?_⟩⟩, ?_⟩
    · rw [hrec', received_concat]
    · simp only [Full]
      rw [hlen', hrec']
      omega
  · obtain ⟨d2, hcopy, hnil', hrec', hcur, -⟩ := copyBlock_of_moved hc.start (by omega) hnil
    refine ⟨d2, hcopy, ⟨hcur.trans hg.current, hg.size_le, .inr ⟨hnil', hpos, ?_, ?_⟩⟩, ?_⟩
    · rw [received_concat]
      omega
    · rw [hrec', hrec]
    · simp only [Full]
      rw [hnil', hrec', hrec, hnil, List.length_nil]
      omega

/-- A check on an index of the torrent returns. -/
theorem checkIntegrity_of_inRange (h : d.torrent.InRange i.toInt) :
    ∃ d', checkIntegrity d i = .ok d' := by
  cases hcheck : checkIntegrity d i with
  | ok d' => exact ⟨d', rfl⟩
  | throw e d' => exact absurd hcheck checkIntegrity_ne_throw
  | fault f => exact absurd h (checkIntegrity_fault hcheck).2.2

/-- A check keeps what has been gathered, or hands the whole of it over. -/
theorem Gathered.check (hg : Gathered i size hist d) (h : checkIntegrity d i = .ok d') :
    Gathered i size hist d' := by
  rcases checkIntegrity_cases h with ⟨hfull, -, rfl⟩ | ⟨-, rfl⟩
  · refine ⟨hg.current, hg.size_le, ?_⟩
    simp only [Full] at hfull
    rcases hg.buffer with ⟨hlen, hrec⟩ | ⟨hnil, hpos, -, hrec⟩
    · rcases Nat.eq_zero_or_pos size with rfl | hpos
      · exact .inl ⟨rfl, hrec⟩
      · exact .inr ⟨rfl, hpos, by omega, by rw [written_pieceBytesReceived, hfull, hlen]⟩
    · rw [hnil, hrec, List.length_nil] at hfull
      omega
  · exact hg

/-- A delivery returns, and the check runs if it fills the buffer up. -/
theorem Gathered.receive (hg : Gathered i size hist d) (hc : Delivers i size c)
    (htotal : received (hist ++ [c]) < 2 ^ 31) (hrange : d.torrent.InRange i.toInt) :
    (∃ d', receive d c = .ok d' ∧ Gathered i size (hist ++ [c]) d') ∧
    ((∃ b, ChecksContent d c b) ↔
      received (hist ++ [c]) = size ∧ d.pieceBuffer.length = size) := by
  obtain ⟨d2, hcopy, hg2, hfull⟩ := hg.copied hc htotal
  have hswitch : switchPiece c.alloc d c.pieceIndex = .ok d :=
    switchPiece_same (hc.index.trans hg.current.symm)
  refine ⟨?_, ?_⟩
  · have ht : (d2.addSpeed c.data.length).torrent.InRange i.toInt := by
      rw [addSpeed_torrent, (copyBlock_sameFixed hcopy).1]
      exact hrange
    obtain ⟨d', hcheck⟩ := checkIntegrity_of_inRange ht
    refine ⟨d', ?_, Gathered.check (d := d2.addSpeed c.data.length) ?_ hcheck⟩
    · rw [receive_eq_check hswitch hcopy, hc.index, hcheck]
    · exact ⟨hg2.current, hg2.size_le, hg2.buffer⟩
  · rw [← hfull]
    constructor
    · rintro ⟨b, d1, d3, h1, h3, hf, -⟩
      cases hswitch.symm.trans h1
      cases hcopy.symm.trans h3
      exact hf
    · intro hf
      exact ⟨_, d, d2, hswitch, hcopy, hf, rfl⟩

/-! ## The first delivery -/

theorem switchPiece_currentPieceIndex {alloc : Bool} (h : switchPiece alloc d i = .ok d') :
    d'.currentPieceIndex = i := by
  rcases switchPiece_cases h with ⟨hi, rfl⟩ | ⟨-, n, -, -, -, rfl⟩
  · exact hi.symm
  · rfl

/-- Behind its change of piece a call goes on as in the state after it. -/
theorem receive_of_switchPiece (h : switchPiece c.alloc d c.pieceIndex = .ok d1) :
    receive d c = receive d1 c := by
  simp only [Downloader.receive, onBlockReceived_eq]
  rw [h, switchPiece_same (switchPiece_currentPieceIndex h).symm]

theorem checksContent_of_switchPiece (h : switchPiece c.alloc d c.pieceIndex = .ok d1)
    (b : Buffer) : ChecksContent d c b ↔ ChecksContent d1 c b := by
  simp only [ChecksContent]
  rw [h, switchPiece_same (switchPiece_currentPieceIndex h).symm]

/-- Right after the change of piece nothing has arrived. -/
theorem gathered_of_switchPiece {alloc : Bool} (hne : i ≠ d.currentPieceIndex)
    (h : switchPiece alloc d i = .ok d1) : Gathered i d1.pieceBuffer.length [] d1 := by
  rcases switchPiece_cases h with ⟨hi, -⟩ | ⟨-, n, -, hn, -, rfl⟩
  · exact absurd hi hne
  · refine ⟨rfl, ?_, .inl ⟨rfl, rfl⟩⟩
    rw [cleared_pieceBuffer, List.length_replicate]
    exact hn

/-- The state in which a delivery is made, its change of piece done. -/
def AtDelivery (d0 d1 : Downloader) (hist : List Call) (d : Downloader) : Prop :=
  (hist = [] ∧ d = d1) ∨ (hist ≠ [] ∧ exec Downloader.receive d0 hist = some d)

/-- One more delivery of the run. -/
theorem exec_of_atDelivery (hat : AtDelivery d0 d1 hist d)
    (hswitch : hist = [] → switchPiece c.alloc d0 c.pieceIndex = .ok d1)
    (hr : Downloader.receive d c = .ok d') :
    exec Downloader.receive d0 (hist ++ [c]) = some d' := by
  rcases hat with ⟨rfl, rfl⟩ | ⟨-, hrun⟩
  · have hr0 : (Downloader.receive d0 c).state? = some d' := by
      rw [receive_of_switchPiece (hswitch rfl), hr]
      rfl
    exact exec_cons_of_state? hr0 []
  · rw [exec_concat hrun, hr]
    rfl

/-- The state the run has reached, in which the next delivery does the same. -/
theorem exists_exec_of_atDelivery (hat : AtDelivery d0 d1 hist d)
    (hswitch : switchPiece c.alloc d0 c.pieceIndex = .ok d1) :
    ∃ d', exec Downloader.receive d0 hist = some d' ∧
      Downloader.receive d' c = Downloader.receive d c ∧
      ∀ b, ChecksContent d' c b ↔ ChecksContent d c b := by
  rcases hat with ⟨rfl, rfl⟩ | ⟨-, hrun⟩
  · exact ⟨d0, rfl, receive_of_switchPiece hswitch, checksContent_of_switchPiece hswitch⟩
  · exact ⟨d, hrun, rfl, fun _ => Iff.rfl⟩

/-- A run of deliveries since the piece became the current one. -/
theorem exists_atDelivery (hne : i ≠ d0.currentPieceIndex)
    (hrange : d0.torrent.InRange i.toInt)
    (hfirst : ∀ b ∈ hist.head?, switchPiece b.alloc d0 i = .ok d1)
    (hswitch : ∃ alloc, switchPiece alloc d0 i = .ok d1)
    (hin : ∀ b ∈ hist, Delivers i d1.pieceBuffer.length b) (htotal : received hist < 2 ^ 31) :
    ∃ d, AtDelivery d0 d1 hist d ∧ Gathered i d1.pieceBuffer.length hist d ∧
      d.torrent = d0.torrent := by
  induction hist using List.reverseRecOn with
  | nil =>
      obtain ⟨alloc, h1⟩ := hswitch
      exact ⟨d1, .inl ⟨rfl, rfl⟩, gathered_of_switchPiece hne h1, (switchPiece_sameFixed h1).1⟩
  | append_singleton hist b ih =>
      have hrec := received_concat hist b
      have hb := hin b (List.mem_append_right hist (List.mem_singleton_self b))
      have hhead : ∀ a ∈ hist.head?, switchPiece a.alloc d0 i = .ok d1 := by
        intro a ha
        refine hfirst a ?_
        rw [List.head?_append, ha]
        rfl
      obtain ⟨d, hat, hg, ht⟩ :=
        ih hhead (fun x hx => hin x (List.mem_append_left [b] hx)) (by omega)
      obtain ⟨⟨d', hr, hg'⟩, -⟩ := hg.receive hb htotal (by rw [ht]; exact hrange)
      have ht' := (receive_sameFixed (congrArg Outcome.state? hr)).1
      refine ⟨d', .inr ⟨List.append_ne_nil_of_right_ne_nil _ (List.cons_ne_nil _ _), ?_⟩, hg',
        ht'.trans ht⟩
      refine exec_of_atDelivery hat ?_ hr
      rintro rfl
      rw [hb.index]
      exact hfirst b rfl

/-! ## The law -/

/-- Among deliveries inside the piece the sum is what has arrived exactly if they keep apart. -/
theorem arrived_eq_iff (hin : ∀ b ∈ hist, Delivers i size b) :
    arrived hist = Finset.range size ↔ (arrived hist).card = size := by
  refine covered_eq_range_iff ?_
  intro r hr
  obtain ⟨b, hb, rfl⟩ := List.mem_map.mp hr
  have h0 := (hin b hb).start
  have h1 := (hin b hb).stop
  simp only [Call.span]
  omega

/-- Where both the sum and the positions say so, no byte came twice. -/
theorem noneTwice_of_makesWhole (hsum : received (hist ++ [c]) = size)
    (hwhole : MakesWhole size hist c) :
    Apart ((hist ++ [c]).map Call.span) ∧ (hist = [] ∨ c.data ≠ []) := by
  obtain ⟨hall, hnew⟩ := hwhole
  refine ⟨apart_of_covered_eq hall hsum, ?_⟩
  refine hnew.imp_right ?_
  rintro hbefore hnil
  refine hbefore ?_
  rw [← hall]
  simp only [arrived]
  rw [List.map_append, List.map_singleton, covered_concat_of_zero]
  simp only [Call.span, hnil, List.length_nil]

/-- Where no byte came twice, the sum and the positions agree. -/
theorem sum_iff_makesWhole_of_apart (hin : ∀ b ∈ hist ++ [c], Delivers i size b)
    (hapart : Apart ((hist ++ [c]).map Call.span)) (hnew : hist = [] ∨ c.data ≠ []) :
    received (hist ++ [c]) = size ↔ MakesWhole size hist c := by
  have hcard : (arrived (hist ++ [c])).card = received (hist ++ [c]) :=
    card_covered_eq_iff.mpr hapart
  rw [MakesWhole, arrived_eq_iff hin, hcard]
  refine ⟨fun hsum => ⟨hsum, ?_⟩, And.left⟩
  refine hnew.imp_right ?_
  intro hne hbefore
  have hle : (arrived hist).card ≤ received hist := card_covered_le
  have hrec := received_concat hist c
  have hpos := List.length_pos_iff.mpr hne
  rw [hbefore, Finset.card_range] at hle
  omega

/-- When the check runs: the sizes fill up the buffer the piece was given. -/
theorem checks_iff_sumReached (hne : i ≠ d0.currentPieceIndex)
    (hrange : d0.torrent.InRange i.toInt)
    (hfirst : ∀ b ∈ (hist ++ [c]).head?, switchPiece b.alloc d0 i = .ok d1)
    (hin : ∀ b ∈ hist ++ [c], Delivers i d1.pieceBuffer.length b)
    (htotal : received (hist ++ [c]) < 2 ^ 31) (hrun : exec Downloader.receive d0 hist = some d) :
    ((∃ b, ChecksContent d c b) ↔ SumReached d d1.pieceBuffer.length hist c) ∧
      (hist = [] ∨ Gathered i d1.pieceBuffer.length hist d) := by
  have hc := hin c (List.mem_append_right hist (List.mem_singleton_self c))
  have hrec := received_concat hist c
  cases hist with
  | nil =>
      obtain rfl : d0 = d := Option.some.inj hrun
      have h1 : switchPiece c.alloc d0 i = .ok d1 := hfirst c rfl
      have hg := gathered_of_switchPiece hne h1
      have ht : d1.torrent.InRange i.toInt := by
        rw [(switchPiece_sameFixed h1).1]
        exact hrange
      have hchecks := (hg.receive hc htotal ht).2
      have hsame : (∃ b, ChecksContent d0 c b) ↔ ∃ b, ChecksContent d1 c b :=
        exists_congr (checksContent_of_switchPiece (hc.index ▸ h1))
      refine ⟨?_, .inl rfl⟩
      rw [hsame, hchecks]
      exact ⟨fun h => ⟨h.1, .inl rfl⟩, fun h => ⟨h.1, rfl⟩⟩
  | cons b hist =>
      have hb : switchPiece b.alloc d0 i = .ok d1 := hfirst b rfl
      have hbefore : received (b :: hist) < 2 ^ 31 := by omega
      have hhead : ∀ x ∈ (b :: hist).head?, switchPiece x.alloc d0 i = .ok d1 :=
        fun x hx => hfirst x hx
      obtain ⟨d', hat, hg, ht⟩ := exists_atDelivery hne hrange hhead ⟨b.alloc, hb⟩
        (fun x hx => hin x (List.mem_append_left [c] hx)) hbefore
      have hd : d' = d := by
        rcases hat with ⟨h, -⟩ | ⟨-, h⟩
        · cases h
        · rw [hrun] at h
          exact (Option.some.inj h).symm
      subst hd
      have hchecks := (hg.receive hc htotal (by rw [ht]; exact hrange)).2
      refine ⟨?_, .inr hg⟩
      rw [hchecks]
      refine ⟨fun h => ⟨h.1, .inr h.2⟩, fun h => ⟨h.1, ?_⟩⟩
      exact h.2.resolve_left (List.cons_ne_nil _ _)

/-- At a delivery the check runs if and only if the delivery completes the piece, exactly when no
byte came twice where the sum of the sizes or the positions say that the piece is complete. -/
theorem checks_iff_makesWhole_iff (hne : i ≠ d0.currentPieceIndex)
    (hrange : d0.torrent.InRange i.toInt)
    (hfirst : ∀ b ∈ (hist ++ [c]).head?, switchPiece b.alloc d0 i = .ok d1)
    (hin : ∀ b ∈ hist ++ [c], Delivers i d1.pieceBuffer.length b)
    (htotal : received (hist ++ [c]) < 2 ^ 31) (hrun : exec Downloader.receive d0 hist = some d) :
    ((∃ b, ChecksContent d c b) ↔ MakesWhole d1.pieceBuffer.length hist c) ↔
      NoneTwice d d1.pieceBuffer.length hist c := by
  obtain ⟨hchecks, hg⟩ := checks_iff_sumReached hne hrange hfirst hin htotal hrun
  rw [hchecks]
  constructor
  · intro h hor
    have hsum : SumReached d d1.pieceBuffer.length hist c := hor.elim id h.mpr
    exact noneTwice_of_makesWhole hsum.1 (h.mp hsum)
  · intro hcond
    constructor
    · intro hsum
      obtain ⟨hapart, hnew⟩ := hcond (.inl hsum)
      exact (sum_iff_makesWhole_of_apart hin hapart hnew).mp hsum.1
    · intro hwhole
      obtain ⟨hapart, hnew⟩ := hcond (.inr hwhole)
      have hsum := (sum_iff_makesWhole_of_apart hin hapart hnew).mpr hwhole
      refine ⟨hsum, ?_⟩
      rcases hg with hnil | hg
      · exact .inl hnil
      rcases hg.buffer with ⟨hlen, -⟩ | ⟨-, hpos, hle, -⟩
      · exact .inr hlen
      · -- The piece was handed over before, so this delivery brings nothing.
        refine .inl (hnew.resolve_right ?_)
        intro hne
        have hrec := received_concat hist c
        have := List.length_pos_iff.mpr hne
        omega

/-! ### A piece of two bytes -/

/-- A torrent of one piece of two bytes. -/
def torrentOfTwo : TorrentFile where
  announce := []
  name := bytes "b"
  length := 2
  pieceLength := 2
  pieceHashes := [Sha1.calculate (bytes "ab")]
  infoHash := []

/-- The first byte of the piece. -/
def firstByte : Call := ⟨true, 0, 0, bytes "a"⟩

/-- The second byte of the piece. -/
def secondByte : Call := ⟨true, 0, 1, bytes "b"⟩

/-- The first byte arrives twice: the check runs on a buffer whose second byte is missing. -/
theorem checks_not_makesWhole :
    ∃ d, exec Downloader.receive (init torrentOfTwo []) [firstByte] = some d ∧
      ChecksContent d firstByte [97, 0] ∧ ¬MakesWhole 2 [firstByte] firstByte := by
  refine ⟨_, rfl, ⟨_, _, rfl, rfl, by decide, by decide⟩, ?_⟩
  rintro ⟨hall, -⟩
  exact absurd hall (by decide)

/-- The law at the second byte behind the first. -/
theorem checks_iff_makesWhole_iff_secondByte :
    ∃ d, exec Downloader.receive (init torrentOfTwo []) [firstByte] = some d ∧
      (((∃ b, ChecksContent d secondByte b) ↔ MakesWhole 2 [firstByte] secondByte) ↔
        NoneTwice d 2 [firstByte] secondByte) := by
  have hin : ∀ b ∈ [firstByte] ++ [secondByte], Delivers 0 2 b := by
    intro b hb
    rcases List.mem_cons.mp hb with rfl | hb
    · exact ⟨rfl, by decide, by decide⟩
    · rw [List.mem_singleton.mp hb]
      exact ⟨rfl, by decide, by decide⟩
  have hfirst : ∀ b ∈ ([firstByte] ++ [secondByte]).head?,
      switchPiece b.alloc (init torrentOfTwo []) 0 =
        .ok (((init torrentOfTwo []).switched 0).cleared 2) := by
    intro b hb
    cases hb
    rfl
  exact ⟨_, rfl, checks_iff_makesWhole_iff (i := 0) (by decide) (by decide) hfirst hin (by decide)
    rfl⟩

end Downloader

end NodeLink
