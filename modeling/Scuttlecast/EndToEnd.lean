import Scuttlecast.Soundness
import Scuttlecast.Interpolated

/-! What comes out at the far end. A session that reports success has delivered the input. At
every moment the sink has a prefix of the input, as long as no hand-over writes the last block of
a full final slice before the totals are known. -/
namespace Scuttlecast

namespace Session

variable {rs : ReedSolomon} {L : Ledger} {r : Reader} {s s' : Session} {sunk : List Bytes}

/-- A hand-over that would release the whole of a final slice, and with it the padding of a short
last block, before any `Done` has been processed. -/
def LeaksPadding (r : Reader) (s : Session) : Prop :=
  let last := Chunks.divCeil (r.blocks s.geometry).length s.geometry.blocksPerSlice - 1
  s.pending = [] ∧ s.totalBytes = none ∧
    (∃ block ∈ r.blocks s.geometry, block.length ≠ s.geometry.blockSize) ∧
    (∀ k, s.assembler.nextNeeded ≤ k → k < last → s.assembler.isComplete k) ∧
    (s.assembler.slices.lookup last).any fun slice =>
      slice.dataPresent s.geometry.blocksPerSlice

/-- Without a short block there is no padding. -/
theorem releasedBytes_prefix
    (hL : L.blocks = (r.blocks L.geometry).map (Slicer.padded L.geometry))
    (hfull : ∀ block ∈ r.blocks L.geometry, block.length = L.geometry.blockSize) (m : ℕ) :
    (L.blocks.take m).flatten <+: r.bytes := by
  have hid : (r.blocks L.geometry).map (Slicer.padded L.geometry) = r.blocks L.geometry := by
    rw [List.map_congr_left fun block hb => Slicer.padded_of_length_eq (hfull block hb),
      List.map_id']
  rw [hL, hid]
  exact r.flatten_take_blocks_prefix L.geometry m

/-- With the total known, what a queue holds stays a prefix of the input. -/
theorem refill_prefix_of_total
    (hL : L.blocks = (r.blocks L.geometry).map (Slicer.padded L.geometry))
    (h : s.Tracks rs L r) (hd : s.Delivered L r sunk) (hr : s.refill rs = .ok s')
    (hpre : (sunk ++ s.pending).flatten <+: r.bytes) (htotal : s.totalBytes ≠ none) :
    (sunk ++ s'.pending).flatten <+: r.bytes := by
  obtain ⟨_, hd'⟩ := hd.refill hL h hr
  rcases h.totals with ⟨hnone, _⟩ | ⟨hfault, hsome, _⟩
  · exact absurd hnone htotal
  rcases hd'.bytes with hb | ⟨_, hb⟩
  swap
  · rw [hb]
    exact List.take_prefix _ _
  have hlen : (sunk ++ s'.pending).flatten.length ≤ r.bytes.length := by
    have hle := hpre.length_le
    rcases refill_cases hr with ⟨_, rfl⟩ | ⟨_, _, _, _, queued, rfl, _, _, hflat⟩
    · exact hle
    · rw [hsome] at hflat
      rw [← List.append_assoc, List.flatten_append, List.length_append, hflat, List.length_take,
        hd.written]
      omega
  have hcut := Slicer.take_flatten_take hL hfault
    (s'.assembler.nextNeeded * L.geometry.blocksPerSlice)
  change (s'.releasedBytes L).take _ = r.bytes.take (s'.releasedBytes L).length at hcut
  rw [← hb, List.take_of_length_le hlen] at hcut
  rw [hcut]
  exact List.take_prefix _ _

/-- A refill that takes out the final slice before the total is known finds all its data. -/
theorem leaksPadding_of_last (hL : L.blocks = (r.blocks L.geometry).map (Slicer.padded L.geometry))
    (h : s.Tracks rs L r) (hpending : s.pending = []) {ready : List Bytes} {assembler : Assembler}
    (htake : s.assembler.takeReady rs = .ok (ready, assembler)) (htotal : s.totalBytes = none)
    (hshort : ∃ block ∈ r.blocks L.geometry, block.length ≠ L.geometry.blockSize)
    (hbefore : s.assembler.nextNeeded < L.slices) (hafter : L.slices ≤ assembler.nextNeeded) :
    LeaksPadding r s := by
  have hslices : Chunks.divCeil (r.blocks L.geometry).length L.geometry.blocksPerSlice =
      L.slices := by rw [Ledger.slices, hL, List.length_map]
  have hcomplete := (Assembler.takeReady_eq_ok.mp htake).1.complete
  refine ⟨hpending, htotal, by rwa [h.geometry], ?_, ?_⟩
  · rw [h.geometry, hslices]
    exact fun k hk hlt => (hcomplete k hk (by omega)).1
  · rw [h.geometry, hslices]
    have hwrite := (hcomplete (L.slices - 1) (by omega) (by omega)).2
    rw [Assembler.canWrite_iff] at hwrite
    rcases hwrite with hsome | ⟨k', slice, hlt, hlook⟩ | ⟨slice, hlook, hpresent⟩
    · rcases h.totals with ⟨_, hnone⟩ | ⟨_, hsome', _⟩
      · simp [hnone] at hsome
      · simp [htotal] at hsome'
    · have := h.assembler.lt_slices hlook
      omega
    · simpa [hlook, ← h.assembler.geometry] using hpresent

/-- What a refill adds is more of the input, unless it is one that leaks. -/
theorem refill_prefix (hL : L.blocks = (r.blocks L.geometry).map (Slicer.padded L.geometry))
    (h : s.Tracks rs L r) (hd : s.Delivered L r sunk) (hr : s.refill rs = .ok s')
    (hpre : (sunk ++ s.pending).flatten <+: r.bytes) (hleak : ¬ LeaksPadding r s) :
    (sunk ++ s'.pending).flatten <+: r.bytes := by
  by_cases htotal : s.totalBytes = none
  swap
  · exact refill_prefix_of_total hL h hd hr hpre htotal
  rcases refill_cases hr with ⟨_, rfl⟩ | ⟨hpending, ready, assembler, htake, queued, hs', _, _, hflat⟩
  · exact hpre
  obtain ⟨_, hblocks⟩ := h.assembler.takeReady htake
  have hbytes : (sunk ++ s.pending).flatten = s.releasedBytes L :=
    hd.bytes.resolve_right fun hsome => by simp [htotal] at hsome
  have hqueue : (sunk ++ s'.pending).flatten =
      (L.blocks.take (assembler.nextNeeded * L.geometry.blocksPerSlice)).flatten := by
    rw [htotal] at hflat
    rw [hs', ← List.append_assoc, List.flatten_append, hflat, hbytes, hblocks,
      List.flatten_append, releasedBytes]
  by_cases hdone : L.slices ≤ s.assembler.nextNeeded
  · -- every slice was released before, so nothing is added
    have hall := (Chunks.divCeil_le_iff L.geometry.blocksPerSlice_pos).mp hdone
    have hlen := congrArg List.length hblocks
    rw [List.length_append, List.take_of_length_le hall, List.length_take] at hlen
    have hnil : ready = [] := List.length_eq_zero_iff.mp (by omega)
    rw [hqueue, hblocks, hnil, List.append_nil]
    rwa [hbytes] at hpre
  by_cases hafter : L.slices ≤ assembler.nextNeeded
  · by_cases hfull : ∀ block ∈ r.blocks L.geometry, block.length = L.geometry.blockSize
    · rw [hqueue]
      exact releasedBytes_prefix hL hfull _
    · push Not at hfull
      exact absurd (leaksPadding_of_last hL h hpending htake htotal hfull
        (Nat.lt_of_not_le hdone) hafter) hleak
  · rw [hqueue]
    apply Slicer.flatten_take_prefix hL
    rw [Ledger.slices, Chunks.divCeil_le_iff L.geometry.blocksPerSlice_pos] at hafter
    exact Nat.lt_of_not_le hafter

/-- The queue is a prefix of the input, and the count of bytes has not been complained about. -/
structure Clean (r : Reader) (sunk : List Bytes) (o : Outcome) : Prop where
  bytes : ∃ left, (sunk ++ o.handed ++ left).flatten <+: r.bytes ∧
    (left = o.session.pending ∨ o.ended = some (.returned (.error .sinkClosed)))
  counted : ∀ expected received,
    o.ended ≠ some (.returned (.error (.byteCountMismatch expected received)))

theorem Moves.counted {o : Outcome} (h : Moves s o) (expected received : ℕ) :
    o.ended ≠ some (.returned (.error (.byteCountMismatch expected received))) := by
  intro hended
  have hi := h.inconclusive
  rw [hended] at hi
  exact hi

theorem Clean.running {o : Outcome} (h : Clean r sunk o) (hended : o.ended = none) :
    (sunk ++ o.handed ++ o.session.pending).flatten <+: r.bytes := by
  obtain ⟨left, hpre, rfl | hclosed⟩ := h.bytes
  · exact hpre
  · simp [hended] at hclosed

theorem Clean.taken {o : Outcome} (h : Clean r sunk o) : (sunk ++ o.handed).flatten <+: r.bytes := by
  obtain ⟨left, hpre, _⟩ := h.bytes
  rw [List.flatten_append] at hpre
  exact (List.prefix_append _ _).trans hpre

theorem handOver_clean (hL : L.blocks = (r.blocks L.geometry).map (Slicer.padded L.geometry))
    (h : s.Tracks rs L r) (hd : s.Delivered L r sunk)
    (hpre : (sunk ++ s.pending).flatten <+: r.bytes) (hleak : ¬ LeaksPadding r s)
    (sink : Sink) (now : ℕ) : Clean r sunk (s.handOver rs sink now) := by
  refine ⟨?_, (handOver_moves s sink now).counted⟩
  unfold handOver
  dsimp only
  split
  · exact ⟨s.pending, by simpa [Outcome.panic] using hpre, .inl rfl⟩
  · next s₁ hr =>
    have hs₁ : (sunk ++ s₁.pending).flatten <+: r.bytes := by
      refine refill_prefix hL ?_ ?_ hr hpre hleak
      · exact ⟨h.geometry, h.assembler, h.totals, h.floor⟩
      · exact ⟨hd.written, hd.bytes, hd.pending⟩
    have hsplit : sunk ++ s₁.pending.take sink.room ++ s₁.pending.drop sink.room =
        sunk ++ s₁.pending := by rw [List.append_assoc, List.take_append_drop]
    split_ifs
    · exact ⟨_, hsplit ▸ hs₁, .inr rfl⟩
    · exact ⟨_, hsplit ▸ hs₁, .inl rfl⟩

/-- Over everything there is to release, the count of bytes is right. -/
theorem checkByteTotal_of_prefix
    (hL : L.blocks = (r.blocks L.geometry).map (Slicer.padded L.geometry))
    (h : s.Tracks rs L r) (hd : s.Delivered L r sunk)
    (hpre : (sunk ++ s.pending).flatten <+: r.bytes) (hall : L.slices ≤ s.assembler.nextNeeded) :
    s.checkByteTotal = .ok () := by
  rcases h.totals with ⟨hnone, _⟩ | ⟨hfault, hsome, _⟩
  · rw [checkByteTotal, hnone]
  have hblocks := (Chunks.divCeil_le_iff L.geometry.blocksPerSlice_pos).mp hall
  have hreleased : s.releasedBytes L = L.blocks.flatten := by
    rw [releasedBytes, List.take_of_length_le hblocks]
  obtain ⟨n, hn⟩ := Slicer.flatten_blocks hL
  rw [Reader.flatten_blocks hfault] at hn
  have hlen : (s.releasedBytes L).length = r.bytes.length + n := by
    rw [hreleased, hn, List.length_append, List.length_replicate]
  have hwritten : s.writtenBytes = r.bytes.length := by
    have hle := hpre.length_le
    rw [hd.written]
    rcases hd.bytes with hb | ⟨_, hb⟩
    · rw [hb, hlen] at hle ⊢
      omega
    · rw [hb, List.length_take, hlen]
      omega
  rw [checkByteTotal, hsome]
  simp [hwritten]

/-- A session whose loop is over has released every slice of the ledger. -/
theorem slices_le_of_not_running (h : s.Tracks rs L r) (hstop : ¬ s.Running) :
    L.slices ≤ s.assembler.nextNeeded := by
  have hfinished : s.assembler.isFinished = true := by
    simp only [Running, not_or, not_not] at hstop
    exact hstop.1
  rcases h.totals with ⟨_, hnone⟩ | ⟨_, _, hsome, hlt⟩
  · simp [Assembler.isFinished, Assembler.totalSlices, hnone] at hfinished
  · simp only [Assembler.isFinished, Assembler.totalSlices, hsome, h.assembler.geometry,
      Option.map_some, Option.any_some, decide_eq_true_eq] at hfinished
    rwa [← Ledger.slices, Nat.mod_eq_of_lt hlt] at hfinished

/-- One turn of the loop, unless its hand-over leaks. -/
theorem turn_clean (hL : L.blocks = (r.blocks L.geometry).map (Slicer.padded L.geometry))
    (h : s.Tracks rs L r) (hd : s.Delivered L r sunk)
    (hpre : (sunk ++ s.pending).flatten <+: r.bytes) (now : ℕ) {b : Branch}
    (hb : BranchHonest rs L r b) (sink : Sink)
    (hleak : ¬ LeaksPadding r (s.branch now b).session) :
    Clean r sunk (s.turn rs now b sink) := by
  have hbranch := h.branch now hb
  have hbefore : Clean r sunk (s.beforeGuard rs now b sink) := by
    have hpending := hbranch.same.pending
    rcases (s.branch now b).andThen_cases fun s => s.handOver rs sink now with
      ⟨e, hended, heq⟩ | ⟨_, heq⟩ <;> rw [beforeGuard, heq]
    · refine ⟨⟨s.pending, ?_, .inl hpending.symm⟩, (branch_moves s now b).counted⟩
      rwa [hbranch.handed, List.append_nil]
    · have hover := handOver_clean hL hbranch.tracks (hd.of_same hbranch.same hbranch.tracks)
        (by rwa [hpending]) hleak sink now
      rw [hbranch.handed]
      exact ⟨hover.bytes, hover.counted⟩
  rcases turn_cases rs s now b sink with ⟨hmoves, heq | ⟨hended, hrun⟩⟩ | ⟨hended, hstop, heq⟩
  · rwa [heq]
  · have hturn : s.turn rs now b sink = { s.beforeGuard rs now b sink with
        sent := (s.beforeGuard rs now b sink).sent ++ []
        handed := (s.beforeGuard rs now b sink).handed ++ []
        ended := none } := by
      change (s.beforeGuard rs now b sink).andThen _ = _
      rw [Outcome.andThen_of_running hended, if_pos hrun]
    refine ⟨?_, hmoves.counted⟩
    rw [hturn]
    exact ⟨_, by simpa using hbefore.running hended, .inl rfl⟩
  · have hkept := hd.beforeGuard hL h now hb sink
    have hcheck := checkByteTotal_of_prefix hL hkept.tracks (hkept.running hended)
      (hbefore.running hended) (slices_le_of_not_running hkept.tracks hstop)
    rw [heq, Outcome.andThen_of_running hended, conclude_of_check hcheck]
    exact ⟨⟨_, by simpa using hbefore.running hended, .inl rfl⟩, by simp⟩

/-- A `Done` has been processed, and every slice below the total is complete. -/
def Settled (r : Reader) (s : Session) : Prop :=
  s.totalBytes ≠ none ∧ ∀ k, s.assembler.nextNeeded ≤ k →
    k < Chunks.divCeil (r.blocks s.geometry).length s.geometry.blocksPerSlice →
    s.assembler.isComplete k

/-- Branches that bring nothing in. -/
def Branch.Quiet : Branch → Prop
  | .sinkReady => True
  | .statsTick => True
  | .renakTick => True
  | _ => False

theorem Settled.slices (hL : L.blocks = (r.blocks L.geometry).map (Slicer.padded L.geometry))
    (h : s.Tracks rs L r) (hs : s.Settled r) : s.assembler.totalBlocks = some L.blocks.length ∧
      L.slices < 2 ^ 32 ∧
      ∀ k, s.assembler.nextNeeded ≤ k → k < L.slices → s.assembler.isComplete k := by
  have hslices : Chunks.divCeil (r.blocks L.geometry).length L.geometry.blocksPerSlice =
      L.slices := by rw [Ledger.slices, hL, List.length_map]
  obtain ⟨htotal, hcomplete⟩ := hs
  rw [h.geometry, hslices] at hcomplete
  rcases h.totals with ⟨hnone, _⟩ | ⟨_, _, hsome, hlt⟩
  · exact absurd hnone htotal
  · exact ⟨hsome, hlt, hcomplete⟩

/-- A settled session has nothing to ask for. -/
theorem Settled.requestGaps
    (hL : L.blocks = (r.blocks L.geometry).map (Slicer.padded L.geometry))
    (h : s.Tracks rs L r) (hs : s.Settled r) (now : ℕ) : (s.requestGaps now).ended = none := by
  obtain ⟨htotal, hlt, hcomplete⟩ := hs.slices hL h
  have hgaps : s.assembler.gaps s.emitFloor = [] := by
    have hfloor : s.assembler.totalSlices = some L.slices := by
      rw [Assembler.totalSlices, htotal, h.assembler.geometry, Option.map_some, ← Ledger.slices,
        Nat.mod_eq_of_lt hlt]
    simp only [Assembler.gaps, hfloor, Option.getD_some, List.map_eq_nil_iff,
      List.filter_eq_nil_iff, List.mem_range'_1, decide_eq_true_eq, not_not]
    exact fun k hk => hcomplete k hk.1 (by omega)
  simp [Session.requestGaps, Naks.due, hgaps, sendNaks]

theorem Settled.branch (hL : L.blocks = (r.blocks L.geometry).map (Slicer.padded L.geometry))
    (h : s.Tracks rs L r) (hs : s.Settled r) (now : ℕ) {b : Branch} (hquiet : b.Quiet) :
    (s.branch now b).ended = none ∧ (s.branch now b).session.Settled r ∧
      (s.branch now b).session.pending = s.pending := by
  cases b with
  | sinkReady => exact ⟨rfl, hs, rfl⟩
  | statsTick => exact ⟨rfl, hs, rfl⟩
  | renakTick =>
    obtain ⟨⟨naks, heq⟩, _⟩ := requestGaps_session s now
    refine ⟨hs.requestGaps hL h now, ?_, ?_⟩ <;> simp only [Session.branch, heq]
    exact hs
  | packets _ => exact hquiet.elim
  | silence => exact hquiet.elim

/-- A hand-over with room for all there is, and nothing queued before it, is the last. -/
theorem Settled.handOver (hL : L.blocks = (r.blocks L.geometry).map (Slicer.padded L.geometry))
    (h : s.Tracks rs L r) (hs : s.Settled r) (hpending : s.pending = []) (now : ℕ) {sink : Sink}
    (hroom : (r.blocks L.geometry).length ≤ sink.room) :
    (s.handOver rs sink now).ended = none ∧ ¬ (s.handOver rs sink now).session.Running := by
  obtain ⟨htotal, hlt, hcomplete⟩ := hs.slices hL h
  obtain ⟨ready, assembler, htake, hall⟩ :=
    h.assembler.takeReady_all (by rw [htotal]; rfl) hlt hcomplete
  obtain ⟨_, hblocks⟩ := h.assembler.takeReady htake
  have hready : ready.length ≤ sink.room := by
    have hlen := congrArg List.length hblocks
    rw [List.length_append, List.length_take] at hlen
    rw [hL, List.length_map] at hlen
    omega
  unfold Session.handOver
  dsimp only
  split
  · next p hr =>
    rw [refill, if_pos hpending, htake] at hr
    simp at hr
  · next s₁ hr =>
    rcases refill_cases hr with ⟨hne, _⟩ | ⟨_, ready', assembler', htake', queued, rfl, _, hle, _⟩
    · exact absurd hpending hne
    obtain ⟨rfl, rfl⟩ : ready' = ready ∧ assembler' = assembler := by
      simpa using htake'.symm.trans htake
    have hdrop : (s.pending ++ queued).drop sink.room = [] := by
      rw [hpending, List.nil_append]
      exact List.drop_of_length_le (hle.trans hready)
    have hframe := (Assembler.takeReady_eq_ok.mp htake).1.frame
    simp only [hdrop, ne_eq, not_true_eq_false, false_and, if_false, true_and]
    simp only [Running, not_or, not_not, and_true, Assembler.isFinished, Assembler.totalSlices,
      hframe.2.1, hframe.2.2.1, htotal, h.assembler.geometry, Option.map_some, Option.any_some,
      decide_eq_true_eq]
    rw [← Ledger.slices, Nat.mod_eq_of_lt hlt]
    exact hall

/-- A turn with room for all there is, and nothing queued before it, ends in success. -/
theorem Settled.turn (hL : L.blocks = (r.blocks L.geometry).map (Slicer.padded L.geometry))
    (h : s.Tracks rs L r) (hd : s.Delivered L r sunk)
    (hpre : (sunk ++ s.pending).flatten <+: r.bytes) (now : ℕ) {b : Branch}
    (hb : BranchHonest rs L r b) (hended : (s.branch now b).ended = none)
    (hs : (s.branch now b).session.Settled r) (hpending : (s.branch now b).session.pending = [])
    {sink : Sink} (hroom : (r.blocks L.geometry).length ≤ sink.room) :
    ∃ summary, (s.turn rs now b sink).ended = some (.returned (.ok summary)) := by
  have hbranch := h.branch now hb
  obtain ⟨hover, hstop⟩ := hs.handOver hL hbranch.tracks hpending now hroom
  have hclean := handOver_clean hL hbranch.tracks (hd.of_same hbranch.same hbranch.tracks)
    (by rwa [hbranch.same.pending]) (fun hleak => hs.1 hleak.2.1) sink now
  have hbefore : s.beforeGuard rs now b sink =
      { (s.branch now b).session.handOver rs sink now with
        sent := (s.branch now b).sent ++ ((s.branch now b).session.handOver rs sink now).sent
        handed := (s.branch now b).handed ++
          ((s.branch now b).session.handOver rs sink now).handed } := by
    rw [beforeGuard, Outcome.andThen_of_running hended]
  have hkept := hd.beforeGuard hL h now hb sink
  have hcheck : (s.beforeGuard rs now b sink).session.checkByteTotal = .ok () := by
    refine checkByteTotal_of_prefix hL hkept.tracks
      (hkept.running (by rw [hbefore]; exact hover)) ?_
      (slices_le_of_not_running hkept.tracks (by rw [hbefore]; exact hstop))
    rw [hbefore, hbranch.handed]
    exact hclean.running hover
  have hturn : s.turn rs now b sink = (s.beforeGuard rs now b sink).andThen fun s =>
      if s.Running then { session := s } else s.conclude now := rfl
  rw [hturn, Outcome.andThen_of_running (by rw [hbefore]; exact hover),
    if_neg (by rw [hbefore]; exact hstop), conclude_of_check hcheck]
  exact ⟨_, rfl⟩

/-- With something queued, a turn with room for it empties the queue and does nothing else. -/
theorem turn_drains (h : s.Tracks rs L r) (now : ℕ) {b : Branch} (hb : BranchHonest rs L r b)
    (hended : (s.branch now b).ended = none) (hpending : s.pending ≠ []) {sink : Sink}
    (hroom : s.pending.length ≤ sink.room) :
    (s.beforeGuard rs now b sink).ended = none ∧
      (s.beforeGuard rs now b sink).session.pending = [] ∧
      (s.beforeGuard rs now b sink).session.assembler = (s.branch now b).session.assembler ∧
      (s.beforeGuard rs now b sink).session.geometry = (s.branch now b).session.geometry ∧
      (s.beforeGuard rs now b sink).session.totalBytes = (s.branch now b).session.totalBytes := by
  have hsame := (h.branch now hb).same.pending
  have hdrop : s.pending.drop sink.room = [] := List.drop_of_length_le hroom
  rw [beforeGuard, Outcome.andThen_of_running hended]
  simp [handOver, refill, hsame, hpending, hdrop]

/-- From a settled session, two turns that find room are enough. -/
theorem Settled.two_turns (hL : L.blocks = (r.blocks L.geometry).map (Slicer.padded L.geometry))
    (h : s.Tracks rs L r) (hd : s.Delivered L r sunk)
    (hpre : (sunk ++ s.pending).flatten <+: r.bytes) (now now' : ℕ) {b b' : Branch}
    (hb : BranchHonest rs L r b) (hended : (s.branch now b).ended = none)
    (hs : (s.branch now b).session.Settled r) (hquiet : b'.Quiet) {sink sink' : Sink}
    (hroom : s.pending.length + (r.blocks L.geometry).length ≤ sink.room)
    (hroom' : (r.blocks L.geometry).length ≤ sink'.room) :
    ∃ summary, ((s.turn rs now b sink).andThen fun s => s.turn rs now' b' sink').ended =
      some (.returned (.ok summary)) := by
  have hbranch := h.branch now hb
  have hrooms : s.pending.length ≤ sink.room ∧ (r.blocks L.geometry).length ≤ sink.room := by omega
  by_cases hpending : s.pending = []
  · obtain ⟨summary, hok⟩ := hs.turn hL h hd hpre now hb hended
      (hbranch.same.pending.trans hpending) hrooms.2
    rw [Outcome.andThen_of_ended hok]
    exact ⟨summary, hok⟩
  obtain ⟨hover, hempty, hassembler, hgeometry, htotal⟩ :=
    turn_drains h now hb hended hpending hrooms.1
  have hkept := hd.beforeGuard hL h now hb sink
  have hclean : (sunk ++ (s.beforeGuard rs now b sink).handed ++
      (s.beforeGuard rs now b sink).session.pending).flatten <+: r.bytes := by
    have hover' := handOver_clean hL hbranch.tracks (hd.of_same hbranch.same hbranch.tracks)
      (by rwa [hbranch.same.pending]) (fun hleak => hs.1 hleak.2.1) sink now
    rw [beforeGuard, Outcome.andThen_of_running hended] at hover ⊢
    rw [hbranch.handed]
    exact hover'.running hover
  have hturn : s.turn rs now b sink = (s.beforeGuard rs now b sink).andThen fun s =>
      if s.Running then { session := s } else s.conclude now := rfl
  rw [hturn, Outcome.andThen_of_running hover]
  generalize s.beforeGuard rs now b sink = o at *
  by_cases hrun : o.session.Running
  · have hsettled : o.session.Settled r := by
      rw [Settled, htotal, hassembler, hgeometry]
      exact hs
    obtain ⟨hended', hs', hpending'⟩ := hsettled.branch hL hkept.tracks now' hquiet
    have hb' : BranchHonest rs L r b' := by cases b' <;> trivial
    obtain ⟨summary, hok⟩ := hs'.turn hL hkept.tracks (hkept.running hover) hclean now' hb' hended'
      (hpending'.trans hempty) hroom'
    rw [if_pos hrun, Outcome.andThen_of_running rfl]
    exact ⟨summary, hok⟩
  · have hcheck := checkByteTotal_of_prefix hL hkept.tracks (hkept.running hover) hclean
      (slices_le_of_not_running hkept.tracks hrun)
    rw [if_neg hrun, conclude_of_check hcheck, Outcome.andThen_of_ended rfl]
    exact ⟨_, rfl⟩

end Session

namespace World

variable {rs : ReedSolomon} {config : Config} {reader : Reader} {w w' : World}

/-- The turns whose hand-over leaks. -/
def Leaks (reader : Reader) : Action → World → Prop
  | .turn r now branch _, w =>
    Session.LeaksPadding reader ((w.peers r).session.branch now branch).session
  | _, _ => False

/-- A block of a short input as it is sent. -/
def paddedShard : Incoming :=
  .shard
    { slot := 0, sliceParity := 0, transferId := 7, seq := 0, sliceNo := 0, emitFloor := 0
      payload := [1, 0] }

/-- The same block behind the totals: it is cut, and the session ends well. -/
theorem exists_run_cut_to_the_total : ∃ w,
    Labelled.Reach (system .interpolated (.tiny 2) (.single [1]))
        (fun a w => ¬ Leaks (.single [1]) a w) w ∧
      (w.peers 0).sunk = [[1]] ∧ ∃ summary,
        (w.peers 0).ended = some (.returned (.ok summary)) := by
  obtain ⟨w₀, hstart, w₁, hrun, hleak, w, hturn, hsunk, hended⟩ : ∃ w₀,
      start (.tiny 2) (.single [1]) [.join 7 0] 0 = .ok w₀ ∧ ∃ w₁,
      Labelled.exec (system .interpolated (.tiny 2) (.single [1]))
        [.read, .queue, .egress 0, .read, .queue, .egress 0] w₀ = some w₁ ∧
      ¬ Leaks (.single [1]) (.turn 0 0
        (.packets [(0, .control (.done ⟨7, 1, 1⟩)), (0, paddedShard)]) ⟨1, false⟩) w₁ ∧ ∃ w,
      next .interpolated (.turn 0 0
        (.packets [(0, .control (.done ⟨7, 1, 1⟩)), (0, paddedShard)]) ⟨1, false⟩) w₁ = some w ∧
      (w.peers 0).sunk = [[1]] ∧ ∃ summary,
        (w.peers 0).ended = some (.returned (.ok summary)) := by
    unfold start
    rw [Reader.items_byte]
    refine ⟨_, rfl, _, rfl, ?_, _, rfl, rfl, _, rfl⟩
    exact fun hleaks => absurd (show some 1 = none from hleaks.2.1) (by decide)
  have hreach : Labelled.Reach (system .interpolated (.tiny 2) (.single [1]))
      (fun a w => ¬ Leaks (.single [1]) a w) w₁ :=
    .exec_of_ok (.start ⟨_, _, hstart⟩) (by simp [Leaks]) hrun
  exact ⟨w, hreach.step hleak hturn, hsunk, hended⟩

/-- Success means that the sink has the whole input and nothing else. -/
theorem success_delivers_input (h : Labelled.Reachable (system rs config reader) w) {r : ℕ}
    {summary : TransferSummary}
    (hok : (w.peers r).ended = some (.returned (.ok summary))) :
    (w.peers r).sunk.flatten = reader.bytes ∧ summary.totalBytes = reader.bytes.length := by
  obtain ⟨L, hs⟩ := sound_of_reachable h
  exact (hs.peers r).success summary hok

theorem success_delivers_input_short_block : ∃ w summary,
    Labelled.Reachable (system .interpolated (.tiny 2) (.single [1])) w ∧
      (w.peers 0).ended = some (.returned (.ok summary)) ∧
      (w.peers 0).sunk.flatten = (Reader.single [1]).bytes ∧ summary.totalBytes = 1 := by
  obtain ⟨w, hreach, _, summary, hok⟩ := exists_run_cut_to_the_total
  obtain ⟨hsunk, htotal⟩ := success_delivers_input hreach.reachable hok
  exact ⟨w, summary, hreach.reachable, hok, hsunk, htotal⟩

end World
end Scuttlecast
