import Scuttlecast.Receiver.Progress
import Scuttlecast.Sender.Tracking

/-! A session that hears one honest sender: what it has handed to its sink, and holds ready for
it, is the released part of the ledger, cut to the announced total once that is known. -/
namespace Scuttlecast

namespace Session

variable {rs : ReedSolomon} {L L' : Ledger} {r : Reader} {s s' : Session}

/-- An arrival that says nothing false of the transfer. -/
def Arrives (rs : ReedSolomon) (L : Ledger) (r : Reader) : Incoming → Prop
  | .shard frame => Slicer.Honest rs L r
      (.shard frame.sliceNo frame.slot frame.sliceParity frame.emitFloor frame.payload)
  | .control (.done done) => Slicer.Honest rs L r (.eof done.totalBytes done.totalBlocks)
  | .control _ => True

theorem Arrives.grows {i : Incoming} (hL : L.Grows L') (h : Arrives rs L r i) :
    Arrives rs L' r i := by
  rcases i with frame | _ | _ | _ | _ | _ | _ | done
  case shard =>
    exact Slicer.Honest.grows (r := r) (m := .shard frame.sliceNo frame.slot frame.sliceParity
      frame.emitFloor frame.payload) hL h
  case control.done =>
    have hdone : Slicer.Honest rs L r (.eof done.totalBytes done.totalBlocks) := h
    exact hdone.grows hL
  all_goals trivial

/-- A session that has been told nothing false. -/
structure Tracks (rs : ReedSolomon) (L : Ledger) (r : Reader) (s : Session) : Prop where
  geometry : s.geometry = L.geometry
  assembler : s.assembler.Holds rs L
  totals : s.totalBytes = none ∧ s.assembler.totalBlocks = none ∨
    r.fault = none ∧ s.totalBytes = some r.bytes.length ∧
      s.assembler.totalBlocks = some L.blocks.length ∧ L.slices < 2 ^ 32
  floor : s.emitFloor < L.widths.length

theorem Tracks.grows (h : s.Tracks rs L r) (hL : L.Grows L') : s.Tracks rs L' r := by
  refine ⟨h.geometry.trans hL.geometry.symm, ?_, ?_, h.floor.trans_le hL.length_widths⟩
  · rcases hL with rfl | ⟨w, hw, rfl⟩
    · exact h.assembler
    · exact h.assembler.opened hw
  · rw [hL.blocks, hL.slices]
    exact h.totals

/-- The bytes of the slices released so far, padding included. -/
def releasedBytes (L : Ledger) (s : Session) : Bytes :=
  (L.blocks.take (s.assembler.nextNeeded * L.geometry.blocksPerSlice)).flatten

/-- What went to the sink and what waits for it, against what was released. -/
structure Delivered (L : Ledger) (r : Reader) (sunk : List Bytes) (s : Session) : Prop where
  written : s.writtenBytes = (sunk ++ s.pending).flatten.length
  bytes : (sunk ++ s.pending).flatten = s.releasedBytes L ∨
    s.totalBytes = some r.bytes.length ∧
      (sunk ++ s.pending).flatten = r.bytes.take (s.releasedBytes L).length
  pending : ∀ block ∈ s.pending, block ≠ []

theorem Delivered.grows {sunk : List Bytes} (h : s.Delivered L r sunk) (hL : L.Grows L') :
    s.Delivered L' r sunk := by
  refine ⟨h.written, ?_, h.pending⟩
  rw [releasedBytes, hL.blocks, hL.geometry]
  exact h.bytes

section Handlers

/-- What arrivals leave alone: the identity and what is owed to the sink. -/
structure SameQueue (s s' : Session) : Prop where
  transferId : s'.transferId = s.transferId
  receiverId : s'.receiverId = s.receiverId
  pending : s'.pending = s.pending
  written : s'.writtenBytes = s.writtenBytes
  next : s'.assembler.nextNeeded = s.assembler.nextNeeded
  total : ∀ total ∈ s.totalBytes, s'.totalBytes.isSome

theorem SameQueue.refl (s : Session) : SameQueue s s :=
  ⟨rfl, rfl, rfl, rfl, rfl, fun _ h => Option.isSome_of_mem h⟩

theorem SameQueue.trans {s'' : Session} (h : SameQueue s s') (h' : SameQueue s' s'') :
    SameQueue s s'' := by
  refine ⟨h'.transferId.trans h.transferId, h'.receiverId.trans h.receiverId,
    h'.pending.trans h.pending, h'.written.trans h.written, h'.next.trans h.next, ?_⟩
  intro total ht
  obtain ⟨total', ht'⟩ := Option.isSome_iff_exists.mp (h.total total ht)
  exact h'.total total' ht'

/-- The deliveries stand as long as the queue does. -/
theorem Delivered.of_same {sunk : List Bytes} (h : s.Delivered L r sunk) (hs : SameQueue s s')
    (ht : s'.Tracks rs L r) : s'.Delivered L r sunk := by
  have hreleased : s'.releasedBytes L = s.releasedBytes L := by
    rw [releasedBytes, hs.next, releasedBytes]
  refine ⟨by rw [hs.written, hs.pending, h.written], ?_, by rw [hs.pending]; exact h.pending⟩
  rw [hs.pending, hreleased]
  rcases h.bytes with hb | ⟨htotal, hb⟩
  · exact .inl hb
  · have hsome := hs.total _ htotal
    rcases ht.totals with ⟨hnone, _⟩ | ⟨_, htotal', _⟩
    · rw [hnone] at hsome
      simp at hsome
    · exact .inr ⟨htotal', hb⟩

theorem Tracks.requestGaps (h : s.Tracks rs L r) (now : ℕ) :
    (s.requestGaps now).session.Tracks rs L r ∧ SameQueue s (s.requestGaps now).session ∧
      (s.requestGaps now).handed = [] := by
  obtain ⟨⟨naks, heq⟩, hhanded⟩ := requestGaps_session s now
  rw [heq]
  exact ⟨⟨h.geometry, h.assembler, h.totals, h.floor⟩,
    ⟨rfl, rfl, rfl, rfl, rfl, fun _ h => Option.isSome_of_mem h⟩, hhanded⟩

/-- What an arrival leaves behind: nothing false, and the queue to the sink as it was. -/
structure Arrived (rs : ReedSolomon) (L : Ledger) (r : Reader) (s : Session) (o : Outcome) :
    Prop where
  tracks : o.session.Tracks rs L r
  same : SameQueue s o.session
  handed : o.handed = []

theorem Tracks.requestGaps_if (h : s'.Tracks rs L r) (hs : SameQueue s s') (now : ℕ) (c : Prop)
    [Decidable c] : Arrived rs L r s (if c then s'.requestGaps now else { session := s' }) := by
  split_ifs
  · obtain ⟨ht, hs', hh⟩ := h.requestGaps now
    exact ⟨ht, hs.trans hs', hh⟩
  · exact ⟨h, hs, rfl⟩

theorem Tracks.takeShard (h : s.Tracks rs L r) {frame : Frame}
    (ha : Arrives rs L r (.shard frame)) (now : ℕ) :
    Arrived rs L r s (s.takeShard frame now) := by
  obtain ⟨hshard, hwidth, _, hfloor⟩ := ha
  have hmax : max s.emitFloor frame.emitFloor < L.widths.length := max_lt h.floor hfloor
  have hsome : ∀ total ∈ s.totalBytes, s.totalBytes.isSome := fun _ ht => Option.isSome_of_mem ht
  unfold Session.takeShard
  dsimp only
  split
  · exact ⟨⟨h.geometry, h.assembler, h.totals, hmax⟩, ⟨rfl, rfl, rfl, rfl, rfl, hsome⟩, rfl⟩
  · next taken assembler hi =>
    have hholds := h.assembler.insert hshard hwidth hi
    have hnext := insert_frame hi
    have htotals := hnext.2 ▸ h.totals
    cases taken with
    | true =>
      refine Tracks.requestGaps_if ?_ ?_ now _
      · exact ⟨h.geometry, hholds, htotals, hmax⟩
      · exact ⟨rfl, rfl, rfl, rfl, hnext.1, hsome⟩
    | false =>
      refine Tracks.requestGaps_if ?_ ?_ now _ <;>
        rw [if_neg (by simp)] <;> obtain ⟨late, duplicates, heq⟩ := refused_eq _ frame.sliceNo <;>
        rw [heq]
      · exact ⟨h.geometry, hholds, htotals, hmax⟩
      · exact ⟨rfl, rfl, rfl, rfl, hnext.1, hsome⟩

theorem Tracks.onArrival (h : s.Tracks rs L r) {arrival : Incoming} (ha : Arrives rs L r arrival)
    (now : ℕ) : Arrived rs L r s (s.onArrival now arrival) := by
  unfold Session.onArrival
  split
  · next frame =>
    unfold onShard
    split
    · exact ⟨h, .refl s, rfl⟩
    · exact ⟨h, .refl s, rfl⟩
    · exact h.takeShard ha now
  · next done =>
    obtain ⟨hfault, hbytes, hblocks, hbound⟩ := ha
    have hdone : Tracks rs L r { s with
        totalBytes := some done.totalBytes, assembler := s.assembler.onDone done.totalBlocks } := by
      rw [hbytes, hblocks]
      exact ⟨h.geometry, h.assembler.onDone, .inr ⟨hfault, rfl, rfl, hbound⟩, h.floor⟩
    obtain ⟨ht, hs, hh⟩ := hdone.requestGaps now
    have hsame : SameQueue s { s with
        totalBytes := some done.totalBytes, assembler := s.assembler.onDone done.totalBlocks } :=
      ⟨rfl, rfl, rfl, rfl, rfl, fun _ _ => rfl⟩
    exact ⟨ht, hsame.trans hs, hh⟩
  · split_ifs <;> exact ⟨h, .refl s, rfl⟩
  · split_ifs <;> exact ⟨h, .refl s, rfl⟩
  · exact ⟨h, .refl s, rfl⟩

theorem Tracks.onArrivals (h : s.Tracks rs L r) {arrivals : List (ℕ × Incoming)}
    (ha : ∀ a ∈ arrivals, Arrives rs L r a.2) : Arrived rs L r s (s.onArrivals arrivals) := by
  induction arrivals generalizing s with
  | nil => exact ⟨h, .refl s, rfl⟩
  | cons a rest ih =>
    have hfirst := h.onArrival (ha a List.mem_cons_self) a.1
    unfold Session.onArrivals
    rcases he : (s.onArrival a.1 a.2).ended with _ | e
    · rw [Outcome.andThen_of_running he]
      have hrest := ih hfirst.tracks fun b hb => ha b (List.mem_cons_of_mem _ hb)
      exact ⟨hrest.tracks, hfirst.same.trans hrest.same, by simp [hfirst.handed, hrest.handed]⟩
    · rw [Outcome.andThen_of_ended he]
      exact hfirst

end Handlers

section HandOver

/-- What is released later goes behind what was released, cut to the total where it is known. -/
theorem take_append_cut {b F X Q : Bytes} (hF : F.take b.length = b.take F.length)
    (hFX : (F ++ X).take b.length = b.take (F ++ X).length) (hpast : b.length < F.length → X = [])
    (hQ : Q = F ∨ Q = b.take F.length) :
    Q ++ X.take (b.length - Q.length) = F ++ X ∨
      Q ++ X.take (b.length - Q.length) = b.take (F ++ X).length := by
  rcases Nat.lt_or_ge b.length F.length with hlt | hle
  · rw [hpast hlt]
    simpa using hQ
  · right
    have hQF : Q = F := by
      rcases hQ with rfl | rfl
      · rfl
      · rw [← hF, List.take_of_length_le hle]
    rw [hQF, ← hFX, List.take_append, List.take_of_length_le hle]

/-- Taking the finished slices out of the assembler and cutting them to the total. -/
theorem Delivered.refill {sunk : List Bytes}
    (hL : L.blocks = (r.blocks L.geometry).map (Slicer.padded L.geometry))
    (h : s.Tracks rs L r) (hd : s.Delivered L r sunk) (hr : s.refill rs = .ok s') :
    s'.Tracks rs L r ∧ s'.Delivered L r sunk := by
  rcases refill_cases hr with ⟨_, rfl⟩ | ⟨hpending, ready, assembler, htake, queued, hs', hne, _, hflat⟩
  · exact ⟨h, hd⟩
  obtain ⟨hholds, hblocks⟩ := h.assembler.takeReady htake
  obtain ⟨_, htotal, _, _⟩ := ((Assembler.takeReady_eq_ok).mp htake).1.frame
  have hreleased : s'.releasedBytes L = s.releasedBytes L ++ ready.flatten := by
    rw [hs', releasedBytes, releasedBytes, ← List.flatten_append, ← hblocks]
  have hqueue : (sunk ++ s'.pending).flatten = (sunk ++ s.pending).flatten ++ queued.flatten := by
    rw [hs', ← List.flatten_append, List.append_assoc]
  have htracks : s'.Tracks rs L r := by
    rw [hs']
    exact ⟨h.geometry, hholds, htotal ▸ h.totals, h.floor⟩
  refine ⟨htracks, ?_, ?_, ?_⟩
  · rw [hqueue, List.length_append, ← hd.written, hs']
  · have hs'total : s'.totalBytes = s.totalBytes := by rw [hs']
    rw [hqueue, hreleased, hflat, hs'total]
    rcases htotals : s.totalBytes with _ | total
    · rcases hd.bytes with hb | ⟨hsome, _⟩
      · exact .inl (by rw [hb])
      · simp [htotals] at hsome
    · rcases h.totals with ⟨hnone, _⟩ | ⟨hfault, hsome, _⟩
      · simp [htotals] at hnone
      obtain rfl : r.bytes.length = total := by simpa [htotals] using hsome.symm
      rw [hd.written]
      have hcut (m : ℕ) := Slicer.take_flatten_take hL hfault m
      have hcut' := hcut (assembler.nextNeeded * L.geometry.blocksPerSlice)
      rw [hblocks, List.flatten_append] at hcut'
      have hpast : r.bytes.length < (s.releasedBytes L).length → ready.flatten = [] := by
        intro hlt
        have hall : L.blocks.length ≤ s.assembler.nextNeeded * L.geometry.blocksPerSlice := by
          by_contra hshort
          have := (Slicer.flatten_take_prefix hL (Nat.lt_of_not_le hshort)).length_le
          rw [releasedBytes] at hlt
          omega
        have hlen := congrArg List.length hblocks
        rw [List.length_append, List.take_of_length_le hall, List.length_take] at hlen
        have hnil : ready = [] := List.length_eq_zero_iff.mp (by omega)
        rw [hnil, List.flatten_nil]
      rcases take_append_cut (hcut _) hcut' hpast (hd.bytes.imp_right And.right) with hres | hres
      · exact .inl hres
      · exact .inr ⟨rfl, hres⟩
  · intro block hb
    rw [hs', hpending, List.nil_append] at hb
    exact hne block hb

/-- A hand-over gives the sink the next of the queue; a closed sink costs the block after. -/
theorem Delivered.handOver {sunk : List Bytes}
    (hL : L.blocks = (r.blocks L.geometry).map (Slicer.padded L.geometry))
    (h : s.Tracks rs L r) (hd : s.Delivered L r sunk) (sink : Sink) (now : ℕ) :
    (s.handOver rs sink now).session.Tracks rs L r ∧
      ∃ left, Delivered L r (sunk ++ (s.handOver rs sink now).handed)
          { (s.handOver rs sink now).session with pending := left } ∧
        (left = (s.handOver rs sink now).session.pending ∨
          (s.handOver rs sink now).ended = some (.returned (.error .sinkClosed))) := by
  unfold Session.handOver
  dsimp only
  split
  · refine ⟨⟨h.geometry, h.assembler, h.totals, h.floor⟩, s.pending, ?_, .inl rfl⟩
    rw [Outcome.panic, List.append_nil]
    exact ⟨hd.written, hd.bytes, hd.pending⟩
  · next s₁ hr =>
    have hs₁ : s₁.Tracks rs L r ∧ s₁.Delivered L r sunk := by
      refine Delivered.refill hL ?_ ?_ hr
      · exact ⟨h.geometry, h.assembler, h.totals, h.floor⟩
      · exact ⟨hd.written, hd.bytes, hd.pending⟩
    obtain ⟨ht, hd'⟩ := hs₁
    have hsplit : sunk ++ s₁.pending.take sink.room ++ s₁.pending.drop sink.room =
        sunk ++ s₁.pending := by rw [List.append_assoc, List.take_append_drop]
    have hleft (s₂ : Session) (hw : s₂.writtenBytes = s₁.writtenBytes)
        (ha : s₂.assembler = s₁.assembler) (hb : s₂.totalBytes = s₁.totalBytes) :
        Delivered L r (sunk ++ s₁.pending.take sink.room)
          { s₂ with pending := s₁.pending.drop sink.room } := by
      refine ⟨?_, ?_, fun block hb => hd'.pending block (List.mem_of_mem_drop hb)⟩
      · rw [hsplit, ← hd'.written, ← hw]
      · rw [hsplit, releasedBytes, ha, hb]
        exact hd'.bytes
    split_ifs
    · exact ⟨⟨ht.geometry, ht.assembler, ht.totals, ht.floor⟩, _, hleft _ rfl rfl rfl, .inr rfl⟩
    · exact ⟨⟨ht.geometry, ht.assembler, ht.totals, ht.floor⟩, _, hleft _ rfl rfl rfl, .inl rfl⟩

end HandOver

/-- Success means that the sink has the input, all of it and nothing else. -/
theorem Delivered.conclude {sunk : List Bytes}
    (hL : L.blocks = (r.blocks L.geometry).map (Slicer.padded L.geometry))
    (h : s.Tracks rs L r) (hd : s.Delivered L r sunk) (hstop : ¬ s.Running)
    (hcheck : s.checkByteTotal = .ok ()) :
    s.pending = [] ∧ sunk.flatten = r.bytes ∧ s.writtenBytes = r.bytes.length := by
  obtain ⟨hfinished, hpending⟩ : s.assembler.isFinished = true ∧ s.pending = [] := by
    simpa [Running] using hstop
  rcases h.totals with ⟨_, hnone⟩ | ⟨hfault, htotal, _⟩
  · simp [Assembler.isFinished, Assembler.totalSlices, hnone] at hfinished
  have hlen : r.bytes.length = s.writtenBytes := by
    simpa [checkByteTotal, htotal] using hcheck
  have hwritten := hd.written
  have hbytes := hd.bytes
  rw [hpending, List.append_nil] at hwritten hbytes
  refine ⟨hpending, ?_, hlen.symm⟩
  rcases hbytes with hb | ⟨_, hb⟩
  · have hcut := Slicer.take_flatten_take hL hfault
      (s.assembler.nextNeeded * L.geometry.blocksPerSlice)
    change (s.releasedBytes L).take _ = r.bytes.take (s.releasedBytes L).length at hcut
    rw [← hb, ← hwritten, ← hlen, List.take_length, hlen, hwritten, List.take_length] at hcut
    exact hcut
  · rw [hwritten, hb, List.length_take] at hlen
    rw [hb, List.take_of_length_le (by omega)]

/-- What a part of a turn leaves behind when the sink had `sunk` before it. -/
structure Kept (rs : ReedSolomon) (L : Ledger) (r : Reader) (sunk : List Bytes) (o : Outcome) :
    Prop where
  tracks : o.session.Tracks rs L r
  delivered : ∃ left, Delivered L r (sunk ++ o.handed) { o.session with pending := left } ∧
    (left = o.session.pending ∨ o.ended = some (.returned (.error .sinkClosed)))
  success : ∀ summary, o.ended = some (.returned (.ok summary)) →
    (sunk ++ o.handed).flatten = r.bytes ∧ summary.totalBytes = r.bytes.length

theorem Kept.grows {sunk : List Bytes} {o : Outcome} (h : Kept rs L r sunk o)
    (hL : L.Grows L') : Kept rs L' r sunk o := by
  refine ⟨h.tracks.grows hL, ?_, h.success⟩
  obtain ⟨left, hd, hleft⟩ := h.delivered
  exact ⟨left, hd.grows hL, hleft⟩

theorem Kept.running {sunk : List Bytes} {o : Outcome} (h : Kept rs L r sunk o)
    (hended : o.ended = none) : o.session.Delivered L r (sunk ++ o.handed) := by
  obtain ⟨left, hd, rfl | hclosed⟩ := h.delivered
  · exact hd
  · simp [hended] at hclosed

theorem Kept.andThen {sunk : List Bytes} {o : Outcome} {f : Session → Outcome}
    (h : Kept rs L r sunk o)
    (hf : ∀ s sunk, s.Tracks rs L r → s.Delivered L r sunk → Kept rs L r sunk (f s)) :
    Kept rs L r sunk (o.andThen f) := by
  rcases hended : o.ended with _ | e
  · have hnext := hf _ _ h.tracks (h.running hended)
    rw [Outcome.andThen_of_running hended]
    exact ⟨hnext.tracks, by simpa only [List.append_assoc] using hnext.delivered,
      by simpa only [List.append_assoc] using hnext.success⟩
  · rw [Outcome.andThen_of_ended hended]
    exact h

/-- A part that takes nothing from the queue and does not conclude the session. -/
theorem Arrived.kept {sunk : List Bytes} {o : Outcome} (hd : s.Delivered L r sunk)
    (h : Arrived rs L r s o) (hm : Moves s o) : Kept rs L r sunk o := by
  refine ⟨h.tracks, ⟨o.session.pending, ?_, .inl rfl⟩, fun summary hs => absurd hs (hm.not_ok _)⟩
  rw [h.handed, List.append_nil]
  exact hd.of_same h.same h.tracks

/-- The messages a branch is given say nothing false. -/
def BranchHonest (rs : ReedSolomon) (L : Ledger) (r : Reader) : Branch → Prop
  | .packets arrivals => ∀ a ∈ arrivals, Arrives rs L r a.2
  | _ => True

theorem Tracks.branch (h : s.Tracks rs L r) (now : ℕ) {b : Branch}
    (hb : BranchHonest rs L r b) : Arrived rs L r s (s.branch now b) := by
  have htracks (s' : Session) (hs : s'.geometry = s.geometry ∧ s'.assembler = s.assembler ∧
      s'.totalBytes = s.totalBytes ∧ s'.emitFloor = s.emitFloor) : s'.Tracks rs L r := by
    obtain ⟨hg, ha, ht, hf⟩ := hs
    exact ⟨hg ▸ h.geometry, ha ▸ h.assembler, by rw [ht, ha]; exact h.totals, hf ▸ h.floor⟩
  have hsome : ∀ total ∈ s.totalBytes, s.totalBytes.isSome := fun _ ht => Option.isSome_of_mem ht
  cases b with
  | packets arrivals =>
    have ha := (htracks { s with lastPacket := now } ⟨rfl, rfl, rfl, rfl⟩).onArrivals hb
    have hsame : SameQueue s { s with lastPacket := now } := ⟨rfl, rfl, rfl, rfl, rfl, hsome⟩
    exact ⟨ha.tracks, hsame.trans ha.same, ha.handed⟩
  | sinkReady => exact ⟨h, .refl s, rfl⟩
  | statsTick =>
    exact ⟨htracks _ ⟨rfl, rfl, rfl, rfl⟩, ⟨rfl, rfl, rfl, rfl, rfl, hsome⟩, rfl⟩
  | renakTick =>
    obtain ⟨ht, hs, hh⟩ := h.requestGaps now
    exact ⟨ht, hs, hh⟩
  | silence => exact ⟨h, .refl s, rfl⟩

/-- Before the guard of the loop is looked at again. -/
theorem Delivered.beforeGuard {sunk : List Bytes}
    (hL : L.blocks = (r.blocks L.geometry).map (Slicer.padded L.geometry))
    (h : s.Tracks rs L r) (hd : s.Delivered L r sunk) (now : ℕ) {b : Branch}
    (hb : BranchHonest rs L r b) (sink : Sink) :
    Kept rs L r sunk (s.beforeGuard rs now b sink) := by
  apply ((h.branch now hb).kept hd (branch_moves s now b)).andThen
  intro s' sunk' h' hd'
  obtain ⟨ht, hleft⟩ := hd'.handOver hL h' sink now
  exact ⟨ht, hleft, fun summary hs => absurd hs ((handOver_moves s' sink now).not_ok _)⟩

/-- One turn of the loop, whatever arrives and whatever the sink does. -/
theorem Delivered.turn {sunk : List Bytes}
    (hL : L.blocks = (r.blocks L.geometry).map (Slicer.padded L.geometry))
    (h : s.Tracks rs L r) (hd : s.Delivered L r sunk) (now : ℕ) {b : Branch}
    (hb : BranchHonest rs L r b) (sink : Sink) : Kept rs L r sunk (s.turn rs now b sink) := by
  apply (hd.beforeGuard hL h now hb sink).andThen
  intro s' sunk' h' hd'
  have hstay (o : Outcome) (hs : o.session = s') (hh : o.handed = [])
      (hfail : ∀ summary, o.ended ≠ some (.returned (.ok summary))) : Kept rs L r sunk' o := by
    refine ⟨hs ▸ h', ⟨s'.pending, ?_, .inl (by rw [hs])⟩, fun _ he => absurd he (hfail _)⟩
    rw [hh, hs, List.append_nil]
    exact ⟨hd'.written, hd'.bytes, hd'.pending⟩
  split_ifs with hrun
  · exact hstay _ rfl rfl (by simp)
  unfold Session.conclude
  split
  · exact hstay _ rfl rfl (by simp [Outcome.fail])
  · next hcheck =>
    obtain ⟨hpending, hsunk, hwritten⟩ := hd'.conclude hL h' hrun hcheck
    rw [Outcome.andThen_of_running rfl]
    refine ⟨⟨h'.geometry, h'.assembler, h'.totals, h'.floor⟩, ⟨s'.pending, ?_, .inl rfl⟩, ?_⟩
    · simp only [sendStats, List.append_nil]
      exact ⟨hd'.written, hd'.bytes, hd'.pending⟩
    · intro summary hs
      simp only [sendStats, Option.some.injEq, SessionEnd.returned.injEq, Except.ok.injEq] at hs
      rw [← hs]
      simpa [sendStats, Session.summary] using ⟨hsunk, hwritten⟩

end Session
end Scuttlecast
