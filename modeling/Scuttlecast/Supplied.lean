import Scuttlecast.Draining
import Scuttlecast.Receiver.Supply
import Scuttlecast.Sender.Holdoff

/-! Once the input is out, a receiver that runs as it should can be given all of it: round after
round it is told the total, asks for a shard it lacks, and is sent it. -/
namespace Scuttlecast
namespace World

variable {rs : ReedSolomon} {config : Config} {reader : Reader} {L : Ledger} {w w' w'' : World}
  {r r' n : ℕ}

/-- The sender has read its input to the end and said so to everybody, and nothing waits in its
channels. -/
structure Drained (w : World) : Prop where
  running : w.loop.verdict = none
  quiet : w.Quiet
  drained : w.task.drained
  draining : w.loop.draining
  told : ∃ done, ∀ r, .control (.done done) ∈ w.air r

/-- A member of the group that still runs, and whose sink has been given no padding. -/
structure Able (reader : Reader) (w : World) (r : ℕ) : Prop where
  id : r < 2 ^ 64
  member : w.loop.group.contains r
  running : (w.peers r).ended = none
  clean : ((w.peers r).sunk ++ (w.peers r).session.pending).flatten <+: reader.bytes

/-- A receiver that has ended well, and whose last report is on its way, and its leave. -/
structure Finished (n : ℕ) (w : World) (r : ℕ) : Prop where
  ok : ∃ summary, (w.peers r).ended = some (.returned (.ok summary))
  reported : ∃ stats, .stats stats ∈ w.uplink ∧ stats.receiverId = r ∧ n ≤ stats.nextNeededSlice
  left : ∃ transferId, .leave transferId r ∈ w.uplink

theorem delivers_singleton {i : Incoming} (h : i ∈ w.air r) (now : ℕ) :
    w.Delivers r (.packets [(now, i)]) := by
  intro arrival harrival
  rw [List.mem_singleton.mp harrival]
  exact h

/-- Nothing has happened but to the sender and to one receiver, and the group and what it needs are as
they were. -/
structure Beside (r : ℕ) (w w' : World) : Prop where
  peers : ∀ r', r' ≠ r → w'.peers r' = w.peers r'
  uplink : w.uplink ⊆ w'.uplink
  members : ∀ id, w'.loop.group.contains id = w.loop.group.contains id
  floor : w'.loop.group.neededFrom = w.loop.group.neededFrom

theorem Beside.refl (r : ℕ) (w : World) : Beside r w w :=
  ⟨fun _ _ => rfl, List.Subset.refl _, fun _ => rfl, rfl⟩

theorem Beside.trans (h : Beside r w w') (h' : Beside r w' w'') : Beside r w w'' :=
  ⟨fun r' hr => (h'.peers r' hr).trans (h.peers r' hr), List.Subset.trans h.uplink h'.uplink,
    fun id => (h'.members id).trans (h.members id), h'.floor.trans h.floor⟩

theorem Onward.beside (h : Onward w w') (r : ℕ) : Beside r w w' :=
  ⟨fun r' _ => by rw [h.peers], by rw [h.uplink]; exact List.Subset.refl _, h.members, h.floor⟩

theorem Onward.drained_of_quiet (h : Onward w w') (hd : w.Drained) (hquiet : w'.Quiet) :
    w'.Drained :=
  ⟨h.running, hquiet, h.drained hd.drained, h.draining hd.draining,
    hd.told.imp fun _ hdone r => h.air r (hdone r)⟩

theorem Onward.able (h : Onward w w') (ha : w.Able reader r) : w'.Able reader r :=
  ⟨ha.id, (h.members r).trans ha.member, by rw [h.peers]; exact ha.running,
    by rw [h.peers]; exact ha.clean⟩

theorem Beside.able (h : Beside r w w') (hr : r' ≠ r) (ha : w.Able reader r') :
    w'.Able reader r' :=
  ⟨ha.id, (h.members r').trans ha.member, by rw [h.peers r' hr]; exact ha.running,
    by rw [h.peers r' hr]; exact ha.clean⟩

theorem Beside.finished (h : Beside r w w') (hr : r' ≠ r) (hf : w.Finished n r') :
    w'.Finished n r' := by
  obtain ⟨stats, hmem, hid, hle⟩ := hf.reported
  exact ⟨by rw [h.peers r' hr]; exact hf.ok, ⟨stats, h.uplink hmem, hid, hle⟩,
    hf.left.imp fun _ hleave => h.uplink hleave⟩

/-- The slices of the input, whatever has become of it. -/
def slices (config : Config) (reader : Reader) : ℕ :=
  Chunks.divCeil (reader.blocks config.geometry).length config.geometry.blocksPerSlice

theorem Sound.slices (h : w.Sound rs config reader L) : L.slices = World.slices config reader := by
  rw [Ledger.slices, World.slices, h.blocks, List.length_map, h.geometry]

/-- How much a receiver lacks. -/
def lack (config : Config) (reader : Reader) (w : World) (r : ℕ) : ℕ :=
  ((w.peers r).session.assembler.lacking (World.slices config reader)).card

/-- Where nobody has been silent for too long, a tick only says the end once more. -/
theorem next_tick (h : Labelled.Reachable (system rs config reader) w)
    (hrun : w.loop.verdict = none) (hquiet : w.Quiet) (hdrained : w.task.drained)
    (hdraining : w.loop.draining) {now : ℕ} (hstale : w.loop.group.stale now silenceTimeout = []) :
    ∃ w', (system rs config reader).next (.tick now false w.loop.covering) w = some w' ∧
      Onward w w' ∧ w'.Drained := by
  have htick : w.loop.tick now false w.loop.covering =
      { loop := w.loop, multicast := [w.loop.doneMessage] } := by
    simp only [SendLoop.tick, Group.reapSilent, hstale, if_pos hdraining, Bool.false_eq_true,
      false_and, ne_eq, not_true_eq_false, if_false, List.map_nil, List.nil_append, List.append_nil]
    rfl
  have hopen := (concluded_of_reachable h).unfinished hrun
  have hsettle := SendLoop.settle_of_unfinished
    (o := { loop := w.loop, multicast := [w.loop.doneMessage] }) hrun hopen
  have hnext : (system rs config reader).next (.tick now false w.loop.covering) w =
      some { w with air := fun r => w.air r ++ [w.loop.doneMessage] } := by
    have hgoes : w.loop.verdict.isNone := by rw [hrun]; rfl
    simp only [system, next, stepTick, hgoes, if_true, afterLoop, htick, hsettle, List.append_nil]
  refine ⟨_, hnext, ⟨rfl, rfl, fun _ => rfl, rfl, hrun, fun r => List.subset_append_left _ _, id, id⟩,
    ⟨hrun, ⟨hquiet.todo, hquiet.outbound, hquiet.feedback⟩, hdrained, hdraining, ?_⟩⟩
  exact ⟨_, fun r => List.mem_append_right _ List.mem_cons_self⟩

/-- As long as nobody is overdue, an input that leaves room in the window is sent, and everybody told
its end. -/
theorem canReach_told (hfits : FitsWindow reader config.geometry)
    (h : Labelled.Reachable (system rs config reader) w) (hrun : w.loop.verdict = none) {now : ℕ}
    (hstale : w.loop.group.stale now silenceTimeout = []) :
    Labelled.CanReachAt (system rs config reader) Action.readings (fun w' _ =>
      Onward w w' ∧ w'.Drained) w now := by
  refine ((canReach_drained hfits h hrun now).reachable h).trans ?_
  rintro w₀ time ⟨h₀, rfl, honward₀, hquiet, hdrained, hdraining⟩
  have hstale₀ : w₀.loop.group.stale time silenceTimeout = [] := by
    rw [Group.stale_eq_nil_iff] at hstale ⊢
    intro id t hseen
    rw [honward₀.seen] at hseen
    exact hstale id t hseen
  obtain ⟨w₁, hnext, honward₁, hd⟩ :=
    next_tick h₀ honward₀.running hquiet hdrained hdraining hstale₀
  exact .once le_rfl hnext rfl (.here ⟨honward₀.trans honward₁, hd⟩)

/-- A request of a member is passed on, if one of its shards is not held off, and holds off nothing of
any other slice. -/
theorem next_nak (h : Labelled.Reachable (system rs config reader) w) (hrun : w.loop.verdict = none)
    {nak : Nak} (hmem : .nak nak ∈ w.uplink) (hmember : w.loop.group.contains nak.receiverId)
    (hfloor : w.loop.group.neededFrom ≤ nak.sliceNo) {slot : ℕ} (hslot : slot ∈ nak.missing) {now : ℕ}
    (hfree : ¬ w.loop.group.HeldOff (nak.sliceNo, slot) now) :
    ∃ w' slots, (system rs config reader).next (.control now (.nak nak)) w = some w' ∧
      Onward w w' ∧ w'.task = w.task ∧ w'.outbound = w.outbound ∧
      w'.feedback = w.feedback ++ [.resend nak.sliceNo slots] ∧ slot ∈ slots ∧
      ∀ block, block.1 ≠ nak.sliceNo →
        w'.loop.group.suppressed.lookup block = w.loop.group.suppressed.lookup block := by
  rcases w.loop.group.onNak_cases nak now with ⟨hnot | hlt, -⟩ | ⟨-, -, hsame, hthrough⟩
  · rw [hmember] at hnot
    cases hnot
  · exact absurd hfloor (Nat.not_le.mpr hlt)
  have hlet := (hthrough.mem slot).mpr ⟨hslot, hfree⟩
  have hcontrol : w.loop.control now (.nak nak) =
      { loop := { w.loop with group := (w.loop.group.onNak nak now).2 }
        feedback := [.resend nak.sliceNo (w.loop.group.onNak nak now).1] } := by
    simp [SendLoop.control, SendLoop.onNak, List.ne_nil_of_mem hlet]
  have hstanding (id : ℕ) : (w.loop.group.onNak nak now).2.standing id =
      w.loop.group.standing id := Group.standing_onNak nak now
  have hopen : SendLoop.Unfinished { w.loop with group := (w.loop.group.onNak nak now).2 } := by
    have hunfinished := (concluded_of_reachable h).unfinished hrun
    have hlen : (w.loop.group.onNak nak now).2.len = 0 ↔ w.loop.group.len = 0 := by
      simp only [Group.len_eq_zero_iff, hstanding]
    refine ⟨fun hzero => hunfinished.1 (hlen.mp hzero), fun hdone => hunfinished.2 ⟨hdone.1, ?_⟩⟩
    have hcomplete := Group.allComplete_iff.mp hdone.2
    simp only [hstanding] at hcomplete
    exact Group.allComplete_iff.mpr ⟨hunfinished.1, hcomplete.2⟩
  have hsettle := SendLoop.settle_of_unfinished (o := w.loop.control now (.nak nak))
    (by rw [hcontrol]; exact hrun) (by rw [hcontrol]; exact hopen)
  have hnext : (system rs config reader).next (.control now (.nak nak)) w =
      some (w.afterLoop (w.loop.control now (.nak nak))) :=
    if_pos ⟨by rw [hrun]; rfl, hmem⟩
  have hafter : w.afterLoop (w.loop.control now (.nak nak)) = { w with
      loop := { w.loop with group := (w.loop.group.onNak nak now).2 }
      feedback := w.feedback ++ [.resend nak.sliceNo (w.loop.group.onNak nak now).1] } := by
    unfold World.afterLoop
    rw [hsettle, hcontrol]
    simp
  rw [hafter] at hnext
  refine ⟨_, (w.loop.group.onNak nak now).1, hnext, ?_, rfl, rfl, rfl, hlet, fun block hblock => ?_⟩
  · exact ⟨rfl, rfl, fun id => Group.seen_onNak nak now, hsame, hrun, fun r => List.Subset.refl _,
      id, id⟩
  · rw [hthrough.lookup, if_neg fun hasked => hblock hasked.1]

/-- Long enough after all repairs nothing is held off. -/
theorem exists_rested (w : World) (earliest : ℕ) :
    ∃ now, earliest ≤ now ∧ ∀ block, ¬ w.loop.group.HeldOff block now := by
  obtain ⟨latest, hlatest⟩ := Table.exists_bound w.loop.group.suppressed id
  refine ⟨max earliest (latest + holdoff), Nat.le_max_left .., ?_⟩
  rintro block ⟨sent, hsent, hlt⟩
  have hle : sent ≤ latest := hlatest _ _ hsent
  omega

/-- A slice that is sealed and not released is sent again as it is asked for. -/
theorem Drained.mem_resend (hd : w.Drained) (h : Labelled.Reachable (system rs config reader) w)
    (hreadable : SlicerTask.Readable reader config.geometry) (hs : w.Sound rs config reader L)
    {k slot : ℕ} (hfloor : w.loop.group.neededFrom ≤ k) (hslot : slot < (L.slice k).length)
    {slots : List ℕ} (hmem : slot ∈ slots) :
    ∃ width floor payload,
      .shard k slot width floor payload ∈ w.task.slicer.resend k slots := by
  obtain ⟨p, hp, hinput⟩ := hs.task.slicer
  have hended := ended_of_running hreadable h hd.running
  have hall := hinput (by rw [hended]; rfl)
  rw [if_pos hd.drained] at hall
  have hlt : k < L.slices := Ledger.length_slice_pos_iff.mp (Nat.zero_lt_of_lt hslot)
  have hsealed : k < w.task.slicer.window.current.sliceNo := hall.2.2.2 ▸ hlt
  have hbase := (floors_of_reachable h).base.trans hfloor
  have hdata := hp.window.shard_of_sealed (k := k) hbase hsealed slot
  rw [Ledger.shard_data (hslot.trans_le (L.length_slice_le k)), List.getElem?_eq_getElem hslot]
    at hdata
  obtain ⟨width, hwidth⟩ : ∃ width, w.task.slicer.window.sliceParity k = some width := by
    rw [hp.window.sliceParity_eq hbase hsealed.le]
    exact ⟨_, List.getElem?_eq_getElem (by rw [hp.window.widths]; omega)⟩
  refine ⟨width, w.task.slicer.emitFloor, (L.slice k)[slot], ?_⟩
  rw [Slicer.resend, hwidth]
  exact List.mem_filterMap.mpr ⟨slot, hmem, by rw [hdata]; rfl⟩

section Room

variable (htransfer : config.transferId < 2 ^ 64) (hblocks : config.geometry.blocksPerSlice ≤ 840)

include htransfer hblocks

theorem Able.session (ha : w.Able reader r) (h : Labelled.Reachable (system rs config reader) w)
    (hs : w.Sound rs config reader L) :
    Session.Able rs L reader config.hello r (w.peers r).sunk (w.peers r).session :=
  ⟨hs.blocks, (hs.peers r).tracks, ((endsWell_of_reachable htransfer h r).shaped ha.id hblocks).1,
    by simpa using (hs.peers r).running ha.running, ha.clean⟩

/-- A turn of a receiver that knows the total: it ends well and says so, or goes on with no less
than it had. -/
theorem Able.next_turn (ha : w.Able reader r) (h : Labelled.Reachable (system rs config reader) w)
    (hd : w.Drained) {now : ℕ} {b : Session.Branch}
    (henabled : (w.peers r).session.Enabled now b) (hdelivers : w.Delivers r b)
    (hended : ((w.peers r).session.branch now b).ended = none)
    (htotal : ((w.peers r).session.branch now b).session.totalBytes ≠ none) {sink : Sink}
    (hopen : sink.closed = false) :
    ∃ w', (system rs config reader).next (.turn r now b sink) w = some w' ∧ w'.Drained ∧
      Beside r w w' ∧ w'.peers r =
        { session := ((w.peers r).session.turn rs now b sink).session
          sunk := (w.peers r).sunk ++ ((w.peers r).session.turn rs now b sink).handed
          ended := ((w.peers r).session.turn rs now b sink).ended } ∧
      w'.uplink = w.uplink ++ ((w.peers r).session.turn rs now b sink).sent ∧
      (w'.Finished (World.slices config reader) r ∨
        w'.Able reader r ∧ ((w.peers r).session.turn rs now b sink).ended = none) := by
  obtain ⟨L, hs⟩ := sound_of_reachable h
  have hable := ha.session htransfer hblocks h hs
  have hhonest := hs.branchHonest hdelivers
  have hnext : (system rs config reader).next (.turn r now b sink) w =
      some (w.afterTurn r ((w.peers r).session.turn rs now b sink)) := by
    simp only [system, next, stepTurn]
    exact if_pos ⟨by rw [ha.running]; rfl, henabled, hdelivers⟩
  have hbeside : Beside r w (w.afterTurn r ((w.peers r).session.turn rs now b sink)) :=
    ⟨fun r' hr => peers_afterTurn_of_ne w hr _, List.subset_append_left _ _, fun _ => rfl, rfl⟩
  have hself := w.peers_afterTurn_self r ((w.peers r).session.turn rs now b sink)
  have hquiet : (w.afterTurn r ((w.peers r).session.turn rs now b sink)).Quiet :=
    ⟨hd.quiet.todo, hd.quiet.outbound, hd.quiet.feedback⟩
  refine ⟨_, hnext, ⟨hd.running, hquiet, hd.drained, hd.draining, hd.told⟩, hbeside, hself, rfl, ?_⟩
  rcases hable.turn now hhonest hended htotal hopen with hrun | ⟨summary, hok⟩
  · have hclean := Session.turn_clean hs.blocks hable.tracks hable.delivered hable.clean now hhonest
      sink fun hleak => htotal hleak.2.1
    refine .inr ⟨⟨ha.id, ha.member, by rw [hself]; exact hrun, ?_⟩, hrun⟩
    rw [hself]
    exact hclean.running hrun
  · obtain ⟨L', hs'⟩ := sound_of_reachable (h.step trivial hnext)
    obtain ⟨stats, hsent, hid, hneeded, transferId, hleave⟩ :=
      Session.report_of_turn_ok rs _ now b sink hok
    have hid' := (floors_of_reachable h).ids r
    have hall := Session.slices_le_of_not_running (hs'.peers r).tracks
      (by rw [hself]; exact Session.not_running_of_turn_ok rs _ now b sink hok)
    rw [hself, hs'.slices] at hall
    refine .inl ⟨⟨summary, by rw [hself]; exact hok⟩,
      ⟨stats, List.mem_append_right _ hsent, hid.trans hid', ?_⟩,
      transferId, List.mem_append_right _ (by rw [hid'] at hleave; exact hleave)⟩
    rw [hneeded]
    exact hall

/-- What a receiver has asked for can be brought to it. -/
theorem Able.canReach_supplied (ha : w.Able reader r)
    (h : Labelled.Reachable (system rs config reader) w)
    (hfits : FitsWindow reader config.geometry) (hd : w.Drained) (hs : w.Sound rs config reader L)
    (htold : (w.peers r).session.totalBytes ≠ none) {nak : Nak} (hmem : .nak nak ∈ w.uplink)
    (hid : nak.receiverId = r) {slot : ℕ} (hslot : slot ∈ nak.missing)
    (hnext : w.reached r ≤ nak.sliceNo) (hlt : slot < (L.slice nak.sliceNo).length) (now : ℕ) :
    Labelled.CanReachAt (system rs config reader) Action.readings (fun w' _ =>
      w'.Drained ∧ Beside r w w' ∧
      (w'.Finished (World.slices config reader) r ∨ w'.Able reader r ∧
        Assembler.Advanced (w.peers r).session.assembler (w'.peers r).session.assembler ∧
        (w'.reached r ≤ nak.sliceNo →
          (w'.peers r).session.assembler.has nak.sliceNo slot))) w now := by
  obtain ⟨p, hp⟩ := Table.mem_iff_lookup.mp (Group.contains_iff.mp ha.member)
  have hfloor := ((floors_of_reachable h).behind r p hp).2.trans hnext
  obtain ⟨time₁, htime₁, hrested⟩ := w.exists_rested now
  obtain ⟨w₁, slots, hnext₁, honward₁, htask₁, hout₁, hfeedback₁, hpassed, -⟩ :=
    next_nak h hd.running hmem (hid ▸ ha.member) hfloor hslot (hrested _)
  have hempty₁ : w₁.outbound = [] := hout₁.trans hd.quiet.outbound
  rw [hd.quiet.feedback, List.nil_append] at hfeedback₁
  obtain ⟨width, floor, payload, hresent⟩ :=
    hd.mem_resend h hfits.readable hs hfloor hlt hpassed
  have h₁ : Labelled.Reachable (system rs config reader) w₁ := h.step trivial hnext₁
  have htodo₁ : w₁.task.todo = [] := by rw [htask₁]; exact hd.quiet.todo
  refine .once htime₁ hnext₁ rfl (((canReach_resent hfits.readable h₁ honward₁.running htodo₁
    hempty₁ hfeedback₁ time₁).reachable h₁).trans ?_)
  rintro w₂ time₂ ⟨h₂, honward₂, hquiet₂, hsent⟩
  have honward := honward₁.trans honward₂
  have hd₂ := honward.drained_of_quiet hd hquiet₂
  have ha₂ := honward.able ha
  have hpeers : w₂.peers r = w.peers r := by rw [honward.peers]
  have hair : w₂.OnAir (.shard nak.sliceNo slot width floor payload) :=
    hsent _ (by rw [htask₁]; exact hresent)
  obtain ⟨frame, hframe, hsliceNo, hslotNo, -, -, -⟩ := hair r
  obtain ⟨L₂, hs₂⟩ := sound_of_reachable h₂
  have hable := ha₂.session htransfer hblocks h₂ hs₂
  have hdelivers := delivers_singleton hframe time₂
  have henabled : (w₂.peers r).session.Enabled time₂ (.packets [(time₂, .shard frame)]) := trivial
  have hopen : Sink.closed ⟨0, false⟩ = false := rfl
  have hbound : L.slices ≤ L₂.geometry.maxLiveSlices := by
    rw [hs.slices, hs₂.geometry]
    exact hfits.slices_le
  have hslice : nak.sliceNo < L.slices :=
    Ledger.length_slice_pos_iff.mp (Nat.zero_lt_of_lt hlt)
  have hlive := L₂.geometry.maxLiveSlices_lt
  have hparity := L₂.geometry.parityPerSlice_lt
  have hcount : L₂.geometry.blocksPerSlice ≤ 840 := by rw [hs₂.geometry]; exact hblocks
  have hreached : (w₂.peers r).session.assembler.nextNeeded ≤ nak.sliceNo := by
    rw [hpeers]
    exact hnext
  obtain ⟨hended, htotal, hheld⟩ := hable.branch_shard htransfer ha.id hblocks (by omega) (by omega)
    (hs₂.air r _ hframe) (hs₂.branch_typed hdelivers _ List.mem_cons_self)
    (by rw [hsliceNo]; exact hreached) (by rw [hsliceNo]; omega) time₂
  obtain ⟨w₃, hnext₃, hd₃, hbeside₃, hself, -, hcase⟩ :=
    ha₂.next_turn htransfer hblocks h₂ hd₂ henabled hdelivers hended
      (by rw [htotal, hpeers]; exact htold) hopen
  refine .step le_rfl hnext₃ ⟨List.cons_ne_nil _ _, by simp [Action.readings]⟩
    (.here ⟨hd₃, (honward.beside r).trans hbeside₃, ?_⟩)
  refine hcase.imp_right fun hable₃ => ⟨hable₃.1, ?_, fun hstill => ?_⟩
  · rw [hself, ← hpeers]
    exact Session.advanced_of_turn rs _ time₂ _ _
  · have hadvanced := Session.turn_advanced rs (w₂.peers r).session time₂
      (.packets [(time₂, .shard frame)]) ⟨0, false⟩
    rw [reached, hself] at hstill
    rw [hself]
    rw [hsliceNo, hslotNo] at hheld
    exact hadvanced.held _ _ hstill hheld

/-- A turn after which it lacks nothing more is followed by one that ends well. -/
theorem Able.canReach_concluded (ha : w.Able reader r)
    (h : Labelled.Reachable (system rs config reader) w) (hd : w.Drained)
    (htold : (w.peers r).session.totalBytes ≠ none) {sink : Sink} (hopen : sink.closed = false)
    {now : ℕ} {summary : TransferSummary}
    (hok : ((w.peers r).session.turn rs now .statsTick sink).ended =
      some (.returned (.ok summary))) :
    Labelled.CanReachAt (system rs config reader) Action.readings (fun w' _ =>
      w'.Drained ∧ Beside r w w' ∧ w'.Finished (World.slices config reader) r) w now := by
  have henabled : (w.peers r).session.Enabled now .statsTick := trivial
  have hdelivers : w.Delivers r .statsTick := trivial
  obtain ⟨w', hnext, hd', hbeside, -, -, hfinished | ⟨-, hrun⟩⟩ :=
    ha.next_turn htransfer hblocks h hd henabled hdelivers rfl htold hopen
  · exact .once le_rfl hnext rfl (.here ⟨hd', hbeside, hfinished⟩)
  · rw [hrun] at hok
    cases hok

/-- Round by round: a receiver ends well, or lacks less than before. -/
theorem Able.canReach_less (ha : w.Able reader r)
    (h : Labelled.Reachable (system rs config reader) w)
    (hfits : FitsWindow reader config.geometry) (hd : w.Drained) (now : ℕ) :
    Labelled.CanReachAt (system rs config reader) Action.readings (fun w' _ =>
      w'.Drained ∧ Beside r w w' ∧ (w'.Finished (World.slices config reader) r ∨
        w'.Able reader r ∧ lack config reader w' r < lack config reader w r)) w now := by
  obtain ⟨done, hair⟩ := hd.told
  obtain ⟨L, hs⟩ := sound_of_reachable h
  have hable := ha.session htransfer hblocks h hs
  have hlack (w' : World) : lack config reader w' r =
      ((w'.peers r).session.assembler.lacking L.slices).card := by rw [lack, hs.slices]
  rw [hlack w]
  obtain ⟨time, htime, hended, htotal, htold⟩ :=
    hable.told htransfer ha.id hblocks (hs.air r _ (hair r)) now
  set s := (w.peers r).session with hsession
  let b : Session.Branch := .packets [(time, .control (.done done))]
  let sink : Sink := ⟨s.pending.length + (reader.blocks L.geometry).length, false⟩
  have henabled : s.Enabled time b := trivial
  have hopen : sink.closed = false := rfl
  have hdelivers : w.Delivers r b := delivers_singleton (hair r) time
  obtain ⟨w₁, hnext₁, hd₁, hbeside₁, hself, huplink, hcase⟩ :=
    ha.next_turn htransfer hblocks h hd henabled hdelivers hended htotal hopen
  have h₁ : Labelled.Reachable (system rs config reader) w₁ := h.step trivial hnext₁
  refine .step htime hnext₁ ⟨List.cons_ne_nil _ _, by simp [Action.readings, b]⟩ ?_
  rcases hcase with hfinished | ⟨ha₁, hrun⟩
  · exact .here ⟨hd₁, hbeside₁, .inl hfinished⟩
  obtain ⟨hknown, hnext⟩ := htold hrun
  have hturn : (w₁.peers r).session = (s.turn rs time b sink).session := by rw [hself]
  obtain ⟨L₁, hs₁⟩ := sound_of_reachable h₁
  have htold₁ : (w₁.peers r).session.totalBytes ≠ none := by
    rcases (hs₁.peers r).tracks.totals with ⟨-, hnone⟩ | ⟨-, hsome, -⟩
    · rw [hturn] at hnone
      exact absurd hnone hknown
    · exact fun hnone => Option.some_ne_none _ (hsome.symm.trans hnone)
  rcases hnext with ⟨summary, hok⟩ | ⟨k, slot, rest, hsent, hslot, hplace⟩
  · rw [← hturn] at hok
    refine (ha₁.canReach_concluded htransfer hblocks h₁ hd₁ htold₁ hopen hok).mono ?_
    rintro w₂ time₂ ⟨hd₂, hbeside₂, hfinished⟩
    exact ⟨hd₂, hbeside₁.trans hbeside₂, .inl hfinished⟩
  have hadvanced : Assembler.Advanced s.assembler (w₁.peers r).session.assembler := by
    rw [hturn]
    exact Session.advanced_of_turn rs s time b sink
  by_cases hstill : w₁.reached r ≤ k
  swap
  · -- released in between
    refine .here ⟨hd₁, hbeside₁, .inr ⟨ha₁, ?_⟩⟩
    rw [hlack]
    exact hadvanced.card_lacking_lt hplace fun hle => absurd hle hstill
  have hasked : .nak ⟨s.transferId, s.receiverId, k, slot :: rest⟩ ∈ w₁.uplink := by
    rw [huplink]
    exact List.mem_append_right _ hsent
  have hslice : slot < (L₁.slice k).length := by
    rwa [Ledger.slice, hs₁.blocks, hs₁.geometry, ← hs.geometry, ← hs.blocks]
  refine (ha₁.canReach_supplied htransfer hblocks h₁ hfits hd₁ hs₁ htold₁ hasked
    ((floors_of_reachable h).ids r) List.mem_cons_self hstill hslice time).mono ?_
  rintro w₂ time₂ ⟨hd₂, hbeside₂, hfinished | ⟨ha₂, hadvanced₂, hheld⟩⟩
  · exact ⟨hd₂, hbeside₁.trans hbeside₂, .inl hfinished⟩
  · refine ⟨hd₂, hbeside₁.trans hbeside₂, .inr ⟨ha₂, ?_⟩⟩
    rw [hlack]
    exact (hadvanced.trans hadvanced₂).card_lacking_lt hplace hheld

/-- Whoever runs as it should can be given all of the input. -/
theorem Able.canReach_finished (ha : w.Able reader r)
    (h : Labelled.Reachable (system rs config reader) w)
    (hfits : FitsWindow reader config.geometry) (hd : w.Drained) (now : ℕ) :
    Labelled.CanReachAt (system rs config reader) Action.readings (fun w' _ =>
      w'.Drained ∧ Beside r w w' ∧ w'.Finished (World.slices config reader) r) w now := by
  refine Labelled.canReachAt_of_rank (I := fun w' _ =>
    Labelled.Reachable (system rs config reader) w' ∧ w'.Drained ∧ Beside r w w' ∧
      w'.Able reader r) (fun w => lack config reader w r) ?_ ⟨h, hd, .refl r w, ha⟩
  rintro w₁ time ⟨h₁, hd₁, hbeside₁, ha₁⟩
  refine ((ha₁.canReach_less htransfer hblocks h₁ hfits hd₁ time).reachable h₁).mono ?_
  rintro w₂ time₂ ⟨h₂, hd₂, hbeside₂, hfinished | ⟨ha₂, hless⟩⟩
  · exact .inl ⟨hd₂, hbeside₁.trans hbeside₂, hfinished⟩
  · exact .inr ⟨⟨h₂, hd₂, hbeside₁.trans hbeside₂, ha₂⟩, hless⟩

end Room

end World
end Scuttlecast
