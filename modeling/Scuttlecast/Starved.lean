import Scuttlecast.Stall
import Scuttlecast.EndToEnd

/-! The run on which a lone receiver hears of nothing: every shard is lost on its way until the
window is full. It fills, and the transfer is stuck, exactly where the input holds as many full
slices as the window. -/
namespace Scuttlecast

namespace SlicerTask

variable {rs : ReedSolomon} {config : Config} {r : Reader} {t : SlicerTask} {p : ℕ}

/-- At its `select!`, with the first `p` blocks read, nothing dropped, and only full slices
sealed. -/
structure Reading (rs : ReedSolomon) (g : Geometry) (r : Reader) (p : ℕ) (t : SlicerTask) :
    Prop where
  slicer : ∃ L : Ledger, L.geometry = g ∧ t.slicer.Tracks rs L r p
  base : t.slicer.window.base = 0
  full : t.slicer.window.current.sliceNo * g.blocksPerSlice ≤ p
  input : t.input = ((r.blocks g).drop p).map .ok ++ r.fault.toList.map .error
  drained : t.drained = false
  todo : t.todo = []
  ended : t.ended = none

/-- Until the window is full, the next block is read, and its messages come to the end of the
queue before anything else happens. -/
theorem Reading.read {g : Geometry} (h : t.Reading rs g r p)
    (hp : p < g.maxLiveSlices * g.blocksPerSlice) (hmore : p < (r.blocks g).length) :
    ∃ t', t.read rs = some t' ∧ t'.todo ≠ [] ∧ NoEof t'.todo ∧
      ({ t' with todo := [] }).Reading rs g r (p + 1) := by
  obtain ⟨L, rfl, hs⟩ := h.slicer
  have hpos := L.geometry.blocksPerSlice_pos
  have hbpslt := L.geometry.blocksPerSlice_lt
  have hlive := L.geometry.maxLiveSlices_lt
  have hsize := L.geometry.blockSize_lt
  have hbase := hs.window.base_add
  have hno : t.slicer.window.current.sliceNo < L.geometry.maxLiveSlices :=
    Nat.lt_of_mul_lt_mul_right (h.full.trans_lt hp)
  have hroom : t.slicer.window.live.length < L.geometry.maxLiveSlices := by
    rw [h.base] at hbase
    omega
  obtain ⟨block, hblock⟩ : ∃ block, (r.blocks L.geometry)[p]? = some block :=
    ⟨_, List.getElem?_eq_getElem hmore⟩
  have hcount : p < 2 ^ 32 :=
    hp.trans_le ((Nat.mul_le_mul hlive.le hbpslt.le).trans (by norm_num))
  have htotal : t.slicer.totalBytes + block.length < 2 ^ 64 := by
    have htake := Reader.length_flatten_take_le L.geometry r p
    rw [hs.totalBytes]
    have hlen := (Reader.length_block hblock).1
    have hmul : (p + 1) * L.geometry.blockSize < 2 ^ 32 * 2 ^ 32 :=
      Nat.mul_lt_mul_of_le_of_lt hcount hsize (by norm_num)
    rw [Nat.succ_mul] at hmul
    omega
  obtain ⟨s, messages, hpush⟩ := hs.exists_push hblock htotal (by omega) (by omega)
  have hnotfull : ¬ t.slicer.window.isFull := by simpa [Window.isFull, hs.geometry] using hroom
  have hcons : t.input = .ok block ::
      (((r.blocks L.geometry).drop (p + 1)).map .ok ++ r.fault.toList.map .error) := by
    rw [h.input, List.drop_eq_getElem_cons hmore]
    rw [List.getElem?_eq_getElem hmore] at hblock
    simp [Option.some.inj hblock]
  obtain ⟨L', hgrows, hs', hbase', tail, hmessages, htail⟩ := hs.push hblock hroom hpush
  refine ⟨{ t with
    slicer := s
    input := ((r.blocks L.geometry).drop (p + 1)).map .ok ++ r.fault.toList.map .error
    todo := messages }, ?_, by simp [hmessages], ?_, ⟨L', hgrows.geometry, hs'⟩, hbase'.trans h.base, ?_, rfl, h.drained, rfl,
    h.ended⟩
  · rw [SlicerTask.read, if_pos ⟨⟨by simp [h.ended], h.todo⟩, by simp [h.drained], hnotfull⟩, hcons]
    simp only [hpush, SlicerTask.begin]
  · rcases htail with ⟨rfl, -, -⟩ | ⟨rfl, -, -⟩ <;>
      simp [hmessages, Slicer.parityMessages, NoEof]
  · have hfull := h.full
    rcases htail with ⟨-, -, hcur⟩ | ⟨-, -, hend⟩
    · simp only [hcur]
      omega
    · simp only [hend]
      omega

end SlicerTask

namespace World

variable {rs : ReedSolomon} {config : Config} {reader : Reader} {w w' : World}

/-- Receiver 0 is alone in the group and has heard of nothing; nothing is on its way to anyone. -/
structure Unheard (w : World) : Prop where
  outbound : w.outbound = []
  feedback : w.feedback = []
  uplink : w.uplink = []
  air : w.air 0 = []
  verdict : w.loop.verdict = none
  draining : w.loop.draining = false
  gathered : w.loop.group.participants.values ≠ []
  alone : ∀ r p, w.loop.group.participants.lookup r = some p → r = 0 ∧ p.nextNeeded = 0
  nextNeeded : (w.peers 0).session.assembler.nextNeeded = 0
  pending : (w.peers 0).session.pending = []
  unaware : (w.peers 0).session.Unaware

/-- Sent to the group, a shard is lost on its way to the one receiver. -/
theorem Unheard.lose (h : w.Unheard) (hreach : Labelled.Reachable (system rs config reader) w)
    (hended : w.task.ended = none) {message : Outbound} {rest : List Outbound}
    (htodo : w.task.todo = message :: rest) (hshard : ∀ bytes blocks, message ≠ .eof bytes blocks) :
    ∃ w', Labelled.Reachable (system rs config reader) w' ∧ w'.Unheard ∧
      w'.task = { w.task with todo := rest } := by
  cases message with
  | eof bytes blocks => exact absurd rfl (hshard bytes blocks)
  | shard k slot width floor payload =>
    let frame : Incoming := .shard
      ⟨slot, width, w.loop.config.transferId % 2 ^ 32, w.loop.seq, k, floor, payload⟩
    let queued : World := { w with
      task := { w.task with todo := rest }
      outbound := [.shard k slot width floor payload]
      emitted := w.emitted ++ [.shard k slot width floor payload] }
    let sent : World := { queued with
      outbound := []
      loop := (w.loop.egress 0 (.shard k slot width floor payload)).loop
      air := fun r => w.air r ++ [frame] }
    have hqueue : (system rs config reader).next .queue w = some queued := by
      simp [system, next, stepQueue, htodo, hended, h.outbound, queued]
    have hegress : (system rs config reader).next (.egress 0) queued = some sent := by
      have hafter : afterLoop { queued with outbound := [] }
          (w.loop.egress 0 (.shard k slot width floor payload)) = sent := by
        rw [afterLoop, LoopOutcome.settle_of_open h.verdict h.gathered h.draining]
        simp [SendLoop.egress, queued, sent, frame]
      have hrun : queued.loop.verdict.isNone := by simp [queued, h.verdict]
      exact (if_pos hrun).trans (congrArg some hafter)
    have hlose : (system rs config reader).next (.loseDown 0 frame) sent =
        some { sent with air := Function.update sent.air 0 [] } := by
      simp [system, next, sent, h.air]
    exact ⟨_, ((hreach.step trivial hqueue).step trivial hegress).step trivial hlose,
      ⟨rfl, h.feedback, h.uplink, by simp, h.verdict, h.draining, h.gathered, h.alone,
        h.nextNeeded, h.pending, h.unaware⟩, rfl⟩

/-- So are all that wait to be sent. -/
theorem Unheard.loseAll (h : w.Unheard) (hreach : Labelled.Reachable (system rs config reader) w)
    (hended : w.task.ended = none) {messages : List Outbound} (htodo : w.task.todo = messages)
    (hshards : SlicerTask.NoEof messages) :
    ∃ w', Labelled.Reachable (system rs config reader) w' ∧ w'.Unheard ∧
      w'.task = { w.task with todo := [] } := by
  induction messages generalizing w with
  | nil => exact ⟨w, hreach, h, by rw [← htodo]⟩
  | cons message rest ih =>
    obtain ⟨w₁, hreach₁, h₁, htask₁⟩ := h.lose hreach hended htodo
      fun bytes blocks heq => hshards bytes blocks (heq ▸ List.mem_cons_self)
    obtain ⟨w₂, hreach₂, h₂, htask₂⟩ := ih h₁ hreach₁ (by rw [htask₁, hended]) (by rw [htask₁])
      fun bytes blocks hmem => hshards bytes blocks (List.mem_cons_of_mem _ hmem)
    exact ⟨w₂, hreach₂, h₂, by rw [htask₂, htask₁]⟩

/-- A transfer to receiver 0 alone, before anything happens. -/
theorem exists_start (rs : ReedSolomon) (reader : Reader) (haccepted : config.geometry.Accepted) :
    ∃ w, start config reader [.join config.transferId 0] 0 = .ok w ∧
      w.task.Reading rs config.geometry reader 0 := by
  obtain ⟨window, hwindow⟩ := Window.exists_new haccepted
  obtain ⟨assembler, hassembler⟩ := Assembler.exists_new haccepted
  have hslicer : Slicer.new config.geometry = .ok ⟨window, 0, 0, 0⟩ := by
    rw [Slicer.new, hwindow]
    rfl
  obtain ⟨w, hstart⟩ : ∃ w, start config reader [.join config.transferId 0] 0 = .ok w := by
    unfold start
    rw [hslicer, hassembler]
    exact ⟨_, rfl⟩
  refine ⟨w, hstart, ?_⟩
  obtain ⟨-, slicer, _, hslicer', _, rfl⟩ := start_eq_ok hstart
  obtain rfl := Except.ok.inj (hslicer.symm.trans hslicer')
  obtain ⟨L, hL, -, htracks, hbase⟩ := Slicer.new_tracks rs reader hslicer
  have hcurrent := congrArg Window.current (Window.new_window hwindow).2.2
  exact ⟨⟨L, hL, htracks⟩, hbase, by simp [hcurrent, Window.Slice.empty],
    by simp [Reader.items_eq_blocks], rfl, rfl, rfl⟩

theorem unheard_start (hstart : start config reader [.join config.transferId 0] 0 = .ok w) :
    w.Unheard := by
  obtain ⟨-, _, assembler, _, hassembler, rfl⟩ := start_eq_ok hstart
  obtain ⟨-, -, hslices, hnext, -, -⟩ := Assembler.new_wf hassembler
  have hpos := assembler.geometry.blocksPerSlice_pos
  refine ⟨rfl, rfl, rfl, rfl, rfl, rfl, List.cons_ne_nil _ _, fun r p hlookup => ?_, hnext, rfl, ?_⟩
  · simp only [SendLoop.new, SendLoop.gather, List.foldl_cons, List.foldl_nil, Group.join,
      Group.markAllSeen, Table.lookup_mapValues, Table.lookup_insert'] at hlookup
    split_ifs at hlookup with hr
    · obtain ⟨q, hq, rfl⟩ := Option.map_eq_some_iff.mp hlookup
      rw [← Option.some.inj hq]
      exact ⟨hr, rfl⟩
    · cases hlookup
  · refine ⟨by simp [Session.fresh, hslices], ⟨0, hpos, ?_⟩, .inl (Nat.zero_le _)⟩
    simp [Session.fresh, Assembler.has, hslices]

/-- So are all shards of the first blocks of the input, up to a full window. -/
theorem exists_unheard (haccepted : config.geometry.Accepted) {p : ℕ}
    (hp : p ≤ config.geometry.maxLiveSlices * config.geometry.blocksPerSlice)
    (hblocks : p ≤ (reader.blocks config.geometry).length) :
    ∃ w, Labelled.Reachable (system rs config reader) w ∧ w.Unheard ∧
      w.task.Reading rs config.geometry reader p := by
  induction p with
  | zero =>
    obtain ⟨w, hstart, hreading⟩ := exists_start rs reader haccepted
    exact ⟨w, .start ⟨_, _, hstart⟩, unheard_start hstart, hreading⟩
  | succ p ih =>
    obtain ⟨w, hreach, h, hreading⟩ := ih (by omega) (by omega)
    obtain ⟨t, hread, -, hshards, hreading'⟩ := hreading.read hp hblocks
    have hnext : (system rs config reader).next .read w = some { w with task := t } := by
      simp [system, next, stepRead, hread]
    have h' : Unheard { w with task := t } := ⟨h.outbound, h.feedback, h.uplink, h.air, h.verdict,
      h.draining, h.gathered, h.alone, h.nextNeeded, h.pending, h.unaware⟩
    obtain ⟨w', hreach', hunheard, htask⟩ :=
      h'.loseAll (hreach.step trivial hnext) hreading'.ended rfl hshards
    exact ⟨w', hreach', hunheard, htask ▸ hreading'⟩

/-- With the window full, nobody can move. -/
theorem Unheard.stuck (h : w.Unheard) (hreach : Labelled.Reachable (system rs config reader) w)
    (hreading : w.task.Reading rs config.geometry reader
      (config.geometry.maxLiveSlices * config.geometry.blocksPerSlice)) : w.Stuck rs := by
  have hzero {r : ℕ} (hr : r ∈ w.loop.group.participants) : r = 0 := by
    obtain ⟨p, hp⟩ := Table.mem_iff_lookup.mp hr
    exact (h.alone r p hp).1
  refine (stuck_iff_unaware hreach).mpr ⟨⟨hreading.drained, ?_, hreading.todo, h.outbound,
    h.feedback, by simp [h.uplink], by simp [h.uplink], fun r hr frame hf => ?_, fun r p hp => ?_,
    fun r hr => ?_⟩, fun r hr => ?_⟩
  · obtain ⟨L, hgeometry, hs⟩ := hreading.slicer
    have hpos := config.geometry.blocksPerSlice_pos
    have hbase := hs.window.base_add
    have hshort := hs.short
    rw [hs.window.length_data, hgeometry] at hshort
    have hfull : config.geometry.maxLiveSlices ≤ w.task.slicer.window.current.sliceNo := by
      refine Nat.le_of_lt_succ (Nat.lt_of_mul_lt_mul_right (a := config.geometry.blocksPerSlice) ?_)
      rw [Nat.succ_mul]
      omega
    rw [hreading.base] at hbase
    simp only [Window.isFull, hs.geometry, hgeometry, decide_eq_true_eq]
    omega
  · rw [hzero hr, h.air] at hf
    cases hf
  · obtain ⟨rfl, hzero⟩ := h.alone r p hp
    rw [hzero, h.nextNeeded]
  · rw [hzero hr, h.pending]
  · rw [hzero hr]
    exact h.unaware

/-- Transfers that cannot get stuck are those of fewer blocks than a window of full slices holds;
and a state of a run is stuck exactly where it is idle and no participant knows of anything to
ask for. -/
theorem stuck_iff (haccepted : config.geometry.Accepted) :
    ((∀ w, Labelled.Reachable (system rs config reader) w → ¬ w.Stuck rs) ↔
      (reader.blocks config.geometry).length <
        config.geometry.maxLiveSlices * config.geometry.blocksPerSlice) ∧
    ∀ w, Labelled.Reachable (system rs config reader) w →
      (w.Stuck rs ↔ w.Idle ∧ ∀ r ∈ w.loop.group.participants, (w.peers r).session.Unaware) := by
  refine ⟨⟨fun hnever => ?_, fun hshort w hreach hstuck => ?_⟩, fun w => stuck_iff_unaware⟩
  · by_contra hlong
    have hrun : ∃ w, Labelled.Reachable (system rs config reader) w ∧ w.Unheard ∧
        w.task.Reading rs config.geometry reader _ :=
      exists_unheard haccepted le_rfl (Nat.le_of_not_lt hlong)
    obtain ⟨w, hreach, hunheard, hreading⟩ := hrun
    exact hnever w hreach (hunheard.stuck hreach hreading)
  · have := length_of_full hreach hstuck.idle.undrained hstuck.idle.full
    omega

/-- The one shard of a short input, lost on its way. -/
theorem window_of_one_gets_stuck : ∃ w,
    Labelled.Reachable (system .interpolated (.tiny 1) (.single [1])) w ∧
      w.Stuck .interpolated := by
  obtain ⟨w₀, hstart, w, hrun, hundrained, hfull, htodo, houtbound, hfeedback, huplink, hair,
      hgroup, hpending, hnext, hready, hgaps⟩ : ∃ w₀,
      start (.tiny 1) (.single [1]) [.join 7 0] 0 = .ok w₀ ∧ ∃ w,
      Labelled.exec (system .interpolated (.tiny 1) (.single [1]))
        [.read, .queue, .egress 0, .loseDown 0 paddedShard] w₀ = some w ∧
      w.task.drained = false ∧ w.task.slicer.window.isFull = true ∧ w.task.todo = [] ∧
      w.outbound = [] ∧ w.feedback = [] ∧ w.uplink = [] ∧ w.air 0 = [] ∧
      w.loop.group.participants.entries = [⟨0, { Participant.new with lastSeen := some 0 }⟩] ∧
      (w.peers 0).session.pending = [] ∧ (w.peers 0).session.assembler.nextNeeded = 0 ∧
      (w.peers 0).session.assembler.takeReady .interpolated =
        .ok ([], (w.peers 0).session.assembler) ∧
      (w.peers 0).session.assembler.gaps (w.peers 0).session.emitFloor = [] := by
    unfold start
    rw [Reader.items_byte]
    exact ⟨_, rfl, _, rfl, rfl, rfl, rfl, rfl, rfl, rfl, rfl, rfl, rfl, rfl, rfl, rfl⟩
  have hmember {r : ℕ} {p : Participant} (hp : w.loop.group.participants.lookup r = some p) :
      r = 0 ∧ p.nextNeeded = 0 := by
    rw [Table.lookup_eq_some_iff, hgroup, List.mem_singleton] at hp
    cases hp
    exact ⟨rfl, rfl⟩
  have hzero {r : ℕ} (hr : r ∈ w.loop.group.participants) : r = 0 := by
    obtain ⟨p, hp⟩ := Table.mem_iff_lookup.mp hr
    exact (hmember hp).1
  refine ⟨w, .exec (.start ⟨_, _, hstart⟩) hrun, ⟨hundrained, hfull, htodo, houtbound, hfeedback,
    by simp [huplink], by simp [huplink], fun r hr frame hf => ?_, fun r p hp => ?_,
    fun r hr => ?_⟩, fun r hr => ?_⟩
  · rw [hzero hr, hair] at hf
    cases hf
  · obtain ⟨rfl, hat⟩ := hmember hp
    rw [hat, hnext]
  · rw [hzero hr, hpending]
  · rw [hzero hr]
    exact ⟨⟨_, hready⟩, by simp [hgaps]⟩

theorem stuck_iff_window_of_two :
    (Config.tiny 2).geometry.Accepted ∧
      ∀ w, Labelled.Reachable (system .interpolated (.tiny 2) (.single [1])) w →
        ¬ w.Stuck .interpolated :=
  ⟨.inl rfl, (stuck_iff (.inl rfl)).1.mpr (by decide)⟩

end World

end Scuttlecast
