import Scuttlecast.Receiver.Work
import Scuttlecast.Requests
import Scuttlecast.EndToEnd
import Scuttlecast.Endings
import Mathlib.Data.Finset.Prod

/-! A session that knows the total asks for what it lacks, takes what it is sent, and lacks less
afterwards; when it lacks nothing, it ends well. -/
namespace Scuttlecast
namespace Assembler

variable {rs : ReedSolomon} {L : Ledger} {a a' a'' : Assembler} {k slot n : ℕ}

/-- The same assembler later on: what is not yet released is still held. -/
structure Advanced (a a' : Assembler) : Prop where
  geometry : a'.geometry = a.geometry
  total : a.totalBlocks ≠ none → a'.totalBlocks ≠ none
  next : a.nextNeeded ≤ a'.nextNeeded
  held : ∀ k slot, a'.nextNeeded ≤ k → a.has k slot → a'.has k slot

theorem Advanced.refl (a : Assembler) : Advanced a a := ⟨rfl, id, le_rfl, fun _ _ _ h => h⟩

theorem Advanced.trans (h : Advanced a a') (h' : Advanced a' a'') : Advanced a a'' :=
  ⟨h'.geometry.trans h.geometry, fun ht => h'.total (h.total ht), h.next.trans h'.next,
    fun k slot hk hheld => h'.held k slot hk (h.held k slot (h'.next.trans hk) hheld)⟩

/-- Whatever a session does with its assembler makes it a later one. -/
theorem Advanced.of_worked {f f' : ℕ} (h : Session.Worked rs (fun _ => True) a f a' f') :
    Advanced a a' := by
  induction h with
  | refl => exact .refl a
  | shard _ _ hi ih =>
    have hframe := (Session.insert_frame hi).1.ge
    rcases insert_eq_ok hi with ⟨_, rfl, _⟩ | ⟨_, _, _, _, rfl⟩
    · exact ih.trans ⟨rfl, id, hframe, fun _ _ _ => has_of_insert hi⟩
    · exact ih.trans ⟨rfl, id, hframe, fun _ _ _ => has_of_insert hi⟩
  | floor _ _ ih => exact ih
  | done _ _ ih => exact ih.trans ⟨rfl, fun _ => by simp [onDone], le_rfl, fun _ _ _ h => h⟩
  | release _ ht ih =>
    have hreleased := (takeReady_eq_ok.mp ht).1
    have hframe := hreleased.frame
    exact ih.trans ⟨hframe.2.2.1, fun ht => hframe.2.1.symm ▸ ht, hframe.1, fun k slot hk hheld =>
      hreleased.has_iff.mpr ⟨hheld, fun hk' => absurd hk'.2 (Nat.not_lt.mpr hk)⟩⟩

/-- Where the data of the first `n` slices is still to come, as far as they are not released. -/
def lacking (a : Assembler) (n : ℕ) : Finset (ℕ × ℕ) :=
  (Finset.range n ×ˢ Finset.range a.geometry.blocksPerSlice).filter fun place =>
    a.nextNeeded ≤ place.1 ∧ a.has place.1 place.2 = false

theorem mem_lacking {place : ℕ × ℕ} : place ∈ a.lacking n ↔ place.1 < n ∧
    place.2 < a.geometry.blocksPerSlice ∧ a.nextNeeded ≤ place.1 ∧
      a.has place.1 place.2 = false := by
  simp [lacking, and_assoc]

theorem Advanced.lacking_subset (h : Advanced a a') (n : ℕ) : a'.lacking n ⊆ a.lacking n := by
  intro place hplace
  obtain ⟨hn, hslot, hnext, hfree⟩ := mem_lacking.mp hplace
  refine mem_lacking.mpr ⟨hn, h.geometry ▸ hslot, h.next.trans hnext, ?_⟩
  by_contra hheld
  have hstill := h.held place.1 place.2 hnext (by simpa using hheld)
  rw [hfree] at hstill
  cases hstill

/-- A shard that was lacking and has come makes it less. -/
theorem Advanced.card_lacking_lt (h : Advanced a a') (hlacks : (k, slot) ∈ a.lacking n)
    (hcame : a'.nextNeeded ≤ k → a'.has k slot) :
    (a'.lacking n).card < (a.lacking n).card := by
  refine Finset.card_lt_card ((Finset.ssubset_iff_of_subset (h.lacking_subset n)).mpr
    ⟨(k, slot), hlacks, fun hmem => ?_⟩)
  obtain ⟨-, -, hnext, hfree⟩ := mem_lacking.mp hmem
  rw [hcame hnext] at hfree
  cases hfree

end Assembler

namespace Session

variable {rs : ReedSolomon} {L : Ledger} {r : Reader} {hello : Hello} {receiverId : ℕ}
  {sunk : List Bytes} {s : Session}

/-- A session that runs as it should: nothing false was said to it, it has its ids and shape, and
what it has given out and still holds for its sink begins the input. -/
structure Able (rs : ReedSolomon) (L : Ledger) (r : Reader) (hello : Hello) (receiverId : ℕ)
    (sunk : List Bytes) (s : Session) : Prop where
  blocks : L.blocks = (r.blocks L.geometry).map (Slicer.padded L.geometry)
  tracks : s.Tracks rs L r
  shaped : Shaped hello receiverId s
  delivered : s.Delivered L r sunk
  clean : (sunk ++ s.pending).flatten <+: r.bytes

theorem onArrivals_singleton (s : Session) (now : ℕ) (arrival : Incoming) :
    s.onArrivals [(now, arrival)] = s.onArrival now arrival := by
  rw [onArrivals]
  rcases hended : (s.onArrival now arrival).ended with _ | e
  · rw [Outcome.andThen_of_running hended]
    simp only [onArrivals, List.append_nil, ← hended]
  · exact Outcome.andThen_of_ended hended

/-- Once the total is known, a hand-over to an open sink is followed by another turn or by
success. -/
theorem Able.turn (h : Able rs L r hello receiverId sunk s) (now : ℕ) {b : Branch}
    (hb : BranchHonest rs L r b) (hended : (s.branch now b).ended = none)
    (htotal : (s.branch now b).session.totalBytes ≠ none) {sink : Sink}
    (hopen : sink.closed = false) :
    (s.turn rs now b sink).ended = none ∨
      ∃ summary, (s.turn rs now b sink).ended = some (.returned (.ok summary)) := by
  have hbranch := h.tracks.branch now hb
  have hslices : L.slices < 2 ^ 32 := by
    rcases hbranch.tracks.totals with ⟨hnone, -⟩ | ⟨-, -, -, hlt⟩
    · exact absurd hnone htotal
    · exact hlt
  have hover : (s.beforeGuard rs now b sink).ended = none := by
    rw [beforeGuard, Outcome.andThen_of_running hended]
    unfold handOver
    dsimp only
    split
    · next p hp =>
      unfold refill at hp
      split_ifs at hp
      rcases bind_error_iff.mp hp with hp | ⟨_, _, hp⟩
      · exact absurd (hbranch.tracks.assembler.takeReady_error hp).2 (Nat.not_le.mpr hslices)
      · cases hp
    · simp [hopen]
  rcases turn_cases rs s now b sink with ⟨-, heq | ⟨-, hrun⟩⟩ | ⟨-, hstop, heq⟩
  · exact .inl (heq ▸ hover)
  · have hturn : s.turn rs now b sink = (s.beforeGuard rs now b sink).andThen fun s =>
        if s.Running then { session := s } else s.conclude now := rfl
    rw [hturn, Outcome.andThen_of_running hover, if_pos hrun]
    exact .inl rfl
  · have hcounted := (turn_clean h.blocks h.tracks h.delivered h.clean now hb sink
      fun hleak => htotal hleak.2.1).counted
    rw [heq, Outcome.andThen_of_running hover] at hcounted ⊢
    rcases hcheck : (s.beforeGuard rs now b sink).session.checkByteTotal with e | _
    · obtain ⟨expected, received, rfl⟩ : ∃ expected received,
          e = .byteCountMismatch expected received := by
        unfold checkByteTotal at hcheck
        split at hcheck
        · split_ifs at hcheck
          exact ⟨_, _, (Except.error.inj hcheck).symm⟩
        · cases hcheck
      rw [conclude, hcheck] at hcounted
      exact absurd rfl (hcounted expected received)
    · rw [conclude_of_check hcheck]
      exact .inr ⟨_, rfl⟩

/-- What a branch sends, its turn sends. -/
theorem mem_turn_sent {now : ℕ} {b : Branch} {sink : Sink} {m : Message}
    (h : m ∈ (s.branch now b).sent) : m ∈ (s.turn rs now b sink).sent := by
  have hthen {o : Outcome} {f : Session → Outcome} (ho : m ∈ o.sent) : m ∈ (o.andThen f).sent := by
    rcases o.andThen_cases f with ⟨_, _, heq⟩ | ⟨_, heq⟩ <;> rw [heq]
    · exact ho
    · exact List.mem_append_left _ ho
  exact hthen (hthen h)

/-- So does all of a turn. -/
theorem advanced_of_turn (rs : ReedSolomon) (s : Session) (now : ℕ) (b : Branch) (sink : Sink) :
    Assembler.Advanced s.assembler (s.turn rs now b sink).session.assembler := by
  have hgiven : b.Given fun _ => True := by cases b <;> simp [Branch.Given]
  exact .of_worked (turn_works rs s now sink hgiven)

/-- What a turn does after its branch makes the assembler a later one. -/
theorem turn_advanced (rs : ReedSolomon) (s : Session) (now : ℕ) (b : Branch) (sink : Sink) :
    Assembler.Advanced (s.branch now b).session.assembler (s.turn rs now b sink).session.assembler := by
  have hturn : s.turn rs now b sink = (s.beforeGuard rs now b sink).andThen fun s =>
      if s.Running then { session := s } else s.conclude now := rfl
  have hbefore : Assembler.Advanced (s.branch now b).session.assembler
      (s.beforeGuard rs now b sink).session.assembler := by
    rcases (s.branch now b).andThen_cases fun s => s.handOver rs sink now with
      ⟨_, _, heq⟩ | ⟨_, heq⟩ <;> rw [beforeGuard, heq]
    · exact .refl _
    · exact .of_worked (handOver_works _ sink now)
  rw [hturn]
  rcases (s.beforeGuard rs now b sink).andThen_cases fun s =>
    if s.Running then { session := s } else s.conclude now with ⟨_, _, heq⟩ | ⟨_, heq⟩ <;> rw [heq]
  · exact hbefore
  · refine hbefore.trans ?_
    split_ifs
    · exact .refl _
    · have hworks (s : Session) : Works rs (fun _ => True) s (s.conclude now) :=
        conclude_works s now
      exact .of_worked (hworks _)

/-- A session that ends in success says so in a last report, and leaves. -/
theorem report_of_turn_ok (rs : ReedSolomon) (s : Session) (now : ℕ) (b : Branch) (sink : Sink)
    {summary : TransferSummary}
    (hok : (s.turn rs now b sink).ended = some (.returned (.ok summary))) :
    ∃ stats, .stats stats ∈ (s.turn rs now b sink).sent ∧ stats.receiverId = s.receiverId ∧
      stats.nextNeededSlice = (s.turn rs now b sink).session.assembler.nextNeeded ∧
      ∃ transferId, .leave transferId s.receiverId ∈ (s.turn rs now b sink).sent := by
  have hid := (turn_follows rs s now b sink).receiverId
  rcases turn_cases rs s now b sink with ⟨h, -⟩ | ⟨hended, -, heq⟩
  · exact absurd hok (h.not_ok summary)
  · rw [heq, Outcome.andThen_of_running hended] at hok hid ⊢
    rcases hcheck : (s.beforeGuard rs now b sink).session.checkByteTotal with e | _
    · rw [conclude, hcheck] at hok
      simp [Outcome.fail] at hok
    · rw [conclude_of_check hcheck] at hid ⊢
      refine ⟨_, List.mem_append_right _ (List.mem_append_left _ List.mem_cons_self), hid, rfl,
        (s.beforeGuard rs now b sink).session.transferId, ?_⟩
      rw [← hid]
      exact List.mem_append_right _ List.mem_concat_self

/-- Long enough after all requests so far, a request for any slice is due. -/
theorem exists_due (s : Session) (earliest : ℕ) : ∃ now, earliest ≤ now ∧
    ∀ k sent, s.naks.sent.lookup k = some sent → renakInterval ≤ now - sent := by
  obtain ⟨latest, hlatest⟩ := Table.exists_bound s.naks.sent id
  refine ⟨max earliest (latest + renakInterval), Nat.le_max_left .., fun k sent hsent => ?_⟩
  have hle : sent ≤ latest := hlatest k sent hsent
  omega

section Room

variable (htransfer : hello.transferId < 2 ^ 64) (hreceiver : receiverId < 2 ^ 64)
  (hblocks : hello.geometry.blocksPerSlice ≤ 840)

include htransfer hreceiver hblocks

/-- All requests that are due are sent. -/
theorem Shaped.requestGaps_eq (h : Shaped hello receiverId s) (now : ℕ) :
    s.requestGaps now =
      { session := { s with naks := (s.naks.due (s.assembler.gaps s.emitFloor) now).2 }
        sent := (s.naks.due (s.assembler.gaps s.emitFloor) now).1.map s.repair } :=
  sendNaks_of_readable (s := { s with naks := (s.naks.due (s.assembler.gaps s.emitFloor) now).2 })
    (h.due_readable htransfer hreceiver hblocks now)

/-- Told the total, long after all it asked for before, a session asks for every slice that is not
complete. -/
theorem Able.branch_done (h : Able rs L r hello receiverId sunk s) {done : Done}
    (hdone : Arrives rs L r (.control (.done done))) (now : ℕ) :
    let o := s.branch now (.packets [(now, .control (.done done))])
    o.ended = none ∧ o.session.totalBytes ≠ none ∧
      o.session.assembler = s.assembler.onDone L.blocks.length ∧
      ∀ k, s.assembler.nextNeeded ≤ k → k < L.slices →
        o.session.assembler.isComplete k = false →
        (∀ sent, s.naks.sent.lookup k = some sent → renakInterval ≤ now - sent) →
        ∃ slot rest, .nak ⟨s.transferId, s.receiverId, k, slot :: rest⟩ ∈ o.sent ∧
          slot < (L.slice k).length ∧ s.assembler.has k slot = false := by
  intro o
  obtain ⟨transferId, totalBytes, totalBlocks⟩ := done
  obtain ⟨-, -, rfl, hbound⟩ := hdone
  let told : Session := { s with
    lastPacket := now
    totalBytes := some totalBytes
    assembler := s.assembler.onDone L.blocks.length }
  have hshaped : Shaped hello receiverId told :=
    ⟨h.shaped.transferId, h.shaped.receiverId, h.shaped.geometry, h.shaped.floor⟩
  have ho : o = told.requestGaps now := by
    change onArrivals { s with lastPacket := now } _ = _
    rw [onArrivals_singleton]
    rfl
  have hasked := hshaped.requestGaps_eq htransfer hreceiver hblocks now
  rw [ho, hasked]
  refine ⟨rfl, by simp [told], rfl, fun k hnext hk hopen hdue => ?_⟩
  have hholds : told.assembler.Holds rs L := h.tracks.assembler.onDone
  have htarget := hholds.target_of_whole hk (.inl rfl)
  have hrequests := hholds.toWf.requests hopen (hholds.target_pos hk)
  have hslices : told.assembler.totalSlices = some L.slices := by
    rw [Assembler.totalSlices, hholds.geometry]
    exact congrArg some (Nat.mod_eq_of_lt hbound)
  have hgap : (k, told.assembler.request k) ∈ told.assembler.gaps told.emitFloor :=
    Assembler.mem_gaps_iff.mpr ⟨hnext, by rwa [hslices], hopen, rfl⟩
  obtain ⟨slot, rest, hslot⟩ := List.exists_cons_of_length_pos hrequests.nonempty
  obtain ⟨hlt, -, hfree⟩ := hrequests.free slot (hslot ▸ List.mem_cons_self)
  rw [hslot] at hgap
  refine ⟨slot, rest, List.mem_map.mpr ⟨(k, slot :: rest), ?_, rfl⟩, htarget ▸ hlt, hfree⟩
  refine List.mem_filter.mpr ⟨hgap, ?_⟩
  have hisDue : told.naks.isDue k now := by
    rw [Naks.isDue, Option.all_eq_true]
    exact fun sent hsent => by simpa using hdue sent hsent
  simp [hisDue]

/-- What comes of the total, told long enough after all that was asked for before, with an open sink
that has room: if the session goes on, it knows the total, and the next turn ends it well or it has
asked for a block it lacks. -/
theorem Able.told (h : Able rs L r hello receiverId sunk s) {done : Done}
    (hdone : Arrives rs L r (.control (.done done))) (earliest : ℕ) : ∃ now, earliest ≤ now ∧
      let b : Branch := .packets [(now, .control (.done done))]
      let sink : Sink := ⟨s.pending.length + (r.blocks L.geometry).length, false⟩
      let o := s.turn rs now b sink
      (s.branch now b).ended = none ∧ (s.branch now b).session.totalBytes ≠ none ∧
        (o.ended = none → o.session.assembler.totalBlocks ≠ none ∧
          ((∃ summary, (o.session.turn rs now .statsTick sink).ended =
              some (.returned (.ok summary))) ∨
            ∃ k slot rest, .nak ⟨s.transferId, s.receiverId, k, slot :: rest⟩ ∈ o.sent ∧
              slot < (L.slice k).length ∧ (k, slot) ∈ s.assembler.lacking L.slices)) := by
  obtain ⟨now, hnow, hdue⟩ := s.exists_due earliest
  refine ⟨now, hnow, ?_⟩
  intro b sink o
  obtain ⟨hended, htotal, hassembler, hasks⟩ :=
    h.branch_done htransfer hreceiver hblocks hdone now
  have hhonest : BranchHonest rs L r b := by
    intro arrival harrival
    rw [List.mem_singleton.mp harrival]
    exact hdone
  refine ⟨hended, htotal, fun hrun => ⟨?_, ?_⟩⟩
  · apply (turn_advanced rs s now b sink).total
    rw [hassembler]
    simp [Assembler.onDone]
  by_cases hlacks : ∃ k, s.assembler.nextNeeded ≤ k ∧ k < L.slices ∧
    (s.branch now b).session.assembler.isComplete k = false
  · obtain ⟨k, hk, hlt, hincomplete⟩ := hlacks
    obtain ⟨slot, rest, hsent, hslot, hfree⟩ := hasks k hk hlt hincomplete (hdue k)
    refine .inr ⟨k, slot, rest, mem_turn_sent hsent, hslot, Assembler.mem_lacking.mpr
      ⟨hlt, ?_, hk, hfree⟩⟩
    rw [h.tracks.assembler.geometry]
    exact hslot.trans_le (L.length_slice_le k)
  · -- all that is not released is complete
    have hslices : Chunks.divCeil (r.blocks L.geometry).length L.geometry.blocksPerSlice =
        L.slices := by rw [Ledger.slices, h.blocks, List.length_map]
    have hsettled : (s.branch now b).session.Settled r := by
      refine ⟨htotal, fun k hk hlt => ?_⟩
      rw [(h.tracks.branch _ hhonest).tracks.geometry, hslices] at hlt
      rw [hassembler] at hk
      by_contra hincomplete
      exact hlacks ⟨k, hk, hlt, by simpa using hincomplete⟩
    have hquiet : Branch.Quiet .statsTick := trivial
    have hroom : s.pending.length + (r.blocks L.geometry).length ≤ sink.room := le_rfl
    have hroom' : (r.blocks L.geometry).length ≤ sink.room := Nat.le_add_left _ _
    obtain ⟨summary, hok⟩ := hsettled.two_turns h.blocks h.tracks h.delivered h.clean _ _ hhonest
      hended hquiet hroom hroom'
    rw [Outcome.andThen_of_running hrun] at hok
    exact .inl ⟨summary, hok⟩

/-- A shard of the transfer inside the window is held once it has arrived. -/
theorem Able.branch_shard (h : Able rs L r hello receiverId sunk s)
    (hslots : L.geometry.blocksPerSlice + L.geometry.parityPerSlice < 2 ^ 16)
    (hwindow : s.assembler.nextNeeded + L.geometry.maxLiveSlices < 2 ^ 32) {frame : Frame}
    (hframe : Arrives rs L r (.shard frame)) (hfloor : frame.emitFloor < 2 ^ 32)
    (hnext : s.assembler.nextNeeded ≤ frame.sliceNo)
    (hlt : frame.sliceNo < s.assembler.nextNeeded + L.geometry.maxLiveSlices) (now : ℕ) :
    let o := s.branch now (.packets [(now, .shard frame)])
    o.ended = none ∧ o.session.totalBytes = s.totalBytes ∧
      o.session.assembler.has frame.sliceNo frame.slot := by
  intro o
  obtain ⟨hshard, hwidth, -⟩ := hframe
  have hgeometry := h.tracks.assembler.geometry
  let heard : Session := { s with lastPacket := now }
  have hcheck : heard.checkShard frame = .ok (.ok ()) := by
    apply checkShard_of_checked (by rwa [hgeometry])
    · exact h.tracks.geometry.trans hgeometry.symm
    · rw [h.tracks.geometry]
      exact .of_shard hshard hwidth
  have ho : o = heard.takeShard frame now := by
    change onArrivals heard _ = _
    rw [onArrivals_singleton, onArrival, onShard, hcheck]
  rcases hinsert : s.assembler.insert frame.sliceNo frame.slot frame.sliceParity frame.payload with
    p | ⟨taken, assembler⟩
  · obtain ⟨-, ⟨-, hover⟩ | ⟨-, hover⟩⟩ := Assembler.insert_eq_error hinsert
    · rw [hgeometry] at hover
      omega
    · rw [hgeometry] at hover
      omega
  have hheld := h.tracks.assembler.has_insert hshard hwidth hinsert hnext (by rwa [hgeometry])
  have hkept : assembler.geometry = s.assembler.geometry := by
    rcases Assembler.insert_eq_ok hinsert with ⟨_, rfl, _⟩ | ⟨_, _, _, _, rfl⟩ <;> rfl
  obtain ⟨noted, hshaped, htotal, hassembler, heq⟩ : ∃ noted : Session,
      Shaped hello receiverId noted ∧ noted.totalBytes = s.totalBytes ∧
      noted.assembler = assembler ∧ o = if s.emitFloor < frame.emitFloor
        then noted.requestGaps now else { session := noted } := by
    have hmax : max s.emitFloor frame.emitFloor < 2 ^ 32 := Nat.max_lt.mpr ⟨h.shaped.floor, hfloor⟩
    have hgeometry' := hkept.trans h.shaped.geometry
    let placed : Session := { s with
      lastPacket := now
      received := s.received + 1
      highestSeq := some (max (s.highestSeq.getD 0) frame.seq)
      emitFloor := max s.emitFloor frame.emitFloor
      assembler := assembler }
    obtain ⟨late, duplicates, hnoted⟩ : ∃ late duplicates,
        (if taken then placed else placed.refused frame.sliceNo) =
          { placed with late := late, duplicates := duplicates } := by
      cases taken with
      | true => exact ⟨_, _, rfl⟩
      | false => exact refused_eq placed frame.sliceNo
    refine ⟨{ placed with late := late, duplicates := duplicates },
      ⟨h.shaped.transferId, h.shaped.receiverId, hgeometry', hmax⟩, rfl, rfl, ?_⟩
    rw [ho, takeShard]
    simp only [heard, hinsert, ← hnoted, placed]
  rw [heq]
  split_ifs
  · rw [hshaped.requestGaps_eq htransfer hreceiver hblocks now]
    exact ⟨rfl, htotal, by rw [hassembler]; exact hheld⟩
  · exact ⟨rfl, htotal, by rw [hassembler]; exact hheld⟩

end Room

end Session
end Scuttlecast
