import Scuttlecast.Receiver.Buffer
import Scuttlecast.Receiver.Hostile

/-! What a session asks for against what it would take. A scan for gaps ends where the sender
says, at the announced total or at the furthest floor of any shard; what is taken ends with the
window. Nothing ties the one to the other but the sender. -/
namespace Scuttlecast

namespace Assembler

variable {a : Assembler} {k slot w floor : ℕ} {payload : Bytes} {gap : ℕ × List ℕ}

/-- A shard for a free slot of the window, of no other width than its slice, is taken. -/
theorem insert_accepts (hge : a.nextNeeded ≤ k) (hlt : k < a.nextNeeded + a.geometry.maxLiveSlices)
    (hbound : a.nextNeeded + a.geometry.maxLiveSlices < 2 ^ 32)
    (hslots : a.geometry.blocksPerSlice + a.geometry.parityPerSlice < 2 ^ 16)
    (hfree : (a.sliceFor k).slots[slot]? = some none)
    (hw : 0 < w → 0 < (a.sliceFor k).parityWidth → (a.sliceFor k).parityWidth = w) :
    ∃ a', a.insert k slot w payload = .ok (true, a') := by
  unfold insert
  rw [if_neg (Nat.not_lt.mpr hge), addChecked_of_lt hbound, ok_bind, if_neg (Nat.not_le.mpr hlt),
    totalSlots, addChecked_of_lt hslots, ok_bind]
  have htaken : ((a.sliceFor k).insert slot w payload).1 = true := by
    unfold Slice.insert
    simp only [hfree]
    rw [if_neg]
    rintro ⟨hpos, hpos', hne⟩
    exact hne (hw hpos hpos')
  exact ⟨_, congrArg Except.ok (Prod.ext htaken rfl)⟩

/-- Past the window nothing is taken. -/
theorem insert_above (hle : a.nextNeeded + a.geometry.maxLiveSlices ≤ k)
    (hbound : a.nextNeeded + a.geometry.maxLiveSlices < 2 ^ 32) :
    a.insert k slot w payload = .ok (false, a) := by
  unfold insert
  rw [if_neg (by omega), addChecked_of_lt hbound, ok_bind, if_pos hle]

/-- An insertion changes the buffer alone. -/
theorem insert_frame {taken : Bool} {a' : Assembler}
    (hi : a.insert k slot w payload = .ok (taken, a')) : a' = { a with slices := a'.slices } := by
  rcases insert_eq_ok hi with ⟨_, rfl, _⟩ | ⟨_, _, _, _, rfl⟩ <;> rfl

/-- A slot that is wanted is one of the data slots, and free. -/
theorem Slice.mem_wanted {s : Slice} {target : ℕ} (hlen : s.slots.length ≤ 2 ^ 16)
    (h : slot ∈ s.wanted target) : s.slots[slot]? = some none := by
  unfold wanted at h
  obtain ⟨⟨held, i⟩, hmem, heq⟩ := List.mem_map.mp (List.mem_of_mem_take h)
  obtain ⟨hmem, hnone⟩ := List.mem_filter.mp hmem
  obtain ⟨_, hi, hget⟩ := List.mem_zipIdx (List.mem_of_mem_take hmem)
  rw [Nat.zero_add] at hi
  have hslot : i = slot := by
    rw [← heq]
    exact (Nat.mod_eq_of_lt (by omega)).symm
  obtain rfl : held = none := by simpa using hnone
  rw [← hslot, List.getElem?_eq_getElem hi]
  exact congrArg some hget.symm

/-- What a gap names can be inserted, where its slice lies in the window. -/
theorem Buffered.accepts_gap (h : a.Buffered) (hgap : gap ∈ a.gaps floor)
    (hlt : gap.1 < a.nextNeeded + a.geometry.maxLiveSlices)
    (hbound : a.nextNeeded + a.geometry.maxLiveSlices < 2 ^ 32)
    (hslots : a.geometry.blocksPerSlice + a.geometry.parityPerSlice < 2 ^ 16)
    (hslot : slot ∈ gap.2)
    (hw : 0 < w → 0 < (a.sliceFor gap.1).parityWidth → (a.sliceFor gap.1).parityWidth = w) :
    ∃ a', a.insert gap.1 slot w payload = .ok (true, a') := by
  obtain ⟨k, hk, rfl⟩ := List.mem_map.mp hgap
  have hge := (List.mem_range'_1.mp (List.mem_filter.mp hk).1).1
  apply insert_accepts hge hlt hbound hslots ?_ hw
  have hlength := (h.sliceFor k).1
  simp only at hslot
  unfold Assembler.sliceFor at hlength ⊢
  rcases hlook : a.slices.lookup k with _ | s
  · simp only [hlook] at hslot
    have := List.mem_range.mp hslot
    have htarget := a.target_le k
    rw [Option.getD_none, Slice.empty, List.getElem?_replicate, if_pos (by omega)]
  · simp only [hlook] at hslot
    rw [hlook, Option.getD_some] at hlength
    show s.slots[slot]? = some none
    exact Slice.mem_wanted (by omega) hslot

end Assembler

namespace Session

variable {rs : ReedSolomon} {hello : Hello} {s s' : Session} {o : Outcome}

/-- What may happen to a session between two hand-overs, and a hand-over. -/
inductive Event where
  | shard (now : ℕ) (frame : Frame)
  | done (now : ℕ) (done : Done)
  | renak (now : ℕ)
  | handOver (now : ℕ) (sink : Sink)

def event (rs : ReedSolomon) (s : Session) : Event → Outcome
  | .shard now frame => s.onShard frame now
  | .done now done => s.onDone done now
  | .renak now => s.requestGaps now
  | .handOver now sink => s.handOver rs sink now

/-- All runs of a session for this `Hello`, event after event. -/
def events (rs : ReedSolomon) (hello : Hello) : Labelled.System Session Event where
  init s := ∃ receiverId now, new hello receiverId now = .ok s
  next e s := if (s.event rs e).ended.isNone then some (s.event rs e).session else none

/-- The end of the window. -/
def limit (s : Session) : ℕ := s.assembler.nextNeeded + s.assembler.geometry.maxLiveSlices

/-- Where a scan for gaps ends. -/
def scanEnd (s : Session) : ℕ := s.assembler.totalSlices.getD s.emitFloor

/-- The window and the slots of a slice have numbers. -/
def Numbered (s : Session) : Prop :=
  s.limit < 2 ^ 32 ∧
    s.assembler.geometry.blocksPerSlice + s.assembler.geometry.parityPerSlice < 2 ^ 16

/-- The event says nothing of slices past the end of the window: no floor, as long as floors
count, and no total. -/
def Modest (e : Event) (s : Session) : Prop :=
  match e with
  | .shard _ frame =>
    s.Numbered ∧ (s.assembler.totalBlocks = none → frame.emitFloor ≤ s.limit)
  | .done _ done => s.Numbered ∧
    Chunks.divCeil done.totalBlocks s.assembler.geometry.blocksPerSlice % 2 ^ 32 ≤ s.limit
  | .renak _ => s.Numbered
  | .handOver _ _ => True

/-- The request is for a slice of the window, and for shards that would be taken: whatever their
payload, and with any width that is not another than the slice's. -/
structure Askable (a : Assembler) (nak : Nak) : Prop where
  ge : a.nextNeeded ≤ nak.sliceNo
  lt : nak.sliceNo < a.nextNeeded + a.geometry.maxLiveSlices
  accepts : ∀ slot ∈ nak.missing, ∀ w payload,
    (0 < w → 0 < (a.sliceFor nak.sliceNo).parityWidth →
      (a.sliceFor nak.sliceNo).parityWidth = w) →
    ∃ a', a.insert nak.sliceNo slot w payload = .ok (true, a')

/-- A scan for gaps ends with the window at the latest. -/
structure Bounded (hello : Hello) (s : Session) : Prop where
  geometry : s.assembler.geometry = hello.geometry
  buffered : s.assembler.Buffered
  scan : s.scanEnd ≤ s.limit

/-- What is left of an event that asked for nothing it would refuse. -/
structure AsksWell (hello : Hello) (o : Outcome) : Prop where
  session : Bounded hello o.session
  sent : ∀ nak, .nak nak ∈ o.sent → Askable o.session.assembler nak

theorem mem_sendNaks {gaps : List (ℕ × List ℕ)} {nak : Nak}
    (h : .nak nak ∈ (s.sendNaks gaps).sent) : (nak.sliceNo, nak.missing) ∈ gaps := by
  induction gaps generalizing s with
  | nil => simp [sendNaks] at h
  | cons gap rest ih =>
    unfold sendNaks at h
    dsimp only at h
    split at h
    · simp [Outcome.fail] at h
    · rw [Outcome.andThen_of_running rfl] at h
      rcases List.mem_append.mp h with h | h
      · rw [Message.nak.inj (List.mem_singleton.mp h)]
        exact List.mem_cons_self
      · exact List.mem_cons_of_mem _ (ih h)

theorem Bounded.requestGaps (h : Bounded hello s) (hnumbered : s.Numbered) (now : ℕ) :
    AsksWell hello (s.requestGaps now) := by
  obtain ⟨⟨naks, heq⟩, -⟩ := requestGaps_session s now
  constructor
  · rw [heq]
    exact ⟨h.geometry, h.buffered, h.scan⟩
  · intro nak hnak
    rw [heq]
    have hgap : (nak.sliceNo, nak.missing) ∈ s.assembler.gaps s.emitFloor :=
      List.mem_of_mem_filter (mem_sendNaks hnak)
    obtain ⟨k, hk, hkeq⟩ := List.mem_map.mp hgap
    have hrange := List.mem_range'_1.mp (List.mem_filter.mp hk).1
    obtain rfl : k = nak.sliceNo := (Prod.mk.inj hkeq).1
    have hscan := h.scan
    unfold scanEnd limit at hscan
    have hlt : nak.sliceNo < s.assembler.nextNeeded + s.assembler.geometry.maxLiveSlices := by
      omega
    constructor
    · exact hrange.1
    · exact hlt
    · intro slot hslot w payload hw
      exact h.buffered.accepts_gap hgap hlt hnumbered.1 hnumbered.2 hslot hw

theorem Bounded.silent (h : Bounded hello s) {ended : Option SessionEnd} :
    AsksWell hello { session := s, ended := ended } := ⟨h, by simp⟩

theorem Bounded.onShard (h : Bounded hello s) {frame : Frame} {now : ℕ}
    (hmodest : Modest (.shard now frame) s) : AsksWell hello (s.onShard frame now) := by
  obtain ⟨hnumbered, hfloor⟩ := hmodest
  unfold Session.onShard
  split
  · exact h.silent
  · exact h.silent
  unfold takeShard
  dsimp only
  have hscan : s.assembler.totalSlices.getD (max s.emitFloor frame.emitFloor) ≤ s.limit := by
    have hold := h.scan
    unfold scanEnd Assembler.totalSlices at hold
    unfold Assembler.totalSlices
    cases htotal : s.assembler.totalBlocks with
    | none =>
      rw [htotal] at hold
      exact max_le hold (hfloor htotal)
    | some total =>
      rw [htotal] at hold
      exact hold
  split
  · exact Bounded.silent (s := { s with
      received := s.received + 1
      highestSeq := some (max (s.highestSeq.getD 0) frame.seq)
      emitFloor := max s.emitFloor frame.emitFloor }) ⟨h.geometry, h.buffered, hscan⟩
  · next taken assembler hi =>
    have hframe := Assembler.insert_frame hi
    have hbuffered := h.buffered.insert hi
    have hafter (late duplicates : ℕ) : Bounded hello { s with
        received := s.received + 1
        highestSeq := some (max (s.highestSeq.getD 0) frame.seq)
        emitFloor := max s.emitFloor frame.emitFloor
        assembler := assembler, late := late, duplicates := duplicates } := by
      rw [hframe] at hbuffered ⊢
      exact ⟨h.geometry, hbuffered, hscan⟩
    have hnumbered' (s' : Session) (hs' : s'.assembler = assembler) : s'.Numbered := by
      unfold Numbered limit
      rw [hs', hframe]
      exact hnumbered
    have hask (s' : Session) (hs' : Bounded hello s') (hassembler : s'.assembler = assembler)
        (c : Prop) [Decidable c] :
        AsksWell hello (if c then s'.requestGaps now else { session := s' }) := by
      split_ifs
      · exact hs'.requestGaps (hnumbered' s' hassembler) now
      · exact hs'.silent
    apply hask
    · cases taken with
      | true => exact hafter s.late s.duplicates
      | false =>
        rw [if_neg (by simp)]
        obtain ⟨late, duplicates, heq⟩ := refused_eq _ frame.sliceNo
        rw [heq]
        exact hafter late duplicates
    · cases taken with
      | true => rfl
      | false =>
        rw [if_neg (by simp)]
        obtain ⟨late, duplicates, heq⟩ := refused_eq _ frame.sliceNo
        rw [heq]

theorem Bounded.onDone (h : Bounded hello s) {done : Done} {now : ℕ}
    (hmodest : Modest (.done now done) s) : AsksWell hello (s.onDone done now) := by
  obtain ⟨hnumbered, htotal⟩ := hmodest
  apply Bounded.requestGaps (s := { s with
    totalBytes := some done.totalBytes, assembler := s.assembler.onDone done.totalBlocks })
  · exact ⟨h.geometry, h.buffered.onDone _, htotal⟩
  · exact hnumbered

/-- Released slices move the window up; where scans end stays. -/
theorem Bounded.handOver (h : Bounded hello s) (sink : Sink) (now : ℕ) :
    AsksWell hello (s.handOver rs sink now) := by
  unfold Session.handOver
  dsimp only
  split
  · exact Bounded.silent (s := { s with
      sinkStall := s.sinkStall + if s.pending = [] then 0 else now - s.lastHandover
      lastHandover := now }) ⟨h.geometry, h.buffered, h.scan⟩
  next s₁ hrefill =>
  have h₁ : Bounded hello s₁ := by
    rcases refill_cases hrefill with ⟨_, rfl⟩ | ⟨_, _, assembler, htake, _, rfl, _⟩
    · exact ⟨h.geometry, h.buffered, h.scan⟩
    · have hreleased := (Assembler.takeReady_eq_ok.mp htake).1
      obtain ⟨hle, htotal, hgeometry, -⟩ := hreleased.frame
      have hscan := h.scan
      constructor
      · exact hgeometry.trans h.geometry
      · exact h.buffered.released hreleased
      · unfold scanEnd limit Assembler.totalSlices at hscan ⊢
        simp only [htotal, hgeometry] at hle ⊢
        omega
  split_ifs
  · exact ⟨⟨h₁.geometry, h₁.buffered, h₁.scan⟩, by simp⟩
  · exact ⟨⟨h₁.geometry, h₁.buffered, h₁.scan⟩, by simp⟩

theorem Bounded.event (h : Bounded hello s) {e : Event} (hmodest : Modest e s) :
    AsksWell hello (s.event rs e) := by
  cases e with
  | shard now frame => exact h.onShard hmodest
  | done now done => exact h.onDone hmodest
  | renak now => exact h.requestGaps hmodest now
  | handOver now sink => exact h.handOver sink now

theorem bounded_of_reach (h : Labelled.Reach (events rs hello) Modest s) : Bounded hello s := by
  apply h.invariant
  · rintro s ⟨receiverId, now, hnew⟩
    obtain ⟨a, ha, hs⟩ := bind_ok_iff.mp hnew
    obtain ⟨-, hgeometry, hslices, -, htotal, -⟩ := Assembler.new_wf ha
    rw [← Except.ok.inj hs]
    constructor
    · exact hgeometry
    · constructor <;> simp [fresh, hslices]
    · simp [fresh, scanEnd, Assembler.totalSlices, htotal]
  · intro e s s' hmodest hs hn
    simp only [events] at hn
    split_ifs at hn
    rw [← Option.some.inj hn]
    exact (hs.event hmodest).session

/-- While nobody names slices past the end of its window, a session asks for nothing it would
refuse, and no scan for gaps looks at more slices than the window has. -/
theorem asks_for_what_it_takes (h : Labelled.Reach (events rs hello) Modest s) {e : Event}
    (hmodest : Modest e s) :
    (∀ nak, .nak nak ∈ (s.event rs e).sent → Askable (s.event rs e).session.assembler nak) ∧
      (s.event rs e).session.scanEnd - (s.event rs e).session.assembler.nextNeeded ≤
        hello.geometry.maxLiveSlices := by
  have hwell : AsksWell hello (s.event rs e) := (bounded_of_reach h).event hmodest
  have hscan := hwell.session.scan
  have hgeometry := hwell.session.geometry
  unfold limit at hscan
  rw [hgeometry] at hscan
  exact ⟨hwell.sent, by omega⟩

/-- One shard with a floor of two, to a window of one slice: the second slice is asked for, and
none of its shards would be taken. -/
theorem floor_past_window_is_asked_for :
    ∃ s frame nak, Labelled.Reachable (events .interpolated pairs) s ∧
      s.checkShard frame = .ok (.ok ()) ∧
      .nak nak ∈ (s.event .interpolated (.shard 0 frame)).sent ∧
      (s.event .interpolated (.shard 0 frame)).session.assembler.nextNeeded +
        pairs.geometry.maxLiveSlices ≤ nak.sliceNo ∧
      ∀ slot w payload, (s.event .interpolated (.shard 0 frame)).session.assembler.insert
        nak.sliceNo slot w payload =
          .ok (false, (s.event .interpolated (.shard 0 frame)).session.assembler) := by
  obtain ⟨s, hnew⟩ : ∃ s, new pairs 0 0 = .ok s := ⟨_, rfl⟩
  let frame : Frame :=
    { slot := 0, sliceParity := 0, transferId := 7, seq := 0, sliceNo := 0, emitFloor := 2
      payload := [1, 2] }
  obtain ⟨o, ho⟩ : ∃ o, s.event .interpolated (.shard 0 frame) = o := ⟨_, rfl⟩
  obtain ⟨hcheck, hsent, hnext, hgeometry⟩ : s.checkShard frame = .ok (.ok ()) ∧
      .nak ⟨7, 0, 1, [0, 1]⟩ ∈ o.sent ∧ o.session.assembler.nextNeeded = 0 ∧
        o.session.assembler.geometry = pairs.geometry := by
    cases hnew
    cases ho
    refine ⟨rfl, ?_, rfl, rfl⟩
    decide
  have hpast : o.session.assembler.nextNeeded + pairs.geometry.maxLiveSlices ≤ 1 := by
    rw [hnext]
    decide
  refine ⟨s, frame, ⟨7, 0, 1, [0, 1]⟩, .start ⟨0, 0, hnew⟩, hcheck, ?_⟩
  rw [ho]
  refine ⟨hsent, hpast, fun slot w payload => Assembler.insert_above ?_ ?_⟩
  · rw [hgeometry]
    exact hpast
  · rw [hnext, hgeometry]
    decide

/-- The same shard with a floor of one is followed by a request for its slice alone. -/
theorem asks_for_what_it_takes_pairs : ∃ (s : Session) (frame : Frame),
    .nak ⟨7, 0, 0, [1]⟩ ∈ (s.event .interpolated (.shard 0 frame)).sent ∧
      Askable (s.event .interpolated (.shard 0 frame)).session.assembler ⟨7, 0, 0, [1]⟩ := by
  obtain ⟨s, hnew⟩ : ∃ s, new pairs 0 0 = .ok s := ⟨_, rfl⟩
  let frame : Frame :=
    { slot := 0, sliceParity := 0, transferId := 7, seq := 0, sliceNo := 0, emitFloor := 1
      payload := [1, 2] }
  obtain ⟨hmodest, hsent⟩ : Modest (.shard 0 frame) s ∧
      .nak ⟨7, 0, 0, [1]⟩ ∈ (s.event .interpolated (.shard 0 frame)).sent := by
    cases hnew
    refine ⟨⟨?_, fun _ => ?_⟩, ?_⟩
    · unfold Numbered
      decide
    · decide
    · decide
  have hreach : Labelled.Reach (events .interpolated pairs) Modest s := .start ⟨0, 0, hnew⟩
  exact ⟨s, frame, hsent, (asks_for_what_it_takes hreach hmodest).1 _ hsent⟩

end Session
end Scuttlecast
