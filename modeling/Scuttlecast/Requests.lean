import Scuttlecast.RoundTrip
import Scuttlecast.Receiver.Repair

/-! What an assembler asks for. A slice that is short of its target is short by no more than the
data slots it lacks, so the first of these, as many as it is short of, complete it. -/
namespace Scuttlecast
namespace Assembler

section Slices

variable {s : Slice} {g : Geometry} {target slot : ℕ}

theorem Slice.wanted_free (h : slot ∈ s.wanted target) (htarget : target ≤ 2 ^ 16) :
    s.payload slot = none := by
  obtain ⟨⟨held, i⟩, hmem, hslot⟩ := List.mem_map.mp (List.mem_of_mem_take h)
  obtain ⟨hzip, hnone⟩ := List.mem_filter.mp hmem
  obtain ⟨j, hj⟩ := List.mem_iff_getElem?.mp hzip
  rw [List.getElem?_take] at hj
  split_ifs at hj with hlt
  rw [List.getElem?_zipIdx, Option.map_eq_some_iff] at hj
  obtain ⟨held', hget, heq⟩ := hj
  obtain ⟨rfl, rfl⟩ := Prod.mk.inj heq
  have hmod : (0 + j) % 2 ^ 16 = slot := hslot
  rw [Nat.zero_add, Nat.mod_eq_of_lt (by omega)] at hmod
  subst hmod
  rw [Slice.payload, hget]
  simpa using hnone

/-- The slots asked for are as many as the slice is short of. -/
theorem Slice.Wf.length_wanted (h : s.Wf g) (htarget : target ≤ s.slots.length) :
    (s.wanted target).length = target - s.received := by
  have hfirst : (s.slots.zipIdx.take target).map Prod.fst = s.slots.take target := by
    rw [List.map_take, List.zipIdx_map_fst]
  have hholes : ((s.slots.zipIdx.take target).filter fun e => e.1.isNone).length =
      (s.slots.take target).countP (·.isNone) := by
    rw [← hfirst, List.countP_map, List.countP_eq_length_filter]
    rfl
  have hsplit : s.below target + (s.slots.take target).countP (·.isNone) = target := by
    have hcount := List.length_eq_countP_add_countP (l := s.slots.take target) (·.isSome)
    have hnot : (s.slots.take target).countP (fun held => ¬ held.isSome = true) =
        (s.slots.take target).countP (·.isNone) :=
      List.countP_congr fun held _ => by cases held <;> simp
    rw [List.length_take, Nat.min_eq_left htarget, hnot] at hcount
    exact hcount.symm
  have hbelow : s.below target ≤ s.received := by
    rw [h.received, ← s.below_add_above target]
    exact Nat.le_add_right ..
  rw [Slice.wanted, List.length_take, List.length_map, hholes]
  omega

end Slices

/-- How many shards are held of a slice. -/
def received (a : Assembler) (k : ℕ) : ℕ := ((a.slices.lookup k).map (·.received)).getD 0

variable {rs : ReedSolomon} {L : Ledger} {a a' : Assembler} {k slot floor : ℕ}

theorem isComplete_eq_false_iff : a.isComplete k = false ↔
    ∀ s, a.slices.lookup k = some s → s.received < a.target k := by
  unfold isComplete
  cases a.slices.lookup k <;> simp

/-- A request for a slice: free data slots below its target, in order, and just enough. -/
structure Requests (a : Assembler) (k : ℕ) (missing : List ℕ) : Prop where
  ascending : missing.Pairwise (· < ·)
  free : ∀ slot ∈ missing, slot < a.target k ∧ slot < a.geometry.blocksPerSlice ∧
    a.has k slot = false
  length : missing.length = a.target k - a.received k
  nonempty : 0 < missing.length

/-- What is asked for of one slice. -/
def request (a : Assembler) (k : ℕ) : List ℕ :=
  match a.slices.lookup k with
  | some slice => slice.wanted (a.target k)
  | none => List.range (a.target k)

theorem gaps_eq (a : Assembler) (floor : ℕ) : a.gaps floor =
    ((List.range' a.nextNeeded (a.totalSlices.getD floor - a.nextNeeded)).filter fun k =>
      ¬ a.isComplete k).map fun k => (k, a.request k) := rfl

theorem mem_gaps_iff {gap : ℕ × List ℕ} : gap ∈ a.gaps floor ↔ a.nextNeeded ≤ gap.1 ∧
    gap.1 < a.totalSlices.getD floor ∧ a.isComplete gap.1 = false ∧ gap.2 = a.request gap.1 := by
  rw [gaps_eq, List.mem_map]
  constructor
  · rintro ⟨k, hk, rfl⟩
    obtain ⟨hrange, hopen⟩ := List.mem_filter.mp hk
    have hbounds := List.mem_range'_1.mp hrange
    exact ⟨hbounds.1, by simp only; omega, by simpa using hopen, rfl⟩
  · rintro ⟨hge, hlt, hopen, hrequest⟩
    refine ⟨gap.1, List.mem_filter.mpr ⟨List.mem_range'_1.mpr (by omega), by simpa using hopen⟩, ?_⟩
    exact Prod.ext rfl hrequest.symm

theorem gaps_ascending (a : Assembler) (floor : ℕ) :
    ((a.gaps floor).map Prod.fst).Pairwise (· < ·) := by
  have hfst : (a.gaps floor).map Prod.fst =
      (List.range' a.nextNeeded (a.totalSlices.getD floor - a.nextNeeded)).filter fun k =>
        ¬ a.isComplete k := by
    rw [gaps_eq, List.map_map]
    exact List.map_id _
  rw [hfst]
  exact List.Pairwise.filter _ (List.pairwise_lt_range' 1)

/-- A slice short of its target is asked for as it should be. -/
theorem Wf.requests (h : a.Wf) (hopen : a.isComplete k = false) (hpos : 0 < a.target k) :
    a.Requests k (a.request k) := by
  have htarget := a.target_le k
  have hblocks := a.geometry.blocksPerSlice_lt
  have hparity := a.geometry.parityPerSlice_lt
  unfold request
  rcases hlook : a.slices.lookup k with _ | s
  · have hzero : a.received k = 0 := by simp [received, hlook]
    have hfree : ∀ slot, a.has k slot = false := fun slot => by simp [has, hlook]
    refine ⟨List.pairwise_lt_range, fun slot hslot => ?_, ?_, ?_⟩
    · have hlt := List.mem_range.mp hslot
      exact ⟨hlt, hlt.trans_le htarget, hfree slot⟩
    · rw [List.length_range, hzero, Nat.sub_zero]
    · rwa [List.length_range]
  · have hwf := h.wf k s hlook
    have hlen := hwf.length
    have hreceived : a.received k = s.received := by simp [received, hlook]
    have hshort := isComplete_eq_false_iff.mp hopen s hlook
    have hsub := Slice.wanted_sublist s (show a.target k ≤ 2 ^ 16 by omega)
    have hcount := hwf.length_wanted (show a.target k ≤ s.slots.length by omega)
    refine ⟨List.pairwise_lt_range.sublist hsub, fun slot hslot => ?_, ?_, ?_⟩
    · have hlt := List.mem_range.mp (hsub.subset hslot)
      have hfree := Slice.wanted_free hslot (by omega)
      exact ⟨hlt, hlt.trans_le htarget, by simp [has, hlook, hfree]⟩
    · rw [hcount, hreceived]
    · rw [hcount]
      exact Nat.sub_pos_of_lt hshort

section Supply

variable {w : Window} {total : ℕ} {c : Exchange.Call}

/-- A call on the assembler with a shard of the window, whatever it makes of it, with the true
total, or `take_ready`. -/
def feed (rs : ReedSolomon) (w : Window) (total : ℕ) (a : Assembler) :
    Exchange.Call → Option (Except Panic Assembler)
  | .insert k slot =>
    match w.shard k slot, w.sliceParity k with
    | some payload, some width => some ((a.insert k slot width payload).map Prod.snd)
    | _, _ => none
  | .done => some (.ok (a.onDone total))
  | .takeReady => some ((a.takeReady rs).map Prod.snd)

/-- The assembler after a call that does not die. -/
def fed (rs : ReedSolomon) (w : Window) (total : ℕ) (c : Exchange.Call) (a : Assembler) :
    Option Assembler :=
  match a.feed rs w total c with
  | some (.ok a) => some a
  | _ => none

/-- All orders of calls on a new assembler. -/
def feeds (rs : ReedSolomon) (w : Window) (total : ℕ) (assembler : Assembler) :
    Labelled.System Assembler Exchange.Call where
  init a := a = assembler
  next := fed rs w total

theorem fed_insert (hw : w.Filled rs L) {payload : Bytes} (hshard : L.shard rs k slot = some payload)
    {width : ℕ} (hwidth : L.widths[k]? = some width) :
    fed rs w total (.insert k slot) a =
      ((a.insert k slot width payload).map Prod.snd).toOption := by
  have hparity := hw.sliceParity_eq (Ledger.lt_slices_of_shard hshard)
  simp only [fed, feed, hw.shard_eq, hshard, hparity, hwidth]
  cases a.insert k slot width payload <;> rfl

/-- What a call that does not die can be. -/
theorem fed_cases (hw : w.Filled rs L) (h : fed rs w total c a = some a') :
    (∃ k slot width payload taken, c = .insert k slot ∧ L.shard rs k slot = some payload ∧
      L.widths[k]? = some width ∧ a.insert k slot width payload = .ok (taken, a')) ∨
    a' = a.onDone total ∨ ∃ ready, a.takeReady rs = .ok (ready, a') := by
  unfold fed at h
  split at h
  · next heq =>
    cases h
    cases c with
    | insert k slot =>
      simp only [feed] at heq
      split at heq
      · next payload width hshard hwidth =>
        rw [hw.shard_eq] at hshard
        rw [hw.sliceParity_eq (Ledger.lt_slices_of_shard hshard)] at hwidth
        rcases hi : a.insert k slot width payload with p | ⟨taken, a''⟩
        · simp [hi, Except.map] at heq
        · simp only [hi, Except.map, Option.some.injEq, Except.ok.injEq] at heq
          exact .inl ⟨k, slot, width, payload, taken, rfl, hshard, hwidth, heq ▸ hi⟩
      · cases heq
    | done => exact .inr (.inl (Except.ok.inj (Option.some.inj heq)).symm)
    | takeReady =>
      simp only [feed, Option.some.injEq] at heq
      rcases htake : a.takeReady rs with p | ⟨ready, a''⟩
      · simp [htake, Except.map] at heq
      · simp only [htake, Except.map, Except.ok.injEq] at heq
        exact .inr (.inr ⟨ready, by rw [heq]⟩)
  · cases h

theorem holds_of_fed {a₀ : Assembler} (ha : Assembler.new L.geometry = .ok a₀)
    (hw : w.Filled rs L) (h : Labelled.Reachable (feeds rs w L.blocks.length a₀) a) :
    a.Holds rs L := by
  refine Labelled.Reach.invariant ?_ ?_ h
  · rintro a rfl
    exact new_holds rs ha
  · intro c a a' _ h hn
    rcases fed_cases hw hn with ⟨k, slot, width, payload, taken, _, hshard, hwidth, hi⟩ | rfl |
      ⟨ready, htake⟩
    · exact h.insert hshard hwidth hi
    · exact h.onDone
    · exact (h.takeReady htake).1

/-- A filled window has every data shard of a slice sealed, and its width. -/
theorem data_shard (hw : w.Filled rs L) (hk : k < L.slices) (hslot : slot < (L.slice k).length) :
    ∃ payload width, L.shard rs k slot = some payload ∧ L.widths[k]? = some width := by
  have hle := L.length_slice_le k
  have hno : k ≤ w.current.sliceNo := by
    rw [hw.sliceNo]
    exact hk.le
  refine ⟨(L.slice k)[slot], _, ?_, (hw.tracks.getElem?_widths hno).1⟩
  rw [Ledger.shard_data (by omega), List.getElem?_eq_getElem hslot]

/-- Inside the window a shard that is not held is counted. -/
theorem Holds.received_insert (h : a.Holds rs L) {payload : Bytes} {width : ℕ} {taken : Bool}
    (hshard : L.shard rs k slot = some payload) (hwidth : L.widths[k]? = some width)
    (hi : a.insert k slot width payload = .ok (taken, a')) (hge : a.nextNeeded ≤ k)
    (hlt : k < a.nextNeeded + a.geometry.maxLiveSlices) (hfree : a.has k slot = false) :
    a'.received k = a.received k + 1 ∧
      ∀ slot', a'.has k slot' → slot' = slot ∨ a.has k slot' := by
  have htaken : taken = true := by
    rw [← Bool.not_eq_false, h.insert_eq_false_iff hshard hwidth hi hlt]
    simp [hfree, Nat.not_lt.mpr hge]
  subst htaken
  rcases insert_eq_ok hi with ⟨hfalse, _⟩ | ⟨_, _, s', hs', rfl⟩
  · cases hfalse
  have hold : (a.sliceFor k).received = a.received k := by
    unfold Assembler.sliceFor received
    cases a.slices.lookup k <;> rfl
  constructor
  · obtain ⟨_, _, heq⟩ := Slice.insert_eq_true hs'
    simp only [received, Table.lookup_insert', if_true, Option.map_some, Option.getD_some, heq]
    rw [hold]
    rfl
  · intro slot' hhas
    simp only [has, Table.lookup_insert', if_true, Option.any_some] at hhas
    rw [Slice.payload_insert hs'] at hhas
    by_cases heq : slot' = slot
    · exact .inl heq
    · rw [if_neg heq] at hhas
      right
      unfold Assembler.sliceFor at hhas
      unfold has
      cases hlook : a.slices.lookup k <;> simp_all

/-- Different free data slots of one slice, put in one after the other, are all counted. -/
theorem Holds.supply (total : ℕ) (h : a.Holds rs L) (hw : w.Filled rs L)
    (hslots : L.geometry.blocksPerSlice + L.geometry.parityPerSlice < 2 ^ 16)
    (hbound : a.nextNeeded + L.geometry.maxLiveSlices < 2 ^ 32) (hge : a.nextNeeded ≤ k)
    (hlt : k < a.nextNeeded + L.geometry.maxLiveSlices) (hk : k < L.slices) {slots : List ℕ}
    (hnodup : slots.Nodup)
    (hfree : ∀ slot ∈ slots, slot < (L.slice k).length ∧ a.has k slot = false) :
    ∃ a', slots.foldlM (fun a slot => fed rs w total (.insert k slot) a) a = some a' ∧
      a'.Holds rs L ∧ a'.totalBlocks = a.totalBlocks ∧
        a'.received k = a.received k + slots.length := by
  induction slots generalizing a with
  | nil => exact ⟨a, rfl, h, rfl, rfl⟩
  | cons slot slots ih =>
    obtain ⟨hslot, hnone⟩ := hfree slot List.mem_cons_self
    obtain ⟨hnotin, hnodup⟩ := List.nodup_cons.mp hnodup
    obtain ⟨payload, width, hshard, hwidth⟩ := data_shard hw hk hslot
    rcases hi : a.insert k slot width payload with p | ⟨taken, a₁⟩
    · obtain ⟨_, ⟨_, hover⟩ | ⟨_, hover⟩⟩ := insert_eq_error hi <;>
        rw [h.geometry] at hover <;> omega
    have hfirst : fed rs w total (.insert k slot) a = some a₁ := by
      rw [fed_insert hw hshard hwidth, hi]
      rfl
    have h₁ := h.insert hshard hwidth hi
    obtain ⟨hreceived, hold⟩ := h.received_insert hshard hwidth hi hge
      (by rw [h.geometry]; exact hlt) hnone
    obtain ⟨hnext, htotal⟩ := Session.insert_frame hi
    obtain ⟨a', hrest, h', htotal', hreceived'⟩ := ih h₁ (by rw [hnext]; exact hbound)
      (by rw [hnext]; exact hge) (by rw [hnext]; exact hlt) hnodup fun slot' hmem => by
        refine ⟨(hfree slot' (List.mem_cons_of_mem slot hmem)).1, ?_⟩
        rw [← Bool.not_eq_true]
        intro hhas
        rcases hold slot' hhas with rfl | hhas
        · exact hnotin hmem
        · rw [(hfree slot' (List.mem_cons_of_mem slot hmem)).2] at hhas
          cases hhas
    refine ⟨a', ?_, h', htotal'.trans htotal, ?_⟩
    · rw [List.foldlM_cons, hfirst]
      exact hrest
    · rw [hreceived', hreceived, List.length_cons]
      omega

end Supply

section Gaps

variable {w : Window} {g : Geometry} {w₀ : Window} {a₀ : Assembler} {pushed : List Window.Call}

/-- The slice is complete, and what is held of it gives back the window's data. -/
def Recovers (rs : ReedSolomon) (w : Window) (a : Assembler) (k : ℕ) : Prop :=
  a.isComplete k ∧ ∃ slice ∈ w.live, slice.sliceNo = k ∧ ∃ held, a.slices.lookup k = some held ∧
    ∃ a', recover rs { a with slices := a.slices.erase k } held (a.target k) =
      .ok (slice.data, a')

/-- Of the slices sealed, a whole one. -/
def WholeSlice (w : Window) (k : ℕ) : Prop :=
  ∃ slice ∈ w.live, slice.sliceNo = k ∧ slice.data.length = w.geometry.blocksPerSlice

/-- The list of gaps up to a floor: which slices it names and what it asks of each, that the
shards asked for repair a slice in the window, and that it goes on from the slice that
`take_ready` waits for. -/
structure ExactGaps (rs : ReedSolomon) (w : Window) (total : ℕ) (a : Assembler) (floor : ℕ) :
    Prop where
  ascending : ((a.gaps floor).map Prod.fst).Pairwise (· < ·)
  listed : ∀ k, k ∈ (a.gaps floor).map Prod.fst ↔
    a.nextNeeded ≤ k ∧ k < a.totalSlices.getD floor ∧ a.isComplete k = false
  requests : ∀ gap ∈ a.gaps floor, a.Requests gap.1 gap.2
  repaired : ∀ gap ∈ a.gaps floor, gap.1 < a.nextNeeded + a.geometry.maxLiveSlices →
    a.totalBlocks.isSome ∨ WholeSlice w gap.1 → ∀ slots : List ℕ, slots.Perm gap.2 →
      ∃ a', slots.foldlM (fun a slot => fed rs w total (.insert gap.1 slot) a) a = some a' ∧
        a'.Recovers rs w gap.1
  goes_on : a.totalBlocks.isSome → ∃ ready a', a.takeReady rs = .ok (ready, a') ∧
    (a'.isFinished ∨ ∃ missing rest, a'.gaps floor = (a'.nextNeeded, missing) :: rest ∧
      missing ≠ [])

theorem Holds.totalSlices_eq (h : a.Holds rs L) (hw : w.Filled rs L) :
    ∀ slices ∈ a.totalSlices, slices = L.slices := by
  intro slices hslices
  obtain ⟨total, htotal, rfl⟩ := Option.map_eq_some_iff.mp hslices
  rw [h.total total htotal, h.geometry]
  exact Nat.mod_eq_of_lt hw.bound

theorem Holds.bound_le (h : a.Holds rs L) (hw : w.Filled rs L) (hfloor : floor ≤ L.slices) :
    a.totalSlices.getD floor ≤ L.slices := by
  rcases htotal : a.totalSlices with _ | slices
  · exact hfloor
  · exact (h.totalSlices_eq hw slices htotal).le

/-- The target of one of the slices sealed, its size known. -/
theorem Holds.target_of_whole (h : a.Holds rs L) (hk : k < L.slices)
    (hsize : a.totalBlocks.isSome ∨ (L.slice k).length = L.geometry.blocksPerSlice) :
    a.target k = (L.slice k).length := by
  have hstart := Ledger.lt_slices_iff.mp hk
  unfold target
  rcases htotal : a.totalBlocks with _ | total
  · rw [htotal] at hsize
    simp only [Option.isSome_none, Bool.false_eq_true, false_or] at hsize
    rw [hsize, ← h.geometry]
  · obtain rfl := h.total total htotal
    simp only [h.geometry, L.length_slice]
    split_ifs <;> omega

theorem Holds.target_pos (h : a.Holds rs L) (hk : k < L.slices) : 0 < a.target k := by
  rcases htotal : a.totalBlocks with _ | total
  · unfold target
    rw [htotal]
    exact a.geometry.blocksPerSlice_pos
  · rw [h.target_of_whole hk (.inl (by simp [htotal]))]
    exact Ledger.length_slice_pos_iff.mpr hk

theorem Holds.gap_requests (h : a.Holds rs L) (hw : w.Filled rs L) (hfloor : floor ≤ L.slices)
    {gap : ℕ × List ℕ} (hgap : gap ∈ a.gaps floor) :
    a.Requests gap.1 gap.2 ∧ gap.1 < L.slices := by
  obtain ⟨_, hlt, hopen, heq⟩ := mem_gaps_iff.mp hgap
  have hk := hlt.trans_le (h.bound_le hw hfloor)
  rw [heq]
  exact ⟨h.toWf.requests hopen (h.target_pos hk), hk⟩

/-- What is asked for repairs the slice. -/
theorem Holds.repaired (h : a.Holds rs L) (hw : w.Filled rs L) (hfits : Exchange.Fits L)
    (hfloor : floor ≤ L.slices) {gap : ℕ × List ℕ} (hgap : gap ∈ a.gaps floor)
    (hlt : gap.1 < a.nextNeeded + a.geometry.maxLiveSlices)
    (hsize : a.totalBlocks.isSome ∨ WholeSlice w gap.1) {slots : List ℕ}
    (hslots : slots.Perm gap.2) (total : ℕ) :
    ∃ a', slots.foldlM (fun a slot => fed rs w total (.insert gap.1 slot) a) a = some a' ∧
      a'.Recovers rs w gap.1 := by
  obtain ⟨hrequests, hk⟩ := h.gap_requests hw hfloor hgap
  have hge := (mem_gaps_iff.mp hgap).1
  have hwhole : a.totalBlocks.isSome ∨ (L.slice gap.1).length = L.geometry.blocksPerSlice := by
    apply hsize.imp_right
    rintro ⟨slice, hmem, hno, hlen⟩
    rw [hw.live_eq] at hmem
    obtain ⟨k, _, rfl⟩ := List.mem_map.mp hmem
    obtain rfl : k = gap.1 := hno
    rw [hw.tracks.geometry] at hlen
    exact hlen
  have htarget := h.target_of_whole hk hwhole
  have hpos := hrequests.length
  rw [h.geometry] at hlt
  obtain ⟨a', hfold, h', htotal, hreceived⟩ := h.supply total hw hfits.1
    (by have := hfits.2; omega) hge hlt hk
    (hslots.nodup_iff.mpr (hrequests.ascending.imp Nat.ne_of_lt)) fun slot hslot => by
      have hfree := hrequests.free slot (hslots.subset hslot)
      exact ⟨htarget ▸ hfree.1, hfree.2.2⟩
  have htarget' : a'.target gap.1 = (L.slice gap.1).length :=
    h'.target_of_whole hk (by rw [htotal]; exact hwhole)
  have henough : (L.slice gap.1).length ≤ a'.received gap.1 := by
    rw [hreceived, hslots.length_eq, hpos, htarget]
    omega
  obtain ⟨held, hlook⟩ : ∃ held, a'.slices.lookup gap.1 = some held := by
    rcases hlook : a'.slices.lookup gap.1 with _ | held
    · have := Ledger.length_slice_pos_iff.mpr hk
      simp only [Assembler.received, hlook, Option.map_none, Option.getD_none] at henough
      omega
    · exact ⟨held, rfl⟩
  have hcomplete : (L.slice gap.1).length ≤ held.received := by
    simpa [Assembler.received, hlook] using henough
  refine ⟨a', hfold, ?_, Window.sealedSlice rs L gap.1, ?_, rfl, held, hlook, ?_⟩
  · rw [isComplete, hlook, htarget']
    simpa using hcomplete
  · rw [hw.live_eq]
    exact List.mem_map_of_mem (List.mem_range.mpr hk)
  · rw [htarget']
    exact h'.recover_eq hlook hcomplete _ h'.codec rfl

/-- After `take_ready` a known total is reached, or the slice that is next is asked for. -/
theorem Holds.goes_on (h : a.Holds rs L) (hw : w.Filled rs L) (htotal : a.totalBlocks.isSome) :
    ∃ ready a', a.takeReady rs = .ok (ready, a') ∧
      (a'.isFinished ∨ ∃ missing rest, a'.gaps floor = (a'.nextNeeded, missing) :: rest ∧
        missing ≠ []) := by
  rcases htake : a.takeReady rs with p | ⟨ready, a'⟩
  · have := (h.takeReady_error htake).2
    have := hw.bound
    omega
  refine ⟨ready, a', rfl, ?_⟩
  have h' := (h.takeReady htake).1
  obtain ⟨hreleased, hstop⟩ := takeReady_eq_ok.mp htake
  have htotal' : a'.totalBlocks.isSome := by rwa [hreleased.frame.2.1]
  obtain ⟨slices, hslices⟩ : ∃ slices, a'.totalSlices = some slices := by
    rw [totalSlices]
    obtain ⟨total, ht⟩ := Option.isSome_iff_exists.mp htotal'
    exact ⟨_, by rw [ht]; rfl⟩
  have heq := h'.totalSlices_eq hw slices hslices
  by_cases hdone : slices ≤ a'.nextNeeded
  · exact .inl (by simp [isFinished, hslices, hdone])
  · right
    have hopen : a'.isComplete a'.nextNeeded = false := by
      rw [← Bool.not_eq_true]
      exact fun hcomplete => hstop ⟨canWrite_iff.mpr (.inl htotal'), hcomplete⟩
    obtain ⟨width, hwidth⟩ : ∃ width, slices - a'.nextNeeded = width + 1 :=
      ⟨slices - a'.nextNeeded - 1, by omega⟩
    have hrequest := h'.toWf.requests hopen (h'.target_pos (by omega))
    refine ⟨a'.request a'.nextNeeded, ((List.range' (a'.nextNeeded + 1) width).filter fun k =>
      ¬ a'.isComplete k).map fun k => (k, a'.request k), ?_,
        List.ne_nil_of_length_pos hrequest.nonempty⟩
    rw [gaps_eq, hslices, Option.getD_some, hwidth, List.range'_succ,
      List.filter_cons_of_pos (by simpa using hopen), List.map_cons]

theorem Holds.exactGaps (h : a.Holds rs L) (hw : w.Filled rs L)
    (hfits : L.blocks ≠ [] → Exchange.Fits L) (hfloor : floor ≤ L.slices) (total : ℕ) :
    a.ExactGaps rs w total floor where
  ascending := gaps_ascending a floor
  listed := by
    intro k
    rw [List.mem_map]
    constructor
    · rintro ⟨gap, hgap, rfl⟩
      obtain ⟨hge, hlt, hopen, _⟩ := mem_gaps_iff.mp hgap
      exact ⟨hge, hlt, hopen⟩
    · rintro ⟨hge, hlt, hopen⟩
      exact ⟨(k, a.request k), mem_gaps_iff.mpr ⟨hge, hlt, hopen, rfl⟩, rfl⟩
  requests := fun gap hgap => (h.gap_requests hw hfloor hgap).1
  repaired := by
    intro gap hgap hlt hsize slots hslots
    have hk := (h.gap_requests hw hfloor hgap).2
    have hne : L.blocks ≠ [] := by
      intro hnil
      have := Ledger.lt_slices_iff.mp hk
      simp [hnil] at this
    exact h.repaired hw (hfits hne) hfloor hgap hlt hsize hslots total
  goes_on := h.goes_on hw

/-- A state of the receiving end is one of its assembler. -/
theorem reachable_of_calls {x : Exchange} {total : ℕ}
    (hx : Labelled.Reachable (Exchange.calls rs w total a₀) x) :
    Labelled.Reachable (feeds rs w total a₀) x.assembler := by
  refine Labelled.Reach.invariant (I := fun x =>
    Labelled.Reachable (feeds rs w total a₀) x.assembler) ?_ ?_ hx
  · rintro x rfl
    exact .start rfl
  · intro c x x' _ h hn
    apply h.step (a := c) trivial
    simp only [Exchange.calls] at hn
    split at hn
    · next x'' hc =>
      cases hn
      cases c with
      | insert k slot =>
        simp only [Exchange.call] at hc
        split at hc
        · next payload width hshard hwidth =>
          split_ifs at hc
          obtain ⟨⟨taken, a'⟩, hi, heq⟩ := bind_ok_iff.mp (Option.some.inj hc)
          simp only [feeds, fed, feed, hshard, hwidth, hi, ← Except.ok.inj heq]
          rfl
        · cases hc
      | done =>
        have heq := Except.ok.inj (Option.some.inj hc)
        simp only [feeds, fed, feed, ← heq]
      | takeReady =>
        obtain ⟨⟨ready, a'⟩, htake, heq⟩ := bind_ok_iff.mp (Option.some.inj hc)
        simp only [feeds, fed, feed, htake, ← Except.ok.inj heq]
        rfl
    · cases hn

/-- The slice that is next is asked for, and what is asked for can be put in. -/
theorem ExactGaps.bounds (h : a.ExactGaps rs w L.blocks.length floor) (ha : a.Holds rs L)
    (hw : w.Filled rs L) (htotal : a.totalBlocks.isSome) (hk : a.nextNeeded < L.slices)
    (hnone : a.slices.lookup a.nextNeeded = none) :
    a.nextNeeded + L.geometry.maxLiveSlices < 2 ^ 32 ∧
      L.geometry.blocksPerSlice + L.geometry.parityPerSlice < 2 ^ 16 := by
  have hopen : a.isComplete a.nextNeeded = false :=
    isComplete_eq_false_iff.mpr fun s hs => by simp [hnone] at hs
  have hgap : (a.nextNeeded, a.request a.nextNeeded) ∈ a.gaps floor := by
    obtain ⟨total, ht⟩ := Option.isSome_iff_exists.mp htotal
    have hslices : a.totalSlices = some L.slices := by
      have hsome : ∃ slices, a.totalSlices = some slices := ⟨_, by rw [totalSlices, ht]; rfl⟩
      obtain ⟨slices, hslices⟩ := hsome
      rw [hslices, ha.totalSlices_eq hw slices hslices]
    exact mem_gaps_iff.mpr ⟨le_rfl, by rw [hslices]; exact hk, hopen, rfl⟩
  have hrequests := h.requests _ hgap
  have hlive := a.geometry.maxLiveSlices_pos
  obtain ⟨a', hfold, -⟩ := h.repaired _ hgap (by simp only; omega) (.inl htotal) _ (.refl _)
  obtain ⟨slot, rest, hrest⟩ := List.exists_cons_of_length_pos hrequests.nonempty
  have hslot := (hrequests.free slot (by rw [hrest]; exact List.mem_cons_self)).1
  rw [ha.target_of_whole hk (.inl htotal)] at hslot
  obtain ⟨payload, width, hshard, hwidth⟩ := data_shard hw hk hslot
  simp only at hrest hfold
  rw [hrest, List.foldlM_cons, fed_insert hw hshard hwidth] at hfold
  rcases hi : a.insert a.nextNeeded slot width payload with p | ⟨taken, a₁⟩
  · simp [hi, Except.map, Except.toOption] at hfold
  · have hbounds := Assembler.bounds_of_insert le_rfl (by omega) hi
    rwa [ha.geometry] at hbounds

/-- What is asked for is exact in every state only where the numbers fit. -/
theorem fits_of_exactGaps (ha : Assembler.new L.geometry = .ok a₀) (hw : w.Filled rs L)
    (hall : ∀ a, Labelled.Reachable (feeds rs w L.blocks.length a₀) a →
      ∀ floor ≤ w.live.length, a.ExactGaps rs w L.blocks.length floor) (hne : L.blocks ≠ []) :
    Exchange.Fits L := by
  refine Exchange.fits_of_bounds ha hw (fun x hx hwaits hk => ?_) hne
  have hreach := reachable_of_calls hx
  exact (hall x.assembler hreach 0 (Nat.zero_le _)).bounds (holds_of_fed ha hw hreach) hw
    hwaits.total hk (hwaits.none _ le_rfl)

/-- All that is asked for, in whatever state and up to whatever slice sealed, is exact, enough and
never nothing, exactly where something is pushed only if the slots of a slice fit sixteen bits and
the slices with a window above them fit thirty-two. -/
theorem gaps_exact_iff (hwindow : Window.new g = .ok w₀) (hassembler : Assembler.new g = .ok a₀)
    (hsize : ∀ block ∈ Window.pushes pushed, block.length = g.blockSize)
    (hfill : w₀.fill rs pushed = .ok w) :
    (∀ a, Labelled.Reachable (feeds rs w (Window.pushes pushed).length a₀) a →
      ∀ floor ≤ w.live.length, a.ExactGaps rs w (Window.pushes pushed).length floor) ↔
      (Window.pushes pushed ≠ [] → g.blocksPerSlice + g.parityPerSlice < 2 ^ 16 ∧
        Chunks.divCeil (Window.pushes pushed).length g.blocksPerSlice + g.maxLiveSlices ≤
          2 ^ 32) := by
  obtain ⟨L, rfl, hblocks, hw⟩ := Exchange.exists_filled hwindow hsize hfill
  have hlive : w.live.length = L.slices := by
    rw [hw.live_eq, List.length_map, List.length_range]
  rw [← hblocks]
  constructor
  · exact fits_of_exactGaps hassembler hw
  · intro hfits a ha floor hfloor
    exact (holds_of_fed hassembler hw ha).exactGaps hw hfits (hlive ▸ hfloor) _

/-- What is asked for of one block, in the widest shape, cannot be put in. -/
theorem widest_request_panics : ∃ w₀ a₀ w, Window.new Exchange.widest = .ok w₀ ∧
    Assembler.new Exchange.widest = .ok a₀ ∧
    w₀.fill .interpolated [.push [1, 2]] = .ok w ∧
    ¬ ∀ a, Labelled.Reachable (feeds .interpolated w 1 a₀) a →
      ∀ floor ≤ w.live.length, a.ExactGaps .interpolated w 1 floor := by
  have haccepted : Exchange.widest.Accepted := .inr (by decide)
  obtain ⟨w₀, hwindow⟩ := Window.exists_new haccepted
  obtain ⟨a₀, hassembler⟩ := Assembler.exists_new haccepted
  obtain ⟨w, hfill⟩ : ∃ w, w₀.fill .interpolated [.push [1, 2]] = .ok w :=
    Exchange.exists_fill hwindow (by decide) (by decide)
  refine ⟨w₀, a₀, w, hwindow, hassembler, hfill, fun hall => ?_⟩
  obtain ⟨L, hgeometry, hblocks, hw⟩ := Exchange.exists_filled hwindow (by decide) hfill
  have hlen : L.blocks.length = 1 := congrArg List.length hblocks
  rw [← hgeometry] at hassembler
  rw [← hlen] at hall
  have hfits := fits_of_exactGaps hassembler hw hall (by rw [hblocks]; decide)
  rw [Exchange.Fits, hgeometry] at hfits
  exact absurd hfits.1 (by decide)

theorem gaps_exact_iff_narrow : ∃ w₀ a₀ w, Window.new Exchange.narrow = .ok w₀ ∧
    Assembler.new Exchange.narrow = .ok a₀ ∧
    w₀.fill .interpolated [.push [1, 2], .cover 0, .push [3, 4], .push [5, 6]] = .ok w ∧
    ∀ a, Labelled.Reachable (feeds .interpolated w 3 a₀) a →
      ∀ floor ≤ w.live.length, a.ExactGaps .interpolated w 3 floor := by
  have haccepted : Exchange.narrow.Accepted := .inr (by decide)
  obtain ⟨w₀, hwindow⟩ := Window.exists_new haccepted
  obtain ⟨a₀, hassembler⟩ := Assembler.exists_new haccepted
  obtain ⟨w, hfill⟩ : ∃ w,
      w₀.fill .interpolated [.push [1, 2], .cover 0, .push [3, 4], .push [5, 6]] = .ok w :=
    Exchange.exists_fill hwindow (by decide) (by decide)
  exact ⟨w₀, a₀, w, hwindow, hassembler, hfill,
    (gaps_exact_iff hwindow hassembler (by decide) hfill).mpr fun _ => by decide⟩

end Gaps

end Assembler
end Scuttlecast
