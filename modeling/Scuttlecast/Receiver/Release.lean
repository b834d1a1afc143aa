import Scuttlecast.Receiver.Recovery
import Scuttlecast.Ledger

/-! The assembler against the ledger: it holds only shards of the transfer, and what `take_ready`
releases is the data of the next slices, whole and in order. -/
namespace Scuttlecast
namespace Assembler

section Loop

variable {rs : ReedSolomon} {a a' : Assembler} {blocks : List Bytes}

/-- Some turns of the loop, with the blocks they released. -/
inductive Released (rs : ReedSolomon) : Assembler → List Bytes → Assembler → Prop
  | done (a : Assembler) : Released rs a [] a
  | turn {a a' a'' : Assembler} {blocks ready : List Bytes}
      (h : release rs a = .ok (some (blocks, a'))) (hrest : Released rs a' ready a'') :
      Released rs a (blocks ++ ready) a''

theorem exists_lookup_of_ready (h : a.Ready) :
    ∃ s, a.slices.lookup a.nextNeeded = some s ∧ a.target a.nextNeeded ≤ s.received := by
  have hcomplete := h.2
  unfold isComplete at hcomplete
  rcases hs : a.slices.lookup a.nextNeeded with _ | s
  · simp [hs] at hcomplete
  · exact ⟨s, rfl, by simpa [hs] using hcomplete⟩

/-- A turn is taken exactly when the guard holds; then the slice is recovered and counted. -/
theorem release_eq_some (h : release rs a = .ok (some (blocks, a'))) :
    ∃ s a₁, a.slices.lookup a.nextNeeded = some s ∧ a.Ready ∧
      recover rs { a with slices := a.slices.erase a.nextNeeded } s (a.target a.nextNeeded) =
        .ok (blocks, a₁) ∧
      a₁.nextNeeded + 1 < 2 ^ 32 ∧ a' = { a₁ with nextNeeded := a₁.nextNeeded + 1 } := by
  unfold release at h
  split at h
  · next hready =>
    split at h
    · simp at h
    · next s hs =>
      simp only [bind_ok_iff] at h
      obtain ⟨⟨b, a₁⟩, hrec, n, hn, heq⟩ := h
      obtain ⟨hlt, rfl⟩ := addChecked_eq_ok.mp hn
      simp only [Except.ok.injEq, Option.some.injEq, Prod.mk.injEq] at heq
      obtain ⟨rfl, rfl⟩ := heq
      exact ⟨s, a₁, hs, hready, hrec, hlt, rfl⟩
  · simp at h

theorem release_eq_none_iff : release rs a = .ok none ↔ ¬ a.Ready := by
  constructor
  · intro h hready
    obtain ⟨s, hs, _⟩ := exists_lookup_of_ready hready
    unfold release at h
    rw [if_pos hready] at h
    simp only [hs, bind_ok_iff] at h
    obtain ⟨_, _, _, _, heq⟩ := h
    simp at heq
  · intro h
    exact if_neg h

theorem release_eq_error {p : Panic} (h : release rs a = .error p) :
    ∃ s, a.slices.lookup a.nextNeeded = some s ∧ a.Ready ∧
      (recover rs { a with slices := a.slices.erase a.nextNeeded } s (a.target a.nextNeeded) =
          .error p ∨
        ∃ b a₁, recover rs { a with slices := a.slices.erase a.nextNeeded } s
            (a.target a.nextNeeded) = .ok (b, a₁) ∧
          2 ^ 32 ≤ a₁.nextNeeded + 1 ∧ p = .overflow 32) := by
  unfold release at h
  split at h
  · next hready =>
    split at h
    · simp at h
    · next s hs =>
      refine ⟨s, hs, hready, ?_⟩
      simp only [bind_error_iff] at h
      rcases h with h | ⟨⟨b, a₁⟩, hrec, h⟩
      · exact .inl h
      · refine .inr ⟨b, a₁, hrec, ?_⟩
        rcases h with h | ⟨n, _, h⟩
        · exact addChecked_eq_error.mp h
        · simp at h
  · simp at h

/-- What a turn leaves: the released slice is gone, the count is one higher, and nothing else
but the codec has changed. -/
theorem release_frame (h : release rs a = .ok (some (blocks, a'))) :
    a'.nextNeeded = a.nextNeeded + 1 ∧ a'.nextNeeded < 2 ^ 32 ∧
      a'.slices = a.slices.erase a.nextNeeded ∧ a'.totalBlocks = a.totalBlocks ∧
      a'.geometry = a.geometry := by
  obtain ⟨s, a₁, _, _, hrec, hlt, rfl⟩ := release_eq_some h
  obtain ⟨codec, width, rfl⟩ := recover_frame hrec
  exact ⟨rfl, hlt, rfl, rfl, rfl⟩

theorem length_entries_of_release (h : release rs a = .ok (some (blocks, a'))) :
    a'.slices.entries.length + 1 = a.slices.entries.length := by
  obtain ⟨s, _, hs, _⟩ := release_eq_some h
  rw [(release_frame h).2.2.1]
  exact Table.length_erase hs

/-- Nothing buffered, nothing ready. -/
theorem not_ready_of_empty (h : a.slices.entries.length ≤ 0) : ¬ a.Ready := by
  intro hready
  obtain ⟨s, hs, _⟩ := exists_lookup_of_ready hready
  have := Table.length_erase hs
  omega

/-- The loop ends, and it ends well after turns that lead where its guard fails. -/
theorem takeReadyFrom_eq_ok {fuel : ℕ} (hfuel : a.slices.entries.length ≤ fuel) :
    takeReadyFrom rs fuel a = .ok (blocks, a') ↔ Released rs a blocks a' ∧ ¬ a'.Ready := by
  induction fuel generalizing a blocks with
  | zero =>
    have hempty : ¬ a.Ready := not_ready_of_empty hfuel
    simp only [takeReadyFrom, Except.ok.injEq, Prod.mk.injEq]
    constructor
    · rintro ⟨rfl, rfl⟩
      exact ⟨.done a, hempty⟩
    · rintro ⟨hr, _⟩
      cases hr with
      | done => exact ⟨rfl, rfl⟩
      | turn h _ =>
        obtain ⟨_, _, _, hready, _⟩ := release_eq_some h
        exact absurd hready hempty
  | succ fuel ih =>
    unfold takeReadyFrom
    constructor
    · intro h
      obtain ⟨r, hr, h⟩ := bind_ok_iff.mp h
      rcases r with _ | ⟨b, a₁⟩
      · simp only [Except.ok.injEq, Prod.mk.injEq] at h
        obtain ⟨rfl, rfl⟩ := h
        exact ⟨.done a, release_eq_none_iff.mp hr⟩
      · obtain ⟨⟨ready, a₂⟩, hrest, heq⟩ := bind_ok_iff.mp h
        simp only [Except.ok.injEq, Prod.mk.injEq] at heq
        obtain ⟨rfl, rfl⟩ := heq
        have hlen := length_entries_of_release hr
        obtain ⟨hrest, hend⟩ := (ih (by omega)).mp hrest
        exact ⟨.turn hr hrest, hend⟩
    · rintro ⟨h, hend⟩
      cases h with
      | done => rw [release_eq_none_iff.mpr hend]; rfl
      | @turn a a₁ _ b ready h hrest =>
        have hlen := length_entries_of_release h
        rw [h, ok_bind]
        simp only [(ih (by omega)).mpr ⟨hrest, hend⟩, ok_bind]

theorem takeReady_eq_ok :
    takeReady rs a = .ok (blocks, a') ↔ Released rs a blocks a' ∧ ¬ a'.Ready :=
  takeReadyFrom_eq_ok le_rfl

/-- The loop dies exactly in the first turn that does. -/
theorem takeReadyFrom_eq_error {p : Panic} {fuel : ℕ} (hfuel : a.slices.entries.length ≤ fuel) :
    takeReadyFrom rs fuel a = .error p ↔
      ∃ blocks a', Released rs a blocks a' ∧ release rs a' = .error p := by
  induction fuel generalizing a with
  | zero =>
    have hempty : ¬ a.Ready := not_ready_of_empty hfuel
    simp only [takeReadyFrom, reduceCtorEq, false_iff, not_exists, not_and]
    intro blocks a' hr herr
    cases hr with
    | done =>
      obtain ⟨_, _, hready, _⟩ := release_eq_error herr
      exact hempty hready
    | turn h _ =>
      obtain ⟨_, _, _, hready, _⟩ := release_eq_some h
      exact hempty hready
  | succ fuel ih =>
    unfold takeReadyFrom
    constructor
    · intro h
      rcases bind_error_iff.mp h with h | ⟨r, hr, h⟩
      · exact ⟨[], a, .done a, h⟩
      · rcases r with _ | ⟨b, a₁⟩
        · simp at h
        · have hlen := length_entries_of_release hr
          rcases bind_error_iff.mp h with h | ⟨_, _, h⟩
          · obtain ⟨ready, a₂, hrest, herr⟩ := (ih (by omega)).mp h
            exact ⟨b ++ ready, a₂, .turn hr hrest, herr⟩
          · simp at h
    · rintro ⟨_, a₂, hr, herr⟩
      cases hr with
      | done => rw [herr]; rfl
      | @turn a a₁ _ b ready h hrest =>
        have hlen := length_entries_of_release h
        rw [h, ok_bind]
        simp only [(ih (by omega)).mpr ⟨ready, a₂, hrest, herr⟩]
        rfl

theorem takeReady_eq_error {p : Panic} :
    takeReady rs a = .error p ↔ ∃ blocks a', Released rs a blocks a' ∧ release rs a' = .error p :=
  takeReadyFrom_eq_error le_rfl

/-- Over several turns: what is left is what lies above the count reached. -/
theorem Released.frame (h : Released rs a blocks a') :
    a.nextNeeded ≤ a'.nextNeeded ∧ a'.totalBlocks = a.totalBlocks ∧ a'.geometry = a.geometry ∧
      ∀ k, a'.slices.lookup k =
        if a.nextNeeded ≤ k ∧ k < a'.nextNeeded then none else a.slices.lookup k := by
  induction h with
  | done a =>
    refine ⟨le_rfl, rfl, rfl, fun k => ?_⟩
    rw [if_neg (by omega)]
  | @turn a a₁ a₂ _ _ h _ ih =>
    obtain ⟨hnext, _, hslices, htotal, hgeo⟩ := release_frame h
    obtain ⟨hle, htotal', hgeo', hlookup⟩ := ih
    refine ⟨by omega, htotal'.trans htotal, hgeo'.trans hgeo, fun k => ?_⟩
    rw [hlookup, hslices, Table.lookup_erase', hnext]
    by_cases hk : k = a.nextNeeded
    · subst hk
      simp only [if_true, ite_self]
      rw [if_pos (by omega)]
    · rw [if_neg hk]
      congr 1
      exact propext (by omega)

end Loop

/-- What `check_shard` lets through: an existing slot, a width the transfer allows, parity inside
the width it names, a payload of one block. -/
structure Checked (g : Geometry) (slot parityWidth : ℕ) (payload : Bytes) : Prop where
  slot_lt : slot < g.blocksPerSlice + g.parityPerSlice
  width_le : parityWidth ≤ g.parityPerSlice
  parity : g.blocksPerSlice ≤ slot → slot - g.blocksPerSlice < parityWidth
  size : payload.length = g.blockSize

/-- The shards of a transfer pass the check. -/
theorem Checked.of_shard {rs : ReedSolomon} {L : Ledger} {k slot w : ℕ} {payload : Bytes}
    (h : L.shard rs k slot = some payload) (hw : L.widths[k]? = some w) :
    Checked L.geometry slot w payload := by
  have hle := L.width_le w (List.mem_of_getElem? hw)
  have hparity (hge : L.geometry.blocksPerSlice ≤ slot) :
      slot - L.geometry.blocksPerSlice < w := by
    obtain ⟨w', hw', hlt⟩ := Ledger.width_of_shard h hge
    rw [hw] at hw'
    exact Option.some.inj hw' ▸ hlt
  refine ⟨?_, hle, hparity, Ledger.size_of_shard h⟩
  by_cases hge : L.geometry.blocksPerSlice ≤ slot
  · have := hparity hge
    omega
  · omega

/-- What holds of the assembler under any checked shards and any totals. -/
structure Wf (a : Assembler) : Prop where
  codec : a.CodecOk
  wf : ∀ k s, a.slices.lookup k = some s → s.Wf a.geometry
  nonempty : ∀ k s, a.slices.lookup k = some s → ∃ slot payload, s.payload slot = some payload
  above : ∀ k s, a.slices.lookup k = some s → a.nextNeeded ≤ k

/-- Everything the assembler holds is the ledger's, and it has been told nothing false. -/
structure Holds (rs : ReedSolomon) (L : Ledger) (a : Assembler) : Prop extends a.Wf where
  geometry : a.geometry = L.geometry
  shard : ∀ k s, a.slices.lookup k = some s → ∀ slot payload, s.payload slot = some payload →
    L.shard rs k slot = some payload
  width : ∀ k s, a.slices.lookup k = some s → 0 < s.parityWidth →
    L.widths[k]? = some s.parityWidth
  total : ∀ total ∈ a.totalBlocks, total = L.blocks.length
  nextNeeded_le : a.nextNeeded ≤ L.slices

variable {rs : ReedSolomon} {L : Ledger} {a : Assembler} {s : Slice} {k : ℕ}

/-- A buffered slice is one of the transfer's. -/
theorem Holds.lt_slices (h : a.Holds rs L) (hs : a.slices.lookup k = some s) : k < L.slices := by
  obtain ⟨slot, payload, hp⟩ := h.nonempty k s hs
  exact Ledger.lt_slices_of_shard (h.shard k s hs slot payload hp)

/-- No data slot past the end of the slice is held. -/
theorem Holds.below_eq (h : a.Holds rs L) (hs : a.slices.lookup k = some s) :
    s.below a.geometry.blocksPerSlice = s.below (L.slice k).length := by
  have hle := L.length_slice_le k
  rw [h.geometry]
  unfold Slice.below
  conv_lhs =>
    rw [← List.take_append_drop (L.slice k).length (s.slots.take L.geometry.blocksPerSlice),
      List.countP_append, List.take_take, Nat.min_eq_left hle]
  have hzero : ((s.slots.take L.geometry.blocksPerSlice).drop (L.slice k).length).countP
      (·.isSome) = 0 := by
    refine countP_isSome_eq_zero fun j p hj => ?_
    rw [List.getElem?_drop, List.getElem?_take] at hj
    split_ifs at hj with hlt
    have := Ledger.lt_length_of_shard
      (h.shard k s hs _ p (Slice.payload_eq_some.mpr hj)) hlt
    omega
  omega

/-- A slice that may be written has settled its size: the target is the true one. -/
theorem Holds.target_eq (h : a.Holds rs L) (hs : a.slices.lookup k = some s)
    (hw : a.canWrite k) : a.target k = (L.slice k).length := by
  have hpos := L.geometry.blocksPerSlice_pos
  have hk := Ledger.lt_slices_iff.mp (h.lt_slices hs)
  unfold target
  rcases htotal : a.totalBlocks with _ | total
  · simp only [h.geometry]
    unfold canWrite at hw
    simp only [htotal, Option.isSome_none, Bool.false_or, Bool.or_eq_true, List.any_eq_true,
      decide_eq_true_eq, hs, Option.any_some] at hw
    rcases hw with ⟨⟨k', s'⟩, hmem, hlt⟩ | hpresent
    · have hs' := Table.lookup_eq_some_iff.mpr hmem
      exact (Ledger.length_slice_of_lt hlt (h.lt_slices hs')).symm
    · have hlen := (h.wf k s hs).length
      rw [Slice.dataPresent_iff, h.geometry] at hpresent
      rw [h.geometry] at hlen
      have hlast := hpresent (L.geometry.blocksPerSlice - 1) (by omega)
      obtain ⟨p, hp⟩ := Option.isSome_iff_exists.mp hlast
      have := Ledger.lt_length_of_shard (h.shard k s hs _ p hp) (by omega)
      have := L.length_slice_le k
      omega
  · have := h.total total (by simp [htotal])
    subst this
    simp only [h.geometry, L.length_slice]
    split_ifs <;> omega

/-- A data slot that is held has the ledger's block. -/
theorem Holds.value (h : a.Holds rs L) (hs : a.slices.lookup k = some s) {i : ℕ} {p : Bytes}
    (hi : i < (L.slice k).length) (hp : s.payload i = some p) : (L.slice k)[i]? = some p := by
  have := L.length_slice_le k
  rw [← (Ledger.shard_data (by omega) : L.shard rs k i = _)]
  exact h.shard k s hs i p hp

/-- With all its data present, a slice is the ledger's as it stands. -/
theorem Holds.take_slots (h : a.Holds rs L) (hs : a.slices.lookup k = some s)
    (hpresent : s.dataPresent (L.slice k).length) :
    s.slots.take (L.slice k).length = (L.slice k).map some := by
  have hlen := (h.wf k s hs).length
  have hle := L.length_slice_le k
  rw [h.geometry] at hlen
  apply List.ext_getElem?
  intro i
  rw [List.getElem?_take, List.getElem?_map]
  by_cases hi : i < (L.slice k).length
  · obtain ⟨p, hp⟩ := Option.isSome_iff_exists.mp
      (Slice.dataPresent_iff.mp hpresent i (by omega))
    rw [if_pos hi, Slice.payload_eq_some.mp hp, h.value hs hi hp]
    rfl
  · rw [if_neg hi, List.getElem?_eq_none (by omega)]
    rfl

/-- Every original the decoder is given is the ledger's, implicit zeros included. -/
theorem Holds.given_eq (h : a.Holds rs L) (hs : a.slices.lookup k = some s) {i : ℕ} {x : Bytes}
    (hi : i < L.geometry.blocksPerSlice)
    (hx : given L.geometry (L.slice k).length s.slots 0 i = some x) :
    (L.originals k)[i]? = some x := by
  have hlen := (h.wf k s hs).length
  rw [h.geometry] at hlen
  have hget : s.slots[i]? = some (s.slots[i]) := List.getElem?_eq_getElem _
  rw [Ledger.getElem?_originals]
  simp only [given, hi, if_true, Nat.sub_zero, hget] at hx
  rcases hslot : s.slots[i] with _ | p
  · simp only [hslot] at hx
    split_ifs at hx with hge
    rw [if_neg (by omega), if_pos hi, ← Option.some.inj hx]
  · simp only [hslot, Option.some.injEq] at hx
    subst hx
    have hp : s.payload i = some p := Slice.payload_eq_some.mpr (by rw [hget, hslot])
    have hlt := Ledger.lt_length_of_shard (h.shard k s hs i p hp) hi
    rw [if_pos hlt, h.value hs hlt hp]

/-- Every recovery shard the decoder is given is the ledger's parity. -/
theorem Holds.recovery_eq (h : a.Holds rs L) (hs : a.slices.lookup k = some s)
    (hwidth : 0 < s.parityWidth) {j : ℕ} {y : Bytes}
    (hy : s.payload (L.geometry.blocksPerSlice + j) = some y) :
    (rs.recovery L.geometry.blocksPerSlice s.parityWidth (L.originals k))[j]? = some y := by
  have hshard := h.shard k s hs _ y hy
  rwa [Ledger.shard, if_neg (by omega), if_pos (h.lt_slices hs),
    Ledger.parity_eq (h.width k s hs hwidth) hwidth, Nat.add_sub_cancel_left] at hshard

/-- A complete slice has as many shards as it has blocks, not counting slots past its end. -/
theorem Holds.enough (h : a.Holds rs L) (hs : a.slices.lookup k = some s)
    (hcomplete : (L.slice k).length ≤ s.received) :
    (L.slice k).length ≤ s.below (L.slice k).length + s.above L.geometry.blocksPerSlice := by
  have := h.below_eq hs
  have := s.below_add_above L.geometry.blocksPerSlice
  rw [(h.wf k s hs).received] at hcomplete
  rw [h.geometry] at *
  omega

/-- What the decoder restores is the ledger's. -/
theorem Holds.restored_eq (h : a.Holds rs L) (hs : a.slices.lookup k = some s)
    (hcomplete : (L.slice k).length ≤ s.received) (hwidth : 0 < s.parityWidth) {i : ℕ}
    (hi : i < L.geometry.blocksPerSlice) :
    (L.originals k)[i]? = some (rs.restored L.geometry.blocksPerSlice s.parityWidth
      (given L.geometry (L.slice k).length s.slots 0)
      (fun j => s.payload (L.geometry.blocksPerSlice + j)) i) := by
  have hlen := (h.wf k s hs).length
  have hle := L.length_slice_le k
  have hheld := (h.wf k s hs).held_parity
  have henough := h.enough hs hcomplete
  rw [h.geometry] at hlen hheld
  have hgiven := held_given s.slots (g := L.geometry) hle (by omega)
    (m := L.geometry.blocksPerSlice - (L.slice k).length) (by omega)
  rw [Nat.add_sub_cancel' hle] at hgiven
  have hcount : L.geometry.blocksPerSlice ≤
      held (given L.geometry (L.slice k).length s.slots 0) L.geometry.blocksPerSlice +
        held (fun j => s.payload (L.geometry.blocksPerSlice + j)) s.parityWidth := by
    rw [hgiven, hheld]
    change _ ≤ s.below _ + _ + _
    omega
  exact rs.restores (Ledger.supported (h.width k s hs hwidth) hwidth) (L.length_originals k)
    (fun _ => Ledger.size_originals) (fun i hi x hx => h.given_eq hs hi hx)
    (fun j _ y hy => h.recovery_eq hs hwidth hy) hcount i hi

/-- What `recover` makes of a complete slice of the transfer: its data blocks. -/
theorem Holds.recover_eq (h : a.Holds rs L) (hs : a.slices.lookup k = some s)
    (hcomplete : (L.slice k).length ≤ s.received) (a' : Assembler) (hc : a'.CodecOk)
    (hg : a'.geometry = a.geometry) :
    ∃ a'', recover rs a' s (L.slice k).length = .ok (L.slice k, a'') := by
  have hwf := h.wf k s hs
  have hle := L.length_slice_le k
  have hwf' : s.Wf a'.geometry := hg ▸ hwf
  have hgL : a'.geometry = L.geometry := hg.trans h.geometry
  rw [Assembler.recover_eq rs hc hwf' (by rw [hgL]; exact hle)]
  by_cases hpresent : s.dataPresent (L.slice k).length
  · refine ⟨a', ?_⟩
    rw [if_pos hpresent]
    simp [h.take_slots hs hpresent, List.filterMap_map]
  refine ⟨a'.withCodec s.parityWidth, ?_⟩
  have henough := h.enough hs hcomplete
  have hbelow : s.below (L.slice k).length < (L.slice k).length := by
    have hlen := hwf.length
    rw [h.geometry] at hlen
    have hne := mt (Slice.dataPresent_iff_below (s := s) (by omega)).mpr hpresent
    have := s.below_le (L.slice k).length
    omega
  have hheld := hwf'.held_parity
  rw [hgL] at hheld ⊢
  have hwidth : 0 < s.parityWidth := by
    by_contra hzero
    rw [Nat.eq_zero_of_not_pos hzero] at hheld
    simp only [held, List.range_zero, List.countP_nil] at hheld
    omega
  have hsup := Ledger.supported (h.width k s hs hwidth) hwidth
  rw [if_neg hpresent, if_neg (not_not.mpr hsup), if_neg (Nat.not_lt.mpr henough)]
  congr 2
  apply List.ext_getElem?
  intro i
  rw [List.getElem?_map]
  by_cases hi : i < (L.slice k).length
  · rw [List.getElem?_range hi]
    rcases hp : s.payload i with _ | p
    · have hrestored := h.restored_eq hs hcomplete hwidth (i := i) (by omega)
      rw [Ledger.getElem?_originals, if_pos hi] at hrestored
      simp [hp, hrestored]
    · simp [hp, h.value hs hi hp]
  · simp [hi]

/-- A turn of the loop keeps the invariant. -/
theorem Wf.release {a' : Assembler} {blocks : List Bytes} (h : a.Wf)
    (hr : Assembler.release rs a = .ok (some (blocks, a'))) : a'.Wf := by
  obtain ⟨hnext, _, hslices, _, hgeo⟩ := release_frame hr
  obtain ⟨s, a₁, hs, _, hrec, _, rfl⟩ := release_eq_some hr
  have hlookup (k : ℕ) (s' : Slice) (hs' : a₁.slices.lookup k = some s') :
      k ≠ a.nextNeeded ∧ a.slices.lookup k = some s' := by
    have heq : a₁.slices = a.slices.erase a.nextNeeded := hslices
    rw [heq, Table.lookup_erase'] at hs'
    split_ifs at hs' with hk
    exact ⟨hk, hs'⟩
  have hcodec := recover_codec (a := { a with slices := a.slices.erase a.nextNeeded }) h.codec
    (h.wf _ s hs) (a.target_le _) hrec
  refine ⟨hcodec, ?_, ?_, ?_⟩
  · intro k s' hs'
    rw [hgeo]
    exact h.wf k s' (hlookup k s' hs').2
  · intro k s' hs'
    exact h.nonempty k s' (hlookup k s' hs').2
  · intro k s' hs'
    obtain ⟨hne, hold⟩ := hlookup k s' hs'
    have := h.above k s' hold
    omega

/-- A turn of the loop releases the data of the slice that is next. -/
theorem Holds.release {a' : Assembler} {blocks : List Bytes} (h : a.Holds rs L)
    (hr : Assembler.release rs a = .ok (some (blocks, a'))) :
    a'.Holds rs L ∧ blocks = L.slice a.nextNeeded := by
  obtain ⟨hnext, _, hslices, htotal, hgeo⟩ := release_frame hr
  have hwf := h.toWf.release hr
  obtain ⟨s, a₁, hs, hready, hrec, _, rfl⟩ := release_eq_some hr
  have htarget := h.target_eq hs hready.1
  obtain ⟨s₁, hs₁, hcomplete⟩ := exists_lookup_of_ready hready
  obtain rfl : s₁ = s := by simpa [hs] using hs₁.symm
  rw [htarget] at hcomplete hrec
  obtain ⟨a₂, hrec₂⟩ := h.recover_eq hs hcomplete
    { a with slices := a.slices.erase a.nextNeeded } h.codec rfl
  rw [hrec₂] at hrec
  simp only [Except.ok.injEq, Prod.mk.injEq] at hrec
  have hlookup (k : ℕ) (s' : Slice) (hs' : a₁.slices.lookup k = some s') :
      a.slices.lookup k = some s' := by
    have heq : a₁.slices = a.slices.erase a.nextNeeded := hslices
    rw [heq, Table.lookup_erase'] at hs'
    split_ifs at hs'
    exact hs'
  refine ⟨⟨hwf, hgeo.trans h.geometry, fun k s' hs' => h.shard k s' (hlookup k s' hs'),
    fun k s' hs' => h.width k s' (hlookup k s' hs'), ?_, ?_⟩, hrec.1.symm⟩
  · rw [htotal]
    exact h.total
  · rw [hnext]
    exact h.lt_slices hs

/-- A turn of the loop dies only when the slices run out of numbers. -/
theorem Holds.release_error {p : Panic} (h : a.Holds rs L)
    (hr : Assembler.release rs a = .error p) : p = .overflow 32 ∧ 2 ^ 32 ≤ L.slices := by
  obtain ⟨s, hs, hready, hcase⟩ := release_eq_error hr
  have htarget := h.target_eq hs hready.1
  obtain ⟨s₁, hs₁, hcomplete⟩ := exists_lookup_of_ready hready
  obtain rfl : s₁ = s := by simpa [hs] using hs₁.symm
  rw [htarget] at hcomplete hcase
  obtain ⟨a₂, hrec₂⟩ := h.recover_eq hs hcomplete
    { a with slices := a.slices.erase a.nextNeeded } h.codec rfl
  rw [hrec₂] at hcase
  rcases hcase with hcase | ⟨b, a₁, hrec, hle, rfl⟩
  · simp at hcase
  · simp only [Except.ok.injEq, Prod.mk.injEq] at hrec
    obtain ⟨_, rfl⟩ := hrec
    obtain ⟨_, _, rfl⟩ := recover_frame hrec₂
    have := h.lt_slices hs
    exact ⟨rfl, by simp only at hle; omega⟩

/-- Several turns release the data of as many slices, whole and in order. -/
theorem Holds.released {a' : Assembler} {blocks : List Bytes} (h : a.Holds rs L)
    (hr : Released rs a blocks a') :
    a'.Holds rs L ∧ L.blocks.take (a'.nextNeeded * L.geometry.blocksPerSlice) =
      L.blocks.take (a.nextNeeded * L.geometry.blocksPerSlice) ++ blocks := by
  induction hr with
  | done a => exact ⟨h, (List.append_nil _).symm⟩
  | @turn a a₁ a₂ blocks ready hturn _ ih =>
    obtain ⟨h₁, rfl⟩ := h.release hturn
    obtain ⟨h₂, hready⟩ := ih h₁
    refine ⟨h₂, ?_⟩
    rw [hready, (release_frame hturn).1, Chunks.take_succ_mul, List.append_assoc]
    rfl

/-- `take_ready` on an honest assembler. -/
theorem Holds.takeReady {a' : Assembler} {blocks : List Bytes} (h : a.Holds rs L)
    (hr : Assembler.takeReady rs a = .ok (blocks, a')) :
    a'.Holds rs L ∧ L.blocks.take (a'.nextNeeded * L.geometry.blocksPerSlice) =
      L.blocks.take (a.nextNeeded * L.geometry.blocksPerSlice) ++ blocks :=
  h.released (takeReady_eq_ok.mp hr).1

theorem Holds.takeReady_error {p : Panic} (h : a.Holds rs L)
    (hr : Assembler.takeReady rs a = .error p) : p = .overflow 32 ∧ 2 ^ 32 ≤ L.slices := by
  obtain ⟨_, a', hreleased, herr⟩ := takeReady_eq_error.mp hr
  exact (h.released hreleased).1.release_error herr

section Insert

variable {a' : Assembler} {slot w : ℕ} {payload : Bytes} {taken : Bool}

/-- The slice that a shard of slice `k` goes into. -/
def sliceFor (a : Assembler) (k : ℕ) : Slice :=
  (a.slices.lookup k).getD (.empty (a.geometry.blocksPerSlice + a.geometry.parityPerSlice))

theorem insert_eq_ok (h : a.insert k slot w payload = .ok (taken, a')) :
    (taken = false ∧ a' = a ∧ (k < a.nextNeeded ∨ a.nextNeeded + a.geometry.maxLiveSlices ≤ k)) ∨
    (a.nextNeeded ≤ k ∧ k < a.nextNeeded + a.geometry.maxLiveSlices ∧
      ∃ s', (a.sliceFor k).insert slot w payload = (taken, s') ∧
        a' = { a with slices := a.slices.insert k s' }) := by
  unfold insert at h
  split at h
  · next hlt =>
    simp only [Except.ok.injEq, Prod.mk.injEq] at h
    exact .inl ⟨h.1.symm, h.2.symm, .inl hlt⟩
  · next hge =>
    obtain ⟨limit, hlimit, h⟩ := bind_ok_iff.mp h
    obtain ⟨_, rfl⟩ := addChecked_eq_ok.mp hlimit
    split at h
    · next hle =>
      simp only [Except.ok.injEq, Prod.mk.injEq] at h
      exact .inl ⟨h.1.symm, h.2.symm, .inr hle⟩
    · next hin =>
      obtain ⟨total, htotal, h⟩ := bind_ok_iff.mp h
      obtain ⟨_, rfl⟩ := addChecked_eq_ok.mp htotal
      simp only [Except.ok.injEq, Prod.mk.injEq] at h
      exact .inr ⟨by omega, by omega, _, Prod.ext h.1 rfl, h.2.symm⟩

theorem insert_eq_error {p : Panic} (h : a.insert k slot w payload = .error p) :
    a.nextNeeded ≤ k ∧
      (p = .overflow 32 ∧ 2 ^ 32 ≤ a.nextNeeded + a.geometry.maxLiveSlices ∨
        p = .overflow 16 ∧ 2 ^ 16 ≤ a.geometry.blocksPerSlice + a.geometry.parityPerSlice) := by
  unfold insert at h
  split at h
  · simp at h
  · next hge =>
    refine ⟨by omega, ?_⟩
    rcases bind_error_iff.mp h with h | ⟨limit, _, h⟩
    · exact .inl (addChecked_eq_error.mp h).symm
    · split at h
      · simp at h
      · rcases bind_error_iff.mp h with h | ⟨_, _, h⟩
        · exact .inr (addChecked_eq_error.mp h).symm
        · simp at h

/-- An insertion inside the window that does not die finds all its numbers. -/
theorem bounds_of_insert (hle : a.nextNeeded ≤ k)
    (hlt : k < a.nextNeeded + a.geometry.maxLiveSlices)
    (hi : a.insert k slot w payload = .ok (taken, a')) :
    a.nextNeeded + a.geometry.maxLiveSlices < 2 ^ 32 ∧
      a.geometry.blocksPerSlice + a.geometry.parityPerSlice < 2 ^ 16 := by
  unfold insert at hi
  rw [if_neg (Nat.not_lt.mpr hle)] at hi
  obtain ⟨limit, hlimit, hi⟩ := bind_ok_iff.mp hi
  obtain ⟨hbound, rfl⟩ := addChecked_eq_ok.mp hlimit
  rw [if_neg (Nat.not_le.mpr hlt)] at hi
  obtain ⟨slots, hslots, _⟩ := bind_ok_iff.mp hi
  exact ⟨hbound, (addChecked_eq_ok.mp hslots).1⟩

theorem Wf.sliceFor (h : a.Wf) (k : ℕ) : (a.sliceFor k).Wf a.geometry := by
  unfold Assembler.sliceFor
  rcases hlook : a.slices.lookup k with _ | s
  · exact Slice.empty_wf _
  · exact h.wf k s hlook

/-- A checked shard keeps the invariant. -/
theorem Wf.insert (h : a.Wf) (hc : Checked a.geometry slot w payload)
    (hi : a.insert k slot w payload = .ok (taken, a')) : a'.Wf := by
  rcases insert_eq_ok hi with ⟨_, rfl, _⟩ | ⟨hge, _, s', hs', rfl⟩
  · exact h
  have hs'wf := (h.sliceFor k).insert hs' hc.size hc.width_le hc.parity
  have hnonempty : ∃ slot payload, s'.payload slot = some payload := by
    cases taken with
    | true => exact ⟨slot, payload, by rw [Slice.payload_insert hs', if_pos rfl]⟩
    | false =>
      obtain ⟨rfl, hcase⟩ := Slice.insert_eq_false hs'
      have hold : a.sliceFor k = .empty (a.geometry.blocksPerSlice + a.geometry.parityPerSlice) ∨
          ∃ slot payload, (a.sliceFor k).payload slot = some payload := by
        unfold Assembler.sliceFor
        rcases hlook : a.slices.lookup k with _ | s
        · exact .inl rfl
        · exact .inr (h.nonempty k s hlook)
      rcases hold with hempty | hold
      · have hlt := hc.slot_lt
        rw [hempty, Slice.payload_empty] at hcase
        simp [Slice.empty] at hcase
        omega
      · exact hold
  refine ⟨h.codec, ?_, ?_, ?_⟩ <;> intro k' s hs <;> rw [Table.lookup_insert'] at hs <;>
    split_ifs at hs with hk
  · exact (Option.some.inj hs) ▸ hs'wf
  · exact h.wf k' s hs
  · exact (Option.some.inj hs) ▸ hnonempty
  · exact h.nonempty k' s hs
  · exact hk ▸ hge
  · exact h.above k' s hs

theorem Holds.sliceFor (h : a.Holds rs L) (k : ℕ) :
    (∀ slot payload, (a.sliceFor k).payload slot = some payload →
      L.shard rs k slot = some payload) ∧
    (0 < (a.sliceFor k).parityWidth → L.widths[k]? = some (a.sliceFor k).parityWidth) := by
  unfold Assembler.sliceFor
  rcases hlook : a.slices.lookup k with _ | s
  · exact ⟨by simp, fun hpos => absurd hpos (Nat.lt_irrefl 0)⟩
  · exact ⟨h.shard k s hlook, h.width k s hlook⟩

/-- A shard of the transfer keeps the assembler on the ledger. -/
theorem Holds.insert (h : a.Holds rs L) (hshard : L.shard rs k slot = some payload)
    (hw : L.widths[k]? = some w) (hi : a.insert k slot w payload = .ok (taken, a')) :
    a'.Holds rs L := by
  have hc : Checked a.geometry slot w payload := h.geometry ▸ Checked.of_shard hshard hw
  have hwf := h.toWf.insert hc hi
  rcases insert_eq_ok hi with ⟨_, rfl, _⟩ | ⟨hge, _, s', hs', rfl⟩
  · exact h
  obtain ⟨holdshard, holdwidth⟩ := h.sliceFor k
  have hnew : (∀ i p, s'.payload i = some p → L.shard rs k i = some p) ∧
      (0 < s'.parityWidth → L.widths[k]? = some s'.parityWidth) := by
    cases taken with
    | false =>
      obtain ⟨rfl, _⟩ := Slice.insert_eq_false hs'
      exact ⟨holdshard, holdwidth⟩
    | true =>
      refine ⟨fun i p hp => ?_, ?_⟩
      · rw [Slice.payload_insert hs'] at hp
        split_ifs at hp with hi
        · rw [hi, hshard, ← hp]
        · exact holdshard i p hp
      · obtain ⟨_, _, rfl⟩ := Slice.insert_eq_true hs'
        simp only
        split_ifs
        · exact fun _ => hw
        · exact holdwidth
  refine ⟨hwf, h.geometry, ?_, ?_, h.total, h.nextNeeded_le⟩ <;> intro k' s hs <;>
    rw [Table.lookup_insert'] at hs <;> split_ifs at hs with hk
  · exact hk ▸ (Option.some.inj hs) ▸ hnew.1
  · exact h.shard k' s hs
  · exact hk ▸ (Option.some.inj hs) ▸ hnew.2
  · exact h.width k' s hs

/-- Inside the window a shard of the transfer is refused only when its slot is held already. -/
theorem Holds.refused_held (h : a.Holds rs L) (hshard : L.shard rs k slot = some payload)
    (hw : L.widths[k]? = some w) (hi : a.insert k slot w payload = .ok (false, a'))
    (hge : a.nextNeeded ≤ k) (hlt : k < a.nextNeeded + a.geometry.maxLiveSlices) :
    ∃ s, a.slices.lookup k = some s ∧ (s.payload slot).isSome := by
  have hc : Checked a.geometry slot w payload := h.geometry ▸ Checked.of_shard hshard hw
  rcases insert_eq_ok hi with ⟨_, _, hout⟩ | ⟨_, _, s', hs', _⟩
  · omega
  obtain ⟨_, hcase⟩ := Slice.insert_eq_false hs'
  have hlen := (h.toWf.sliceFor k).length
  have hslot := hc.slot_lt
  rcases hcase with hcase | hcase | ⟨hpos, hpos', hne⟩
  · omega
  · unfold Assembler.sliceFor at hcase
    rcases hlook : a.slices.lookup k with _ | s
    · simp [hlook] at hcase
    · exact ⟨s, rfl, by simpa [hlook] using hcase⟩
  · have := (h.sliceFor k).2 hpos'
    rw [hw] at this
    exact absurd (Option.some.inj this).symm hne

/-- Whether the shard is in the buffer. -/
def has (a : Assembler) (k slot : ℕ) : Bool :=
  (a.slices.lookup k).any fun s => (s.payload slot).isSome

/-- Below the end of the window, a shard of the transfer is refused exactly when its slice is
already past or its slot is held. -/
theorem Holds.insert_eq_false_iff (h : a.Holds rs L) (hshard : L.shard rs k slot = some payload)
    (hw : L.widths[k]? = some w) (hi : a.insert k slot w payload = .ok (taken, a'))
    (hlt : k < a.nextNeeded + a.geometry.maxLiveSlices) :
    taken = false ↔ k < a.nextNeeded ∨ a.has k slot := by
  constructor
  · rintro rfl
    by_cases hge : a.nextNeeded ≤ k
    · obtain ⟨s, hs, hheld⟩ := h.refused_held hshard hw hi hge hlt
      exact .inr (by simp [has, hs, hheld])
    · exact .inl (Nat.lt_of_not_le hge)
  · intro hcase
    rcases insert_eq_ok hi with ⟨hfalse, _, _⟩ | ⟨hge, _, s', hs', _⟩
    · exact hfalse
    have hheld := hcase.resolve_left (Nat.not_lt.mpr hge)
    unfold has at hheld
    cases taken with
    | false => rfl
    | true =>
      have hfree := (Slice.insert_eq_true hs').1
      rcases hlook : a.slices.lookup k with _ | s
      · simp [hlook] at hheld
      · simp [Assembler.sliceFor, hlook] at hfree
        simp [hlook, Slice.payload, hfree] at hheld

end Insert

theorem Holds.onDone (h : a.Holds rs L) : (a.onDone L.blocks.length).Holds rs L :=
  ⟨⟨h.codec, h.wf, h.nonempty, h.above⟩, h.geometry, h.shard, h.width,
    fun _ ht => (Option.some.inj ht).symm, h.nextNeeded_le⟩

theorem Holds.opened (h : a.Holds rs L) {w : ℕ} (hw : w ≤ L.geometry.parityPerSlice) :
    a.Holds rs (L.opened w hw) :=
  ⟨h.toWf, h.geometry, fun k s hs i p hp => Ledger.shard_opened (h.shard k s hs i p hp),
    fun k s hs hpos => Ledger.widths_opened (h.width k s hs hpos), h.total, h.nextNeeded_le⟩

/-- Completeness and the right to write depend on the slices, the total and the shape alone. -/
theorem isComplete_congr {a' : Assembler} (hlookup : a'.slices.lookup k = a.slices.lookup k)
    (htotal : a'.totalBlocks = a.totalBlocks) (hgeometry : a'.geometry = a.geometry) :
    a'.isComplete k = a.isComplete k := by
  have htarget : a'.target k = a.target k := by
    unfold target
    rw [htotal, hgeometry]
  rw [isComplete, hlookup, htarget, isComplete]

/-- Why a slice may be written: the total is known, a later slice is held, or its data is. -/
theorem canWrite_iff : a.canWrite k ↔ a.totalBlocks.isSome ∨
    (∃ k' s', k < k' ∧ a.slices.lookup k' = some s') ∨
    ∃ s, a.slices.lookup k = some s ∧ s.dataPresent a.geometry.blocksPerSlice := by
  have hlater : a.slices.entries.any (fun seen => k < seen.1) = true ↔
      ∃ k' s', k < k' ∧ a.slices.lookup k' = some s' := by
    simp only [List.any_eq_true, decide_eq_true_eq, Table.lookup_eq_some_iff]
    constructor
    · rintro ⟨⟨k', s'⟩, hmem, hlt⟩
      exact ⟨k', s', hlt, hmem⟩
    · rintro ⟨k', s', hlt, hmem⟩
      exact ⟨⟨k', s'⟩, hmem, hlt⟩
  rw [canWrite, Bool.or_eq_true, Bool.or_eq_true, hlater, or_assoc]
  simp only [Option.any_eq_true]

/-- A slice released was complete, and had a reason to be written, before the first turn. -/
theorem Released.complete {a' : Assembler} {blocks : List Bytes} (h : Released rs a blocks a') :
    ∀ k, a.nextNeeded ≤ k → k < a'.nextNeeded → a.isComplete k ∧ a.canWrite k := by
  induction h with
  | done a => exact fun k hk hlt => absurd hlt (Nat.not_lt.mpr hk)
  | @turn a a₁ a₂ _ _ hturn _ ih =>
    intro k hk hlt
    obtain ⟨hnext, _, hslices, htotal, hgeometry⟩ := release_frame hturn
    rcases Nat.eq_or_lt_of_le hk with rfl | hgt
    · obtain ⟨s, _, _, hready, _⟩ := release_eq_some hturn
      exact ⟨hready.2, hready.1⟩
    have hlookup : ∀ k', a.nextNeeded < k' → a₁.slices.lookup k' = a.slices.lookup k' := by
      intro k' hk'
      rw [hslices, Table.lookup_erase', if_neg (Nat.ne_of_gt hk')]
    obtain ⟨hcomplete, hwrite⟩ := ih k (by omega) hlt
    rw [isComplete_congr (hlookup k hgt) htotal hgeometry] at hcomplete
    refine ⟨hcomplete, ?_⟩
    rw [canWrite_iff] at hwrite ⊢
    rw [htotal, hgeometry, hlookup k hgt] at hwrite
    refine hwrite.imp_right (Or.imp_left ?_)
    rintro ⟨k', s', hlt', hs'⟩
    exact ⟨k', s', hlt', by rw [← hlookup k' (hgt.trans hlt'), hs']⟩

/-- The right to write a slice depends on it and the slices after it. -/
theorem canWrite_congr {a' : Assembler}
    (hlookup : ∀ j, k ≤ j → a'.slices.lookup j = a.slices.lookup j)
    (htotal : a'.totalBlocks = a.totalBlocks) (hgeometry : a'.geometry = a.geometry) :
    a'.canWrite k ↔ a.canWrite k := by
  rw [canWrite_iff, canWrite_iff, htotal, hgeometry, hlookup k le_rfl]
  refine or_congr_right (or_congr_left ?_)
  constructor <;> rintro ⟨j, s, hlt, hs⟩
  · exact ⟨j, s, hlt, by rw [← hlookup j hlt.le, hs]⟩
  · exact ⟨j, s, hlt, by rw [hlookup j hlt.le, hs]⟩

theorem target_congr {a' : Assembler} (htotal : a'.totalBlocks = a.totalBlocks)
    (hgeometry : a'.geometry = a.geometry) : a'.target k = a.target k := by
  unfold target
  rw [htotal, hgeometry]

/-- Where the loop stands after some turns, a slice is ready exactly when it was before them. -/
theorem Released.ready_iff {a' : Assembler} {blocks : List Bytes}
    (h : Released rs a blocks a') :
    a'.Ready ↔ a.canWrite a'.nextNeeded ∧ a.isComplete a'.nextNeeded := by
  obtain ⟨_, htotal, hgeometry, hlookup⟩ := h.frame
  have hsame : ∀ j, a'.nextNeeded ≤ j → a'.slices.lookup j = a.slices.lookup j := by
    intro j hj
    rw [hlookup, if_neg (by omega)]
  rw [Ready, canWrite_congr hsame htotal hgeometry,
    isComplete_congr (hsame _ le_rfl) htotal hgeometry]

/-- A ready slice is given out first. -/
theorem Holds.takeReady_of_ready {a' : Assembler} {blocks : List Bytes} (h : a.Holds rs L)
    (hready : a.Ready) (htake : a.takeReady rs = .ok (blocks, a')) :
    a.nextNeeded < a'.nextNeeded ∧ ∃ rest, blocks = L.slice a.nextNeeded ++ rest := by
  obtain ⟨hreleased, hstop⟩ := takeReady_eq_ok.mp htake
  have hlt : a.nextNeeded < a'.nextNeeded := by
    refine Nat.lt_of_le_of_ne hreleased.frame.1 fun heq => hstop ?_
    rw [hreleased.ready_iff, ← heq]
    exact hready
  refine ⟨hlt, ?_⟩
  have hblocks := (h.takeReady htake).2
  have hpre : L.blocks.take ((a.nextNeeded + 1) * L.geometry.blocksPerSlice) <+:
      L.blocks.take (a'.nextNeeded * L.geometry.blocksPerSlice) :=
    List.take_prefix_take_left (Nat.mul_le_mul_right _ hlt)
  rw [hblocks, Chunks.take_succ_mul, List.prefix_append_right_inj] at hpre
  obtain ⟨rest, hrest⟩ := hpre
  exact ⟨rest, hrest.symm⟩

/-- Nothing is given out while the next slice is not ready. -/
theorem takeReady_of_not_ready (h : ¬ a.Ready) : a.takeReady rs = .ok ([], a) :=
  takeReady_eq_ok.mpr ⟨.done a, h⟩

theorem Holds.takeReady_nil_iff (h : a.Holds rs L) :
    (∃ a', a.takeReady rs = .ok ([], a')) ↔ ¬ a.Ready := by
  constructor
  · rintro ⟨a', htake⟩ hready
    obtain ⟨-, rest, hrest⟩ := h.takeReady_of_ready hready htake
    obtain ⟨s, hs, -⟩ := exists_lookup_of_ready hready
    have hpos := Ledger.length_slice_pos_iff.mpr (h.lt_slices hs)
    have hlen := congrArg List.length hrest
    rw [List.length_append, List.length_nil] at hlen
    omega
  · exact fun hready => ⟨a, takeReady_of_not_ready hready⟩

/-- With the total known and every slice below it complete, everything is released. -/
theorem Holds.takeReady_all (h : a.Holds rs L) (htotal : a.totalBlocks.isSome)
    (hlt : L.slices < 2 ^ 32)
    (hcomplete : ∀ k, a.nextNeeded ≤ k → k < L.slices → a.isComplete k) :
    ∃ ready a', Assembler.takeReady rs a = .ok (ready, a') ∧ L.slices ≤ a'.nextNeeded := by
  rcases htake : Assembler.takeReady rs a with p | ⟨ready, a'⟩
  · have := (h.takeReady_error htake).2
    omega
  refine ⟨ready, a', rfl, ?_⟩
  obtain ⟨hreleased, hstop⟩ := takeReady_eq_ok.mp htake
  obtain ⟨hle, htotal', hgeometry, hlookup⟩ := hreleased.frame
  by_contra hshort
  have hsame : a'.slices.lookup a'.nextNeeded = a.slices.lookup a'.nextNeeded := by
    rw [hlookup, if_neg (by omega)]
  refine hstop ⟨canWrite_iff.mpr (.inl (by rwa [htotal'])), ?_⟩
  rw [isComplete_congr hsame htotal' hgeometry]
  exact hcomplete _ hle (by omega)

theorem new_wf {g : Geometry} (h : Assembler.new g = .ok a) : a.Wf ∧ a.geometry = g ∧
    a.slices = ∅ ∧ a.nextNeeded = 0 ∧ a.totalBlocks = none ∧ g.Accepted := by
  unfold Assembler.new at h
  dsimp only at h
  split at h
  · next hzero =>
    simp only [ok_bind, Except.ok.injEq] at h
    subst h
    exact ⟨⟨by simp [CodecOk], by simp, by simp, by simp⟩, rfl, rfl, rfl, rfl, .inl hzero⟩
  · next n hn =>
    obtain ⟨d, hd, h⟩ := bind_ok_iff.mp h
    simp only [ok_bind, Except.ok.injEq] at h
    subst h
    obtain ⟨hsup, rfl⟩ := Decoder.new_eq_ok_iff.mp hd
    refine ⟨⟨?_, by simp, by simp, by simp⟩, rfl, rfl, rfl, rfl, .inr (hn ▸ hsup)⟩
    intro d hd
    simp only [Option.mem_def, Option.some.injEq] at hd
    simp only [hn]
    exact ⟨hsup, hd.symm⟩

/-- A new assembler is on the ledger of any transfer of its shape. -/
theorem new_holds {L : Ledger} (rs : ReedSolomon) (h : Assembler.new L.geometry = .ok a) :
    a.Holds rs L := by
  obtain ⟨hwf, hg, hs, hn, ht, _⟩ := new_wf h
  refine ⟨hwf, hg, ?_, ?_, ?_, ?_⟩
  · simp [hs]
  · simp [hs]
  · simp [ht]
  · simp [hn]

/-- A transfer accepted by the codec gets an assembler. -/
theorem exists_new {g : Geometry} (h : g.Accepted) : ∃ a, Assembler.new g = .ok a := by
  unfold Assembler.new
  split
  · exact ⟨_, rfl⟩
  · next n hn =>
    have hsup := h.supported (w := n + 1) (by omega) (by omega)
    simp [Decoder.new_eq_ok hsup]

end Assembler
end Scuttlecast
