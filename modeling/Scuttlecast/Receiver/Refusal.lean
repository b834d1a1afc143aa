import Scuttlecast.Receiver.Buffer

/-! What a refused shard leaves behind. A slice is opened before the shard is put into it, so a
shard for a slot past the end leaves an empty slice where there was none, and `take_ready` can be
made to release it. -/
namespace Scuttlecast
namespace Assembler

variable {rs : ReedSolomon} {a a' b : Assembler} {k slot w : ℕ} {payload : Bytes} {taken : Bool}

/-- The same assembler, but for the order in which its table lists the slices. -/
structure Same (a b : Assembler) : Prop where
  rest : b = { a with slices := b.slices }
  lookup : ∀ k, b.slices.lookup k = a.slices.lookup k

theorem Same.of_lookup {t : Table ℕ Slice} (h : ∀ k, t.lookup k = a.slices.lookup k) :
    Same a { a with slices := t } := ⟨rfl, h⟩

theorem Same.exists_table (h : Same a b) : ∃ t : Table ℕ Slice, b = { a with slices := t } ∧
    ∀ k, t.lookup k = a.slices.lookup k := ⟨b.slices, h.rest, h.lookup⟩

theorem Same.isComplete (h : Same a b) (k : ℕ) : b.isComplete k = a.isComplete k := by
  obtain ⟨t, rfl, ht⟩ := h.exists_table
  exact isComplete_congr (ht k) rfl rfl

theorem Same.canWrite (h : Same a b) (k : ℕ) : b.canWrite k ↔ a.canWrite k := by
  obtain ⟨t, rfl, ht⟩ := h.exists_table
  exact canWrite_congr (fun j _ => ht j) rfl rfl

theorem Same.gaps (h : Same a b) (floor : ℕ) : b.gaps floor = a.gaps floor := by
  have hcomplete : (fun k => decide ¬ b.isComplete k = true) =
      fun k => decide ¬ a.isComplete k = true := by
    funext k
    rw [h.isComplete]
  obtain ⟨t, rfl, ht⟩ := h.exists_table
  unfold Assembler.gaps
  rw [hcomplete]
  apply List.map_congr_left
  intro k _
  have htarget : target { a with slices := t } k = a.target k := target_congr rfl rfl
  simp only [htarget, ht]

theorem Same.insert (h : Same a b) (k slot w : ℕ) (payload : Bytes) :
    Responding.Matched Same (a.insert k slot w payload) (b.insert k slot w payload) := by
  obtain ⟨t, rfl, ht⟩ := h.exists_table
  unfold Assembler.insert
  dsimp only
  split_ifs with hbelow
  · exact .answered false h
  rcases addChecked 32 a.nextNeeded a.geometry.maxLiveSlices with e | limit
  · exact .failed e
  simp only [ok_bind]
  split_ifs with habove
  · exact .answered false h
  show Responding.Matched Same (a.totalSlots >>= _) (a.totalSlots >>= _)
  rcases a.totalSlots with e | total
  · exact .failed e
  simp only [ok_bind, ht]
  apply Responding.Matched.answered
  constructor
  · rfl
  · intro j
    simp only [Table.lookup_insert', ht]

/-- The assembler with another buffer. -/
def withSlices (t : Table ℕ Slice) (a : Assembler) : Assembler := { a with slices := t }

theorem decoderFor_withSlices (t : Table ℕ Slice) (a : Assembler) (width : ℕ) :
    (a.withSlices t).decoderFor width =
      Prod.map id (withSlices t) <$> a.decoderFor width := by
  unfold decoderFor
  simp only [map_bind]
  by_cases hnew : a.codec.isNone ∨ a.codecWidth ≠ width
  · have hnew' : (a.withSlices t).codec.isNone ∨ (a.withSlices t).codecWidth ≠ width := hnew
    simp only [if_pos hnew, if_pos hnew']
    rfl
  · have hnew' : ¬ ((a.withSlices t).codec.isNone ∨ (a.withSlices t).codecWidth ≠ width) := hnew
    simp only [if_neg hnew, if_neg hnew']
    rfl

/-- Recovery does not look at the buffer. -/
theorem recover_withSlices (rs : ReedSolomon) (t : Table ℕ Slice) (a : Assembler) (s : Slice)
    (n : ℕ) :
    recover rs (a.withSlices t) s n = Prod.map id (withSlices t) <$> recover rs a s n := by
  unfold recover
  rw [decoderFor_withSlices]
  split_ifs with hp
  · rfl
  simp only [map_bind, bind_map_left]
  rfl

theorem Same.ready (h : Same a b) : b.Ready ↔ a.Ready := by
  have hnext : b.nextNeeded = a.nextNeeded := by rw [h.rest]
  rw [Ready, Ready, hnext, h.canWrite, h.isComplete]

/-- A turn of the loop finds the same slice ready, and gives out the same blocks. -/
theorem Same.release_eq (h : Same a b) (rs : ReedSolomon) :
    release rs b =
      Option.map (Prod.map id (withSlices (b.slices.erase a.nextNeeded))) <$> release rs a := by
  have hready := h.ready
  obtain ⟨t, rfl, ht⟩ := h.exists_table
  unfold release
  by_cases hturn : a.Ready
  swap
  · rw [if_neg hturn, if_neg (hready.not.mpr hturn)]
    rfl
  rw [if_pos hturn, if_pos (hready.mpr hturn)]
  have htarget : target { a with slices := t } a.nextNeeded = a.target a.nextNeeded :=
    target_congr rfl rfl
  simp only [ht, htarget]
  rcases a.slices.lookup a.nextNeeded with _ | s
  · rfl
  have hrecover := recover_withSlices rs (t.erase a.nextNeeded)
    { a with slices := a.slices.erase a.nextNeeded } s (a.target a.nextNeeded)
  simp only [map_bind]
  show (recover rs (withSlices _ { a with slices := a.slices.erase a.nextNeeded }) s _ >>= _) = _
  rw [hrecover, bind_map_left]
  rfl

theorem Same.released (h : Same a b) {blocks : List Bytes} (hr : Released rs a blocks a') :
    ∃ b', Released rs b blocks b' ∧ Same a' b' := by
  induction hr generalizing b with
  | done a => exact ⟨b, .done b, h⟩
  | @turn a a₁ a₂ blocks ready hturn _ ih =>
    have hb := h.release_eq rs
    rw [hturn] at hb
    have hslices := (release_frame hturn).2.2.1
    have hsame : Same a₁ (a₁.withSlices (b.slices.erase a.nextNeeded)) := by
      apply Same.of_lookup
      intro k
      simp only [hslices, Table.lookup_erase', h.lookup]
    obtain ⟨b', hrest, hsame'⟩ := ih hsame
    exact ⟨b', .turn hb hrest, hsame'⟩

theorem Same.takeReady (h : Same a b) (rs : ReedSolomon) :
    Responding.Matched Same (a.takeReady rs) (b.takeReady rs) := by
  rcases ha : a.takeReady rs with p | ⟨blocks, a'⟩
  · obtain ⟨blocks, a', hreleased, herror⟩ := takeReady_eq_error.mp ha
    obtain ⟨b', hreleased', hsame⟩ := h.released hreleased
    have hb := hsame.release_eq rs
    rw [herror] at hb
    rw [takeReady_eq_error.mpr ⟨blocks, b', hreleased', hb⟩]
    exact .failed p
  · obtain ⟨hreleased, hstop⟩ := takeReady_eq_ok.mp ha
    obtain ⟨b', hreleased', hsame⟩ := h.released hreleased
    rw [takeReady_eq_ok.mpr ⟨hreleased', hsame.ready.not.mpr hstop⟩]
    exact .answered blocks hsame

/-- Every call finds the same in both. -/
theorem Same.call (h : Same a b) (rs : ReedSolomon) (c : Call) :
    Responding.Matched Same (a.call rs c) (b.call rs c) := by
  cases c with
  | insert k slot w payload =>
    exact (h.insert k slot w payload).bind fun _ _ _ h => .answered _ h
  | onDone total =>
    apply Responding.Matched.answered
    obtain ⟨t, rfl, ht⟩ := h.exists_table
    exact .of_lookup ht
  | takeReady => exact (h.takeReady rs).bind fun _ _ _ h => .answered _ h
  | gaps floor =>
    show Responding.Matched Same (.ok (Answer.gaps (a.gaps floor), a))
      (.ok (Answer.gaps (b.gaps floor), b))
    rw [h.gaps]
    exact .answered _ h
  | isFinished =>
    have hfinished : b.isFinished = a.isFinished := by
      rw [h.rest]
      rfl
    show Responding.Matched Same (.ok (Answer.finished a.isFinished, a))
      (.ok (Answer.finished b.isFinished, b))
    rw [hfinished]
    exact .answered _ h
  | nextNeeded =>
    have hnext : b.nextNeeded = a.nextNeeded := by rw [h.rest]
    show Responding.Matched Same (.ok (Answer.number a.nextNeeded, a))
      (.ok (Answer.number b.nextNeeded, b))
    rw [hnext]
    exact .answered _ h

theorem Same.alike (h : Same a b) : Responding.Alike (interface rs) a b :=
  Responding.alike_of_matched (fun c _ _ h => h.call rs c) h

/-- The shard is refused for its slot, by a slice that is opened for it. -/
structure Opens (a : Assembler) (k slot : ℕ) : Prop where
  ge : a.nextNeeded ≤ k
  lt : k < a.nextNeeded + a.geometry.maxLiveSlices
  absent : a.slices.lookup k = none
  outside : a.geometry.blocksPerSlice + a.geometry.parityPerSlice ≤ slot

/-- Refused in any other way, a shard leaves everything in its place. -/
theorem same_of_refused (hi : a.insert k slot w payload = .ok (false, a'))
    (hopens : ¬ a.Opens k slot) : Same a a' := by
  rcases insert_eq_ok hi with ⟨_, rfl, _⟩ | ⟨hge, hlt, s', hs', rfl⟩
  · exact .of_lookup fun _ => rfl
  obtain ⟨rfl, hcase⟩ := Slice.insert_eq_false hs'
  apply Same.of_lookup
  intro j
  rw [Table.lookup_insert']
  split_ifs with hj
  · subst hj
    rcases hlook : a.slices.lookup j with _ | s
    · exfalso
      simp only [sliceFor, hlook, Option.getD_none, Slice.payload_empty] at hcase
      rcases hcase with hcase | hcase | hcase
      · exact hopens ⟨hge, hlt, hlook, by simpa [Slice.empty] using hcase⟩
      · simp at hcase
      · simp [Slice.empty] at hcase
    · rw [sliceFor, hlook, Option.getD_some]
  · rfl

/-- Inside the window, whether taken or refused, a shard has its slice opened. -/
theorem opened_of_insert (hi : a.insert k slot w payload = .ok (taken, a'))
    (hge : a.nextNeeded ≤ k) (hlt : k < a.nextNeeded + a.geometry.maxLiveSlices) :
    a'.nextNeeded = a.nextNeeded ∧ a'.geometry = a.geometry ∧
      ∀ j, (a'.slices.lookup j).isSome ↔ j = k ∨ (a.slices.lookup j).isSome := by
  rcases insert_eq_ok hi with ⟨_, _, hout⟩ | ⟨_, _, s', _, rfl⟩
  · omega
  · refine ⟨rfl, rfl, fun j => ?_⟩
    rw [Table.lookup_insert']
    split_ifs with hj <;> simp [hj]

/-- Once nothing at all is to come, `take_ready` stops at the first slice that was never opened. -/
theorem lt_nextNeeded_iff {blocks : List Bytes} (htotal : a.totalBlocks = some 0)
    (h : a.takeReady rs = .ok (blocks, a')) :
    k < a'.nextNeeded ↔ ∀ j, a.nextNeeded ≤ j → j ≤ k → (a.slices.lookup j).isSome := by
  obtain ⟨hreleased, hstop⟩ := takeReady_eq_ok.mp h
  have hrises := hreleased.rises
  constructor
  · intro hlt j hj hjk
    exact Option.isSome_iff_exists.mpr (hrises.gone j hj (by omega)).1
  · intro hopen
    by_contra hle
    obtain ⟨s, hs⟩ := Option.isSome_iff_exists.mp
      (hopen a'.nextNeeded hrises.next_le (Nat.le_of_not_lt hle))
    apply hstop
    rw [hreleased.ready_iff, canWrite_iff, isComplete, hs]
    have htarget : a.target a'.nextNeeded = 0 := by
      simp only [target, htotal]
      split_ifs <;> omega
    exact ⟨.inl (by simp [htotal]), by simp [htarget]⟩

/-- And it stops there alive. -/
theorem takeReady_of_absent (rs : ReedSolomon) (htotal : a.totalBlocks = some 0)
    (hk : a.nextNeeded ≤ k) (hlt : k < 2 ^ 32) (habsent : a.slices.lookup k = none) :
    ∃ blocks a', a.takeReady rs = .ok (blocks, a') := by
  rcases h : a.takeReady rs with p | ⟨blocks, a'⟩
  · exfalso
    obtain ⟨blocks, a', hreleased, herror⟩ := takeReady_eq_error.mp h
    obtain ⟨s, hs, -, hcase⟩ := release_eq_error herror
    have hrises := hreleased.rises
    have hshort : a'.nextNeeded < k := by
      by_contra hge
      rcases Nat.lt_or_eq_of_le (Nat.le_of_not_lt hge) with hpast | heq
      · obtain ⟨s', hs'⟩ := (hrises.gone k hk hpast).1
        rw [habsent] at hs'
        cases hs'
      · rw [hrises.left _ le_rfl, ← heq, habsent] at hs
        cases hs
    have htarget : a'.target a'.nextNeeded = 0 := by
      simp only [target, hreleased.frame.2.1, htotal]
      split_ifs <;> omega
    have hpresent : s.dataPresent 0 = true := by simp [Slice.dataPresent]
    rw [htarget] at hcase
    unfold recover at hcase
    rw [if_pos hpresent] at hcase
    rcases hcase with hcase | ⟨_, a₁, hok, hover, _⟩
    · cases hcase
    · cases hok
      simp only at hover
      omega
  · exact ⟨blocks, a', rfl⟩

/-- Slice `k` of the window is open in `b` and not in `a`, and all its numbers fit. -/
structure Parted (k : ℕ) (a b : Assembler) : Prop where
  nextNeeded : b.nextNeeded = a.nextNeeded
  geometry : b.geometry = a.geometry
  ge : a.nextNeeded ≤ k
  lt : k < a.nextNeeded + a.geometry.maxLiveSlices
  bound : a.nextNeeded + a.geometry.maxLiveSlices < 2 ^ 32
  slots : a.geometry.blocksPerSlice + a.geometry.parityPerSlice < 2 ^ 16
  absent : a.slices.lookup k = none
  opened : (b.slices.lookup k).isSome

/-- Another slice can be opened in both. -/
theorem Parted.open_next (h : Parted k a b) (halike : Responding.Alike (interface rs) a b) {n : ℕ}
    (hn : a.nextNeeded ≤ n) (hlt : n < k) :
    ∃ a' b', Responding.Alike (interface rs) a' b' ∧ Parted k a' b' ∧
      a'.nextNeeded = a.nextNeeded ∧
      (∀ j, (a'.slices.lookup j).isSome ↔ j = n ∨ (a.slices.lookup j).isSome) ∧
      ∀ j, (b'.slices.lookup j).isSome ↔ j = n ∨ (b.slices.lookup j).isSome := by
  have hwindow := h.lt
  obtain ⟨taken, a', hi⟩ : ∃ taken a', a.insert n 0 0 [] = .ok (taken, a') := by
    rcases hi : a.insert n 0 0 [] with p | ⟨taken, a'⟩
    · obtain ⟨_, ⟨_, hover⟩ | ⟨_, hover⟩⟩ := insert_eq_error hi
      · exact absurd h.bound (Nat.not_lt.mpr hover)
      · exact absurd h.slots (Nat.not_lt.mpr hover)
    · exact ⟨taken, a', rfl⟩
  have hcall : (interface rs).step (.insert n 0 0 []) a = .ok (.taken taken, a') := by
    show (a.insert n 0 0 [] >>= _) = _
    rw [hi]
    rfl
  obtain ⟨b', hcall', halike'⟩ := halike.step hcall
  obtain ⟨⟨taken', b₁⟩, hi', heq⟩ := bind_ok_iff.mp hcall'
  cases heq
  obtain ⟨hnext, hgeometry, hopen⟩ := opened_of_insert hi hn (by omega)
  obtain ⟨hnext', hgeometry', hopen'⟩ := opened_of_insert hi'
    (by rw [h.nextNeeded]; exact hn) (by rw [h.nextNeeded, h.geometry]; omega)
  refine ⟨a', b', halike', ?_, hnext, hopen, hopen'⟩
  constructor
  · rw [hnext, hnext', h.nextNeeded]
  · rw [hgeometry, hgeometry', h.geometry]
  · rw [hnext]
    exact h.ge
  · rw [hnext, hgeometry]
    exact h.lt
  · rw [hnext, hgeometry]
    exact h.bound
  · rw [hgeometry]
    exact h.slots
  · rw [← Option.not_isSome_iff_eq_none, hopen, h.absent]
    simp only [Option.isSome_none, Bool.false_eq_true, or_false]
    omega
  · exact (hopen' k).mpr (.inr h.opened)

/-- And so can all the slices before `k`. -/
theorem Parted.open_below (h : Parted k a b) (halike : Responding.Alike (interface rs) a b) {n : ℕ}
    (hn : n ≤ k) :
    ∃ a' b', Responding.Alike (interface rs) a' b' ∧ Parted k a' b' ∧
      ∀ j, a'.nextNeeded ≤ j → j < n → (a'.slices.lookup j).isSome ∧ (b'.slices.lookup j).isSome := by
  induction n with
  | zero => exact ⟨a, b, halike, h, fun j _ hj => absurd hj (Nat.not_lt_zero j)⟩
  | succ n ih =>
    obtain ⟨a₁, b₁, halike₁, h₁, hopen⟩ := ih (by omega)
    by_cases hlow : n < a₁.nextNeeded
    · exact ⟨a₁, b₁, halike₁, h₁, fun j hj hlt => hopen j hj (by omega)⟩
    obtain ⟨a₂, b₂, halike₂, h₂, hnext, hopena, hopenb⟩ :=
      h₁.open_next halike₁ (Nat.le_of_not_lt hlow) (by omega)
    refine ⟨a₂, b₂, halike₂, h₂, fun j hj hlt => ?_⟩
    rw [hopena, hopenb]
    rcases Nat.lt_or_eq_of_le (Nat.le_of_lt_succ hlt) with hold | rfl
    · obtain ⟨ha, hb⟩ := hopen j (hnext ▸ hj) hold
      exact ⟨.inr ha, .inr hb⟩
    · exact ⟨.inl rfl, .inl rfl⟩

/-- A caller can tell them apart: with all slices before `k` open and nothing to come,
`take_ready` goes up to `k` in one and past it in the other. -/
theorem Parted.not_alike (h : Parted k a b) : ¬ Responding.Alike (interface rs) a b := by
  intro halike
  obtain ⟨a₁, b₁, halike, h₁, hopen⟩ := h.open_below halike le_rfl
  have hlt := h₁.lt
  have hbound := h₁.bound
  obtain ⟨b₂, hdone, halike⟩ := halike.step
    (show (interface rs).step (.onDone 0) a₁ = .ok (.nothing, a₁.onDone 0) from rfl)
  cases hdone
  obtain ⟨blocks, a₂, htake⟩ := takeReady_of_absent rs (a := a₁.onDone 0) (k := k) rfl
    h₁.ge (by omega) h₁.absent
  obtain ⟨b₂, htake', halike⟩ := halike.step
    (show (interface rs).step .takeReady (a₁.onDone 0) = .ok (.ready blocks, a₂) by
      show ((a₁.onDone 0).takeReady rs >>= _) = _
      rw [htake]
      rfl)
  obtain ⟨⟨blocks', b₃⟩, htake', heq⟩ := bind_ok_iff.mp htake'
  cases heq
  obtain ⟨_, hnumber, -⟩ := halike.step
    (show (interface rs).step .nextNeeded a₂ = .ok (.number a₂.nextNeeded, a₂) from rfl)
  have hsame : b₂.nextNeeded = a₂.nextNeeded :=
    Answer.number.inj (Prod.mk.inj (Except.ok.inj hnumber)).1
  have hstops := (lt_nextNeeded_iff (a := a₁.onDone 0) (k := k) rfl htake).not.mpr fun hall => by
    have := hall k h₁.ge le_rfl
    rw [show (a₁.onDone 0).slices.lookup k = none from h₁.absent] at this
    cases this
  have hpasses := (lt_nextNeeded_iff (a := b₁.onDone 0) (k := k) rfl htake').mpr fun j hj hjk => by
    rcases Nat.lt_or_eq_of_le hjk with hlt | rfl
    · exact (hopen j (h₁.nextNeeded ▸ hj) hlt).2
    · exact h₁.opened
  omega

/-- A refused shard leaves no trace that any later calls could find, exactly where it is not one
for a slot past the end of a slice of the window that nothing was held of. -/
theorem refusal_leaves_no_trace_iff (hi : a.insert k slot w payload = .ok (false, a')) :
    Responding.Alike (interface rs) a a' ↔ ¬ a.Opens k slot := by
  constructor
  · intro halike hopens
    obtain ⟨hbound, hslots⟩ := bounds_of_insert hopens.ge hopens.lt hi
    obtain ⟨hnext, hgeometry, hopen⟩ := opened_of_insert hi hopens.ge hopens.lt
    exact Parted.not_alike ⟨hnext, hgeometry, hopens.ge, hopens.lt, hbound, hslots, hopens.absent,
      (hopen k).mpr (.inl rfl)⟩ halike
  · exact fun hopens => (same_of_refused hi hopens).alike

/-- One of two data shards and the parity of a slice wait for the total or for a later slice. A
shard for slot three of slice one, which has no such slot, is refused; but then the slice before
it is written. -/
theorem refused_shard_releases : ∃ a a' blocks, Labelled.Reachable (uses .interpolated small) a ∧
    a.insert 1 3 1 [7, 8] = .ok (false, a') ∧
      Responding.answers (interface .interpolated) [.takeReady] a = [.ok (.ready [])] ∧
      Responding.answers (interface .interpolated) [.takeReady] a' = [.ok (.ready blocks)] ∧
      blocks.length = 2 := by
  obtain ⟨a₀, hnew, a, hrun, a', hi, blocks, hbefore, hafter, hlen⟩ :
      ∃ a₀, Assembler.new small = .ok a₀ ∧ ∃ a,
        Labelled.exec (uses .interpolated small) [.insert 0 0 1 [1, 2], .insert 0 2 1 [3, 4]] a₀ =
          some a ∧ ∃ a', a.insert 1 3 1 [7, 8] = .ok (false, a') ∧ ∃ blocks : List Bytes,
        Responding.answers (interface .interpolated) [.takeReady] a = [.ok (.ready [])] ∧
        Responding.answers (interface .interpolated) [.takeReady] a' = [.ok (.ready blocks)] ∧
        blocks.length = 2 := ⟨_, rfl, _, rfl, _, rfl, _, rfl, rfl, rfl⟩
  exact ⟨a, a', blocks, .exec (.start hnew) hrun, hi, hbefore, hafter, hlen⟩

theorem refusal_leaves_no_trace_iff_held : ∃ a a', a.insert 0 0 1 [9, 9] = .ok (false, a') ∧
    Responding.Alike (interface .interpolated) a a' := by
  obtain ⟨a₀, hnew, a, hrun, a', hi, hheld⟩ : ∃ a₀, Assembler.new small = .ok a₀ ∧ ∃ a,
      Labelled.exec (uses .interpolated small) [.insert 0 0 1 [1, 2]] a₀ = some a ∧
      ∃ a', a.insert 0 0 1 [9, 9] = .ok (false, a') ∧ (a.slices.lookup 0).isSome :=
    ⟨_, rfl, _, rfl, _, rfl, rfl⟩
  refine ⟨a, a', hi, (refusal_leaves_no_trace_iff hi).mpr fun hopens => ?_⟩
  rw [hopens.absent] at hheld
  cases hheld

end Assembler
end Scuttlecast
