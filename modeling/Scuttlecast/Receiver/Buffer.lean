import Scuttlecast.Receiver.Release
import Scuttlecast.Interpolated
import Scuttlecast.Library.Labelled
import Scuttlecast.Library.Responding

/-! The assembler on its own, called in any order and with any arguments: what its buffer holds
lies in the window, is what was accepted first, and leaves it slice by slice. -/
namespace Scuttlecast
namespace Assembler

/-- What the assembler offers to its caller. -/
inductive Call where
  | insert (sliceNo slot parityWidth : ℕ) (payload : Bytes)
  | onDone (totalBlocks : ℕ)
  | takeReady
  | gaps (emitFloor : ℕ)
  | isFinished
  | nextNeeded
  deriving DecidableEq, Repr

inductive Answer where
  | nothing
  | taken (taken : Bool)
  | ready (blocks : List Bytes)
  | gaps (gaps : List (ℕ × List ℕ))
  | finished (finished : Bool)
  | number (nextNeeded : ℕ)
  deriving DecidableEq, Repr

def call (rs : ReedSolomon) (a : Assembler) : Call → Except Panic (Answer × Assembler)
  | .insert sliceNo slot parityWidth payload => do
    let (taken, a) ← a.insert sliceNo slot parityWidth payload
    .ok (.taken taken, a)
  | .onDone totalBlocks => .ok (.nothing, a.onDone totalBlocks)
  | .takeReady => do
    let (blocks, a) ← a.takeReady rs
    .ok (.ready blocks, a)
  | .gaps emitFloor => .ok (.gaps (a.gaps emitFloor), a)
  | .isFinished => .ok (.finished a.isFinished, a)
  | .nextNeeded => .ok (.number a.nextNeeded, a)

def interface (rs : ReedSolomon) : Responding.Machine Assembler Call Answer Panic where
  step call a := a.call rs call

/-- All sequences of calls that do not panic, on an assembler of this shape. -/
def uses (rs : ReedSolomon) (g : Geometry) : Labelled.System Assembler Call where
  init a := Assembler.new g = .ok a
  next call a := (a.call rs call).toOption.map Prod.snd

variable {rs : ReedSolomon} {g : Geometry} {a a' : Assembler} {k slot w : ℕ} {payload : Bytes}
variable {taken : Bool} {blocks : List Bytes} {s s' : Slice}

theorem next_uses {c : Call} : (uses rs g).next c a = some a' ↔
    ∃ answer, a.call rs c = .ok (answer, a') := by
  simp [uses, toOption_eq_some]

/-- What a call can do to the assembler. -/
theorem call_cases {c : Call} {answer : Answer} (h : a.call rs c = .ok (answer, a')) :
    (∃ k slot w payload taken, a.insert k slot w payload = .ok (taken, a')) ∨
      (∃ total, a' = a.onDone total) ∨ (∃ blocks, a.takeReady rs = .ok (blocks, a')) ∨ a' = a := by
  cases c with
  | insert k slot w payload =>
    obtain ⟨⟨taken, a₁⟩, hi, heq⟩ := bind_ok_iff.mp h
    cases heq
    exact .inl ⟨k, slot, w, payload, taken, hi⟩
  | onDone total => exact .inr (.inl ⟨total, (Prod.mk.inj (Except.ok.inj h)).2.symm⟩)
  | takeReady =>
    obtain ⟨⟨blocks, a₁⟩, htake, heq⟩ := bind_ok_iff.mp h
    cases heq
    exact .inr (.inr (.inl ⟨blocks, htake⟩))
  | gaps floor => exact .inr (.inr (.inr (Prod.mk.inj (Except.ok.inj h)).2.symm))
  | isFinished => exact .inr (.inr (.inr (Prod.mk.inj (Except.ok.inj h)).2.symm))
  | nextNeeded => exact .inr (.inr (.inr (Prod.mk.inj (Except.ok.inj h)).2.symm))

/-- What holds of every buffered slice: its number lies in the window, it has all its slots, and
it counts the ones it holds. -/
structure Buffered (a : Assembler) : Prop where
  window : ∀ k s, a.slices.lookup k = some s →
    a.nextNeeded ≤ k ∧ k < a.nextNeeded + a.geometry.maxLiveSlices
  length : ∀ k s, a.slices.lookup k = some s →
    s.slots.length = a.geometry.blocksPerSlice + a.geometry.parityPerSlice
  received : ∀ k s, a.slices.lookup k = some s → s.received = s.slots.countP (·.isSome)

theorem Buffered.sliceFor (h : a.Buffered) (k : ℕ) :
    (a.sliceFor k).slots.length = a.geometry.blocksPerSlice + a.geometry.parityPerSlice ∧
      (a.sliceFor k).received = (a.sliceFor k).slots.countP (·.isSome) := by
  unfold Assembler.sliceFor
  rcases hlook : a.slices.lookup k with _ | s
  · simp [Slice.empty, List.countP_replicate]
  · exact ⟨h.length k s hlook, h.received k s hlook⟩

/-- A slice keeps its slots, and counts the one it fills. -/
theorem Slice.shape_insert (h : s.insert slot w payload = (taken, s')) :
    s'.slots.length = s.slots.length ∧ (s.received = s.slots.countP (·.isSome) →
      s'.received = s'.slots.countP (·.isSome)) := by
  cases taken with
  | false =>
    obtain ⟨rfl, -⟩ := insert_eq_false h
    exact ⟨rfl, id⟩
  | true =>
    obtain ⟨hfree, -, rfl⟩ := insert_eq_true h
    constructor
    · exact List.length_set
    · intro hreceived
      exact (congrArg (· + 1) hreceived).trans (countP_set_isSome payload hfree).symm

theorem Buffered.insert (h : a.Buffered) (hi : a.insert k slot w payload = .ok (taken, a')) :
    a'.Buffered := by
  rcases insert_eq_ok hi with ⟨_, rfl, _⟩ | ⟨hge, hlt, s', hs', rfl⟩
  · exact h
  obtain ⟨hlength, hreceived⟩ := h.sliceFor k
  obtain ⟨hlength', hreceived'⟩ := Slice.shape_insert hs'
  constructor <;> intro j s hs <;> rw [Table.lookup_insert'] at hs <;> split_ifs at hs with hj
  · subst hj
    exact ⟨hge, hlt⟩
  · exact h.window j s hs
  · exact Option.some.inj hs ▸ hlength'.trans hlength
  · exact h.length j s hs
  · exact Option.some.inj hs ▸ hreceived' hreceived
  · exact h.received j s hs

theorem Buffered.onDone (h : a.Buffered) (total : ℕ) : (a.onDone total).Buffered :=
  ⟨h.window, h.length, h.received⟩

/-- What releases leave lies above the count they reach, and no further up than before. -/
theorem Buffered.released (h : a.Buffered) (hr : Released rs a blocks a') : a'.Buffered := by
  obtain ⟨hle, -, hgeometry, hlookup⟩ := hr.frame
  have hold : ∀ j s, a'.slices.lookup j = some s → a'.nextNeeded ≤ j ∧
      a.slices.lookup j = some s := by
    intro j s hs
    rw [hlookup] at hs
    split_ifs at hs with hj
    have := (h.window j s hs).1
    exact ⟨by omega, hs⟩
  constructor <;> intro j s hs <;> obtain ⟨hj, hs⟩ := hold j s hs
  · have := (h.window j s hs).2
    exact ⟨hj, by rw [hgeometry]; omega⟩
  · rw [hgeometry]
    exact h.length j s hs
  · exact h.received j s hs

theorem Buffered.call (h : a.Buffered) {c : Call} {answer : Answer}
    (hc : a.call rs c = .ok (answer, a')) : a'.Buffered := by
  rcases call_cases hc with ⟨_, _, _, _, _, hi⟩ | ⟨total, rfl⟩ | ⟨_, htake⟩ | rfl
  · exact h.insert hi
  · exact h.onDone total
  · exact h.released (takeReady_eq_ok.mp htake).1
  · exact h

theorem buffered_of_reachable (h : Labelled.Reachable (uses rs g) a) : a.Buffered := by
  apply h.invariant
  · intro a hnew
    obtain ⟨-, -, hslices, -⟩ := new_wf hnew
    constructor <;> simp [hslices]
  · intro c a a' _ ha hn
    obtain ⟨answer, hc⟩ := next_uses.mp hn
    exact ha.call hc

/-- From `a` to `a'` the count went up by as many slices as left the buffer, and these are the
slices it passed. -/
structure Rises (a a' : Assembler) : Prop where
  count : a'.nextNeeded + a'.slices.entries.length = a.nextNeeded + a.slices.entries.length
  next_le : a.nextNeeded ≤ a'.nextNeeded
  gone : ∀ k, a.nextNeeded ≤ k → k < a'.nextNeeded →
    (∃ s, a.slices.lookup k = some s) ∧ a'.slices.lookup k = none
  left : ∀ k, a'.nextNeeded ≤ k → a'.slices.lookup k = a.slices.lookup k

theorem Released.rises (h : Released rs a blocks a') : Rises a a' := by
  have hcount : a'.nextNeeded + a'.slices.entries.length =
      a.nextNeeded + a.slices.entries.length := by
    induction h with
    | done a => rfl
    | turn hturn _ ih =>
      have hlen := length_entries_of_release hturn
      have hnext := (release_frame hturn).1
      omega
  obtain ⟨hle, -, -, hlookup⟩ := h.frame
  constructor
  · exact hcount
  · exact hle
  · intro k hk hlt
    have hcomplete := (h.complete k hk hlt).1
    obtain ⟨s, hs, -⟩ := (Option.any_eq_true ..).mp hcomplete
    exact ⟨⟨s, hs⟩, by rw [hlookup, if_pos ⟨hk, hlt⟩]⟩
  · intro k hk
    rw [hlookup, if_neg (by omega)]

theorem nextNeeded_call {c : Call} {answer : Answer} (hne : c ≠ .takeReady)
    (hc : a.call rs c = .ok (answer, a')) : a'.nextNeeded = a.nextNeeded := by
  cases c with
  | insert k slot w payload =>
    obtain ⟨⟨taken, a₁⟩, hi, heq⟩ := bind_ok_iff.mp hc
    cases heq
    rcases insert_eq_ok hi with ⟨_, rfl, _⟩ | ⟨_, _, _, _, rfl⟩ <;> rfl
  | takeReady => exact absurd rfl hne
  | _ => cases hc; rfl

/-- Everything that holds of the buffer at one time. -/
structure Represented (rs : ReedSolomon) (a : Assembler) : Prop extends a.Buffered where
  few : a.slices.entries.length ≤ a.geometry.maxLiveSlices
  rises : ∀ blocks a', a.takeReady rs = .ok (blocks, a') → Rises a a'
  still : ∀ c answer a', c ≠ .takeReady → a.call rs c = .ok (answer, a') →
    a'.nextNeeded = a.nextNeeded
  settled : ∀ blocks a', a.takeReady rs = .ok (blocks, a') → a'.takeReady rs = .ok ([], a')

theorem Buffered.represented (h : a.Buffered) (rs : ReedSolomon) : a.Represented rs := by
  constructor
  · exact h
  · exact Table.length_entries_le h.window
  · intro blocks a' htake
    exact (takeReady_eq_ok.mp htake).1.rises
  · intro c answer a' hne hc
    exact nextNeeded_call hne hc
  · intro blocks a' htake
    exact takeReady_of_not_ready (takeReady_eq_ok.mp htake).2

/-- Slice `k` holds the payload in the slot, and has the width if it is one. -/
def Carries (a : Assembler) (k slot w : ℕ) (payload : Bytes) : Prop :=
  ∃ s, a.slices.lookup k = some s ∧ s.payload slot = some payload ∧ (0 < w → s.parityWidth = w)

/-- From `a` to a later `a'` the count does not go down, and a slice that is still waited for has
lost nothing. -/
structure Later (a a' : Assembler) : Prop where
  next_le : a.nextNeeded ≤ a'.nextNeeded
  carries : ∀ k slot w payload, a.Carries k slot w payload → a'.nextNeeded ≤ k →
    a'.Carries k slot w payload

theorem Later.refl (a : Assembler) : Later a a := ⟨le_rfl, fun _ _ _ _ h _ => h⟩

theorem Later.trans {a'' : Assembler} (h : Later a a') (h' : Later a' a'') : Later a a'' :=
  ⟨h.next_le.trans h'.next_le, fun k slot w payload hc hk =>
    h'.carries k slot w payload (h.carries k slot w payload hc (h'.next_le.trans hk)) hk⟩

/-- A slice that takes a shard loses no payload and no width. -/
theorem Slice.carries_insert {slot' w' : ℕ} {payload' : Bytes}
    (hi : s.insert slot w payload = (taken, s')) (hp : s.payload slot' = some payload')
    (hw : 0 < w' → s.parityWidth = w') :
    s'.payload slot' = some payload' ∧ (0 < w' → s'.parityWidth = w') := by
  cases taken with
  | false =>
    obtain ⟨rfl, -⟩ := insert_eq_false hi
    exact ⟨hp, hw⟩
  | true =>
    have hpay := payload_insert hi slot'
    obtain ⟨hfree, hsame, rfl⟩ := insert_eq_true hi
    constructor
    · rw [hpay]
      split_ifs with hslot
      · rw [hslot, payload_eq_some, hfree] at hp
        cases hp
      · exact hp
    · intro hpos
      have hold := hw hpos
      show (if 0 < w then w else s.parityWidth) = w'
      split_ifs with hnew
      · rw [← hold, hsame hnew (by omega)]
      · exact hold

theorem later_insert (hi : a.insert k slot w payload = .ok (taken, a')) : Later a a' := by
  rcases insert_eq_ok hi with ⟨_, rfl, _⟩ | ⟨_, _, s', hs', rfl⟩
  · exact .refl _
  constructor
  · exact le_rfl
  · rintro j slot' w' payload' ⟨s, hs, hp, hw⟩ -
    unfold Carries
    simp only [Table.lookup_insert']
    split_ifs with hj
    · have hfor : a.sliceFor k = s := by rw [sliceFor, ← hj, hs, Option.getD_some]
      obtain ⟨hp', hw'⟩ := Slice.carries_insert (hfor ▸ hs') hp hw
      exact ⟨s', rfl, hp', hw'⟩
    · exact ⟨s, hs, hp, hw⟩

theorem Rises.later (h : Rises a a') : Later a a' := by
  constructor
  · exact h.next_le
  · rintro k slot w payload ⟨s, hs, hp, hw⟩ hk
    exact ⟨s, (h.left k hk).trans hs, hp, hw⟩

theorem later_call {c : Call} {answer : Answer} (hc : a.call rs c = .ok (answer, a')) :
    Later a a' := by
  rcases call_cases hc with ⟨_, _, _, _, _, hi⟩ | ⟨total, rfl⟩ | ⟨_, htake⟩ | rfl
  · exact later_insert hi
  · exact ⟨le_rfl, fun _ _ _ _ h _ => h⟩
  · exact (takeReady_eq_ok.mp htake).1.rises.later
  · exact .refl _

theorem later_exec {calls : List Call} (he : Labelled.exec (uses rs g) calls a = some a') :
    Later a a' := by
  apply Labelled.exec_induction (I := fun _ a' => Later a a') (.refl a) ?_ he
  intro _ c t t' _ ht hn
  obtain ⟨answer, hc⟩ := next_uses.mp hn
  exact ht.trans (later_call hc)

/-- A shard that is accepted is there. -/
theorem carries_of_insert (hi : a.insert k slot w payload = .ok (true, a')) :
    a'.Carries k slot w payload := by
  rcases insert_eq_ok hi with ⟨hfalse, _⟩ | ⟨_, _, s', hs', rfl⟩
  · cases hfalse
  · have hp := Slice.payload_insert hs' slot
    obtain ⟨-, -, hs'⟩ := Slice.insert_eq_true hs'
    refine ⟨s', AList.lookup_insert _, hp.trans (if_pos rfl), fun hpos => ?_⟩
    rw [hs']
    exact if_pos hpos

/-- However the assembler is called, its buffer stays inside the window and counts what it holds,
`take_ready` raises the count by the slices it takes out and leaves nothing for a second one, and
what was accepted stays as it was for as long as its slice is waited for. -/
theorem buffer_is_represented (h : Labelled.Reachable (uses rs g) a) :
    a.Represented rs ∧
      (∀ calls a', Labelled.exec (uses rs g) calls a = some a' → Later a a') ∧
      ∀ k slot w payload a₁, a.insert k slot w payload = .ok (true, a₁) →
        ∀ calls a', Labelled.exec (uses rs g) calls a₁ = some a' → a'.nextNeeded ≤ k →
          a'.Carries k slot w payload := by
  refine ⟨(buffered_of_reachable h).represented rs, fun _ _ he => later_exec he, ?_⟩
  intro k slot w payload a₁ hi calls a' he hk
  exact (later_exec he).carries _ _ _ _ (carries_of_insert hi) hk

/-- Two data blocks a slice, one of parity, and two slices at a time. -/
def small : Geometry := .of 2 2 1 2

theorem buffer_is_represented_small : ∃ a a₁, Labelled.Reachable (uses .interpolated small) a ∧
    a.insert 1 2 1 [3, 4] = .ok (true, a₁) ∧ a₁.Carries 1 2 1 [3, 4] := by
  obtain ⟨a₀, hnew, a, hrun, a₁, hi⟩ : ∃ a₀, Assembler.new small = .ok a₀ ∧ ∃ a,
      Labelled.exec (uses .interpolated small) [.insert 0 0 1 [1, 2], .insert 0 1 0 [5, 6],
        .onDone 4, .takeReady] a₀ = some a ∧
      ∃ a₁, a.insert 1 2 1 [3, 4] = .ok (true, a₁) := ⟨_, rfl, _, rfl, _, rfl⟩
  have hreach : Labelled.Reachable (uses .interpolated small) a := .exec (.start hnew) hrun
  have hnext : a₁.nextNeeded ≤ 1 := by
    cases hnew
    cases hrun
    cases hi
    decide
  exact ⟨a, a₁, hreach, hi,
    (buffer_is_represented hreach).2.2 _ _ _ _ _ hi [] a₁ rfl hnext⟩

end Assembler
end Scuttlecast
