import Scuttlecast.Receiver.Progress
import Scuttlecast.Interpolated
import Scuttlecast.Library.Labelled

/-! An assembler fed by anybody: any frames that pass the check, any totals, `take_ready` at any
time. The count of held shards decides completeness, and a total that comes late can make it count
data past the end of its slice; exactly then `take_ready` dies of one of its `expect`s. -/
namespace Scuttlecast

namespace Assembler

variable {rs : ReedSolomon} {a a' : Assembler} {k : ℕ} {blocks : List Bytes}

/-- `take_ready` comes to the slice: it and all the slices before it may be written and count as
complete. -/
def Reaches (a : Assembler) (k : ℕ) : Prop :=
  a.nextNeeded ≤ k ∧ ∀ j, a.nextNeeded ≤ j → j ≤ k → a.canWrite j ∧ a.isComplete j

/-- `take_ready` comes to a slice with fewer data slots held below its target, and parity slots,
than the target: it is complete only by counting data slots at or past the target. -/
def Overcounts (a : Assembler) : Prop :=
  ∃ k s, a.Reaches k ∧ a.slices.lookup k = some s ∧
    s.below (a.target k) + s.above a.geometry.blocksPerSlice < a.target k

theorem Released.wf (h : Released rs a blocks a') (hwf : a.Wf) : a'.Wf := by
  induction h with
  | done a => exact hwf
  | turn hturn _ ih => exact ih (hwf.release hturn)

/-- What was released could be recovered. -/
theorem Released.enough (h : Released rs a blocks a') (hwf : a.Wf) (ha : a.geometry.Accepted)
    {s : Slice} (hk : a.nextNeeded ≤ k) (hlt : k < a'.nextNeeded)
    (hs : a.slices.lookup k = some s) :
    a.target k ≤ s.below (a.target k) + s.above a.geometry.blocksPerSlice := by
  induction h with
  | done a => omega
  | @turn a a₁ a₂ _ _ hturn hrest ih =>
    obtain ⟨hnext, _, hslices, htotal, hgeometry⟩ := release_frame hturn
    rcases Nat.eq_or_lt_of_le hk with rfl | hgt
    · obtain ⟨s', _, hs', _, hrec, _⟩ := release_eq_some hturn
      obtain rfl : s' = s := by simpa [hs] using hs'.symm
      have hrecover := recover_ok_iff rs (a := { a with slices := a.slices.erase a.nextNeeded })
        hwf.codec ha (hwf.wf _ _ hs) (a.target_le a.nextNeeded)
      exact hrecover.mp ⟨_, hrec⟩
    · have hs₁ : a₁.slices.lookup k = some s := by
        rw [hslices, Table.lookup_erase', if_neg (Nat.ne_of_gt hgt), hs]
      have hrest := ih (hwf.release hturn) (hgeometry ▸ ha) (by omega) hlt hs₁
      rwa [target_congr htotal hgeometry, hgeometry] at hrest

/-- `take_ready` dies exactly when it comes to a slice that is complete only by overcounting. -/
theorem takeReady_dies_iff (rs : ReedSolomon) (hwf : a.Wf) (ha : a.geometry.Accepted)
    (hbound : ∀ k s, a.slices.lookup k = some s → k + 1 < 2 ^ 32) :
    (∃ p, a.takeReady rs = .error p) ↔ a.Overcounts := by
  constructor
  · rintro ⟨p, hp⟩
    obtain ⟨blocks, a', hreleased, herror⟩ := takeReady_eq_error.mp hp
    obtain ⟨hle, htotal, hgeometry, hlookup⟩ := hreleased.frame
    obtain ⟨s, hs, hready, hcase⟩ := release_eq_error herror
    have hs' : a.slices.lookup a'.nextNeeded = some s := by
      rw [← hs, hlookup, if_neg (by omega)]
    refine ⟨a'.nextNeeded, s, ⟨hle, fun j hj hjk => ?_⟩, hs', ?_⟩
    · rcases Nat.lt_or_eq_of_le hjk with hlt | rfl
      · exact (hreleased.complete j hj hlt).symm
      · exact hreleased.ready_iff.mp hready
    · have hwf' := hreleased.wf hwf
      have hrecover := recover_ok_iff rs
        (a := { a' with slices := a'.slices.erase a'.nextNeeded }) hwf'.codec (hgeometry ▸ ha)
        (hwf'.wf _ _ hs) (a'.target_le a'.nextNeeded)
      rw [← target_congr htotal hgeometry, ← hgeometry, ← Nat.not_le]
      intro henough
      obtain ⟨⟨b, a₁⟩, hok⟩ := hrecover.mpr henough
      rcases hcase with hcase | ⟨b', a₁', hok', hover, _⟩
      · rw [hok] at hcase
        simp at hcase
      · obtain ⟨_, _, rfl⟩ := recover_frame hok'
        have := hbound _ s hs'
        simp only at hover
        omega
  · rintro ⟨k, s, ⟨hk, hreaches⟩, hs, hshort⟩
    rcases htake : a.takeReady rs with p | ⟨blocks, a'⟩
    · exact ⟨p, rfl⟩
    obtain ⟨hreleased, hstop⟩ := takeReady_eq_ok.mp htake
    by_cases hlt : k < a'.nextNeeded
    · have := hreleased.enough hwf ha hk hlt hs
      omega
    · exact absurd (hreleased.ready_iff.mpr
        (hreaches _ hreleased.frame.1 (Nat.le_of_not_lt hlt))) hstop

/-- Where slices have numbers left, it can only die of an `expect`. -/
theorem takeReady_expect (hwf : a.Wf)
    (hbound : ∀ k s, a.slices.lookup k = some s → k + 1 < 2 ^ 32) {p : Panic}
    (hp : a.takeReady rs = .error p) : ∃ message, p = .expect message := by
  obtain ⟨blocks, a', hreleased, herror⟩ := takeReady_eq_error.mp hp
  have hwf' := hreleased.wf hwf
  obtain ⟨s, hs, _, hcase⟩ := release_eq_error herror
  rcases hcase with hrec | ⟨_, _, hok, hover, _⟩
  · rw [recover_eq rs (a := { a' with slices := a'.slices.erase a'.nextNeeded }) hwf'.codec
      (hwf'.wf _ _ hs) (a'.target_le a'.nextNeeded)] at hrec
    split_ifs at hrec
    · exact ⟨_, (Except.error.inj hrec).symm⟩
    · exact ⟨_, (Except.error.inj hrec).symm⟩
  · obtain ⟨_, _, rfl⟩ := recover_frame hok
    have hs' : a.slices.lookup a'.nextNeeded = some s := by
      rw [← hs, hreleased.frame.2.2.2, if_neg (by omega)]
    have := hbound _ s hs'
    simp only at hover
    omega

end Assembler

namespace Session

variable {rs : ReedSolomon} {hello : Hello} {s s' : Session} {frame : Frame}

/-- What the outside can make of a session's assembler. -/
inductive Call where
  | shard (frame : Frame)
  | done (totalBlocks : ℕ)
  | takeReady
  deriving DecidableEq, Repr

/-- The assembler after a call; there is none after a frame that fails the check, or a panic. -/
def call (rs : ReedSolomon) : Call → Session → Option Session
  | .shard frame, s =>
    match s.checkShard frame,
        s.assembler.insert frame.sliceNo frame.slot frame.sliceParity frame.payload with
    | .ok (.ok ()), .ok (_, assembler) => some { s with assembler := assembler }
    | _, _ => none
  | .done totalBlocks, s => some { s with assembler := s.assembler.onDone totalBlocks }
  | .takeReady, s =>
    match s.assembler.takeReady rs with
    | .ok (_, assembler) => some { s with assembler := assembler }
    | .error _ => none

/-- All sequences of calls on a session for this `Hello`. -/
def calls (rs : ReedSolomon) (hello : Hello) : Labelled.System Session Call where
  init s := ∃ receiverId now, new hello receiverId now = .ok s
  next := call rs

/-- What a frame that passes the check is. -/
theorem checked_of_checkShard (hgeometry : s.assembler.geometry = s.geometry)
    (h : s.checkShard frame = .ok (.ok ())) :
    Assembler.Checked s.assembler.geometry frame.slot frame.sliceParity frame.payload := by
  unfold checkShard Assembler.totalSlots at h
  obtain ⟨slots, hslots, h⟩ := bind_ok_iff.mp h
  obtain ⟨_, rfl⟩ := addChecked_eq_ok.mp hslots
  rw [Except.ok.injEq] at h
  split_ifs at h with hslot hwidth hparity hsize
  rw [hgeometry] at hslot ⊢
  exact ⟨by omega, by omega, fun hle => by omega, not_not.mp hsize⟩

/-- The assembler is well formed, and no slice it holds has the last of all numbers. -/
structure Sturdy (hello : Hello) (s : Session) : Prop where
  geometry : s.geometry = hello.geometry
  agrees : s.assembler.geometry = hello.geometry
  accepted : hello.geometry.Accepted
  wf : s.assembler.Wf
  bound : ∀ k slice, s.assembler.slices.lookup k = some slice → k + 1 < 2 ^ 32

theorem Sturdy.insert (h : Sturdy hello s) (hcheck : s.checkShard frame = .ok (.ok ()))
    {taken : Bool} {assembler : Assembler}
    (hi : s.assembler.insert frame.sliceNo frame.slot frame.sliceParity frame.payload =
      .ok (taken, assembler)) : Sturdy hello { s with assembler := assembler } := by
  have hchecked := checked_of_checkShard (h.agrees.trans h.geometry.symm) hcheck
  refine ⟨h.geometry, ?_, h.accepted, h.wf.insert hchecked hi, ?_⟩
  · rcases Assembler.insert_eq_ok hi with ⟨_, rfl, _⟩ | ⟨_, _, _, _, rfl⟩ <;> exact h.agrees
  · intro k slice hlook
    rcases Assembler.insert_eq_ok hi with ⟨_, rfl, _⟩ | ⟨hge, hlt, _, _, rfl⟩
    · exact h.bound k slice hlook
    · simp only [Table.lookup_insert'] at hlook
      split_ifs at hlook with hk
      · -- the end of the window itself had to be a slice number
        have := (Assembler.bounds_of_insert hge hlt hi).1
        omega
      · exact h.bound k slice hlook

theorem Sturdy.call (h : Sturdy hello s) {c : Call} (hc : s.call rs c = some s') :
    Sturdy hello s' := by
  cases c with
  | shard frame =>
    simp only [Session.call] at hc
    split at hc
    · next hcheck hi => exact Option.some.inj hc ▸ h.insert hcheck hi
    · simp at hc
  | done totalBlocks =>
    rw [← Option.some.inj hc]
    exact ⟨h.geometry, h.agrees, h.accepted, ⟨h.wf.codec, h.wf.wf, h.wf.nonempty, h.wf.above⟩,
      h.bound⟩
  | takeReady =>
    simp only [Session.call] at hc
    split at hc
    · next htake =>
      rw [← Option.some.inj hc]
      have hreleased := (Assembler.takeReady_eq_ok.mp htake).1
      obtain ⟨_, _, hgeometry, hlookup⟩ := hreleased.frame
      refine ⟨h.geometry, hgeometry.trans h.agrees, h.accepted, hreleased.wf h.wf, ?_⟩
      intro k slice hlook
      rw [hlookup] at hlook
      split_ifs at hlook
      exact h.bound k slice hlook
    · simp at hc

theorem sturdy_of_reachable (h : Labelled.Reachable (calls rs hello) s) : Sturdy hello s := by
  refine Labelled.Reach.invariant ?_ (fun _ _ _ _ hs hc => hs.call hc) h
  rintro s ⟨receiverId, now, hnew⟩
  obtain ⟨assembler, ha, hs⟩ := bind_ok_iff.mp hnew
  obtain ⟨hwf, hgeometry, hempty, _, _, haccepted⟩ := Assembler.new_wf ha
  rw [← Except.ok.inj hs]
  exact ⟨rfl, hgeometry, haccepted, hwf, by simp [fresh, hempty]⟩

/-- Whatever was inserted and announced, `take_ready` dies of an `expect` exactly when it comes to
a slice that is complete only by counting data slots at or past its target. -/
theorem takeReady_panics_iff (h : Labelled.Reachable (calls rs hello) s) :
    (∃ message, s.assembler.takeReady rs = .error (.expect message)) ↔
      s.assembler.Overcounts := by
  have hsturdy := sturdy_of_reachable h
  rw [← Assembler.takeReady_dies_iff rs hsturdy.wf (hsturdy.agrees ▸ hsturdy.accepted)
    hsturdy.bound]
  constructor
  · rintro ⟨message, hp⟩
    exact ⟨_, hp⟩
  · rintro ⟨p, hp⟩
    obtain ⟨message, rfl⟩ := Assembler.takeReady_expect hsturdy.wf hsturdy.bound hp
    exact ⟨message, hp⟩

/-- Two data blocks a slice and no parity. -/
def pairs : Hello where
  transferId := 7
  geometry := .of 2 2 0 1
  totalBytes := none

/-- The second of two blocks, and then a total of one block: no decoder can be built. -/
theorem late_total_crashes : ∃ s, Labelled.Reachable (calls .interpolated pairs) s ∧
    s.assembler.takeReady .interpolated =
      .error (.expect "the widest parity the transfer allows built a decoder") := by
  obtain ⟨s₀, hnew, s, hrun, hpanic⟩ : ∃ s₀, new pairs 0 0 = .ok s₀ ∧ ∃ s,
      Labelled.exec (calls .interpolated pairs)
        [.shard
          { slot := 1, sliceParity := 0, transferId := 7, seq := 0, sliceNo := 0, emitFloor := 0
            payload := [1, 2] }, .done 1] s₀ = some s ∧
      s.assembler.takeReady .interpolated =
        .error (.expect "the widest parity the transfer allows built a decoder") :=
    ⟨_, rfl, _, rfl, rfl⟩
  exact ⟨s, .exec (.start ⟨_, _, hnew⟩) hrun, hpanic⟩

theorem takeReady_panics_iff_late_total : ∃ s, Labelled.Reachable (calls .interpolated pairs) s ∧
    s.assembler.Overcounts := by
  obtain ⟨s, hreach, hpanic⟩ := late_total_crashes
  exact ⟨s, hreach, (takeReady_panics_iff hreach).mp ⟨_, hpanic⟩⟩

end Session
end Scuttlecast
