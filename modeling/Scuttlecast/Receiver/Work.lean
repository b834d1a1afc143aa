import Scuttlecast.Receiver.Progress

/-! What a session does with its assembler: it inserts the shards that arrive, takes over the
totals that arrive, and releases. Its floor rises with every shard. -/
namespace Scuttlecast
namespace Session

variable {rs : ReedSolomon} {s s' : Session} {arrived : Incoming → Prop}

/-- From an assembler and a floor to later ones, by what has arrived. -/
inductive Worked (rs : ReedSolomon) (arrived : Incoming → Prop) (a₀ : Assembler) (f₀ : ℕ) :
    Assembler → ℕ → Prop
  | refl : Worked rs arrived a₀ f₀ a₀ f₀
  | shard {a a' : Assembler} {f : ℕ} {frame : Frame} {taken : Bool}
      (h : Worked rs arrived a₀ f₀ a f) (harrived : arrived (.shard frame))
      (hi : a.insert frame.sliceNo frame.slot frame.sliceParity frame.payload = .ok (taken, a')) :
      Worked rs arrived a₀ f₀ a' (max f frame.emitFloor)
  | floor {a : Assembler} {f : ℕ} {frame : Frame} (h : Worked rs arrived a₀ f₀ a f)
      (harrived : arrived (.shard frame)) :
      Worked rs arrived a₀ f₀ a (max f frame.emitFloor)
  | done {a : Assembler} {f : ℕ} {done : Done} (h : Worked rs arrived a₀ f₀ a f)
      (harrived : arrived (.control (.done done))) :
      Worked rs arrived a₀ f₀ (a.onDone done.totalBlocks) f
  | release {a a' : Assembler} {f : ℕ} {ready : List Bytes} (h : Worked rs arrived a₀ f₀ a f)
      (ht : a.takeReady rs = .ok (ready, a')) : Worked rs arrived a₀ f₀ a' f

theorem Worked.trans {a₀ a a' : Assembler} {f₀ f f' : ℕ} (h : Worked rs arrived a₀ f₀ a f)
    (h' : Worked rs arrived a f a' f') : Worked rs arrived a₀ f₀ a' f' := by
  induction h' with
  | refl => exact h
  | shard _ harrived hi ih => exact .shard ih harrived hi
  | floor _ harrived ih => exact .floor ih harrived
  | done _ harrived ih => exact .done ih harrived
  | release _ ht ih => exact .release ih ht

/-- The part of a turn did to the assembler and the floor only what is work. -/
abbrev Works (rs : ReedSolomon) (arrived : Incoming → Prop) (s : Session) (o : Outcome) : Prop :=
  Worked rs arrived s.assembler s.emitFloor o.session.assembler o.session.emitFloor

theorem Works.andThen {o : Outcome} {f : Session → Outcome} (h : Works rs arrived s o)
    (hf : ∀ s', Works rs arrived s' (f s')) : Works rs arrived s (o.andThen f) := by
  rcases o.andThen_cases f with ⟨_, _, heq⟩ | ⟨_, heq⟩ <;> rw [heq]
  · exact h
  · exact h.trans (hf o.session)

theorem requestGaps_works (s : Session) (now : ℕ) : Works rs arrived s (s.requestGaps now) := by
  obtain ⟨⟨naks, heq⟩, _⟩ := requestGaps_session s now
  rw [Works, heq]
  exact .refl

theorem takeShard_works (s : Session) {frame : Frame} (h : arrived (.shard frame)) (now : ℕ) :
    Works rs arrived s (s.takeShard frame now) := by
  unfold takeShard
  dsimp only
  split
  · exact .floor .refl h
  · next taken assembler hi =>
    have hif (s' : Session) (c : Prop) [Decidable c]
        (hs' : Worked rs arrived s.assembler s.emitFloor s'.assembler s'.emitFloor) :
        Works rs arrived s (if c then s'.requestGaps now else { session := s' }) := by
      split_ifs
      · exact hs'.trans (requestGaps_works s' now)
      · exact hs'
    apply hif
    cases taken with
    | true => exact .shard .refl h hi
    | false =>
      rw [if_neg (by simp)]
      obtain ⟨late, duplicates, heq⟩ := refused_eq _ frame.sliceNo
      rw [heq]
      exact .shard .refl h hi

theorem onArrival_works (s : Session) {arrival : Incoming} (h : arrived arrival) (now : ℕ) :
    Works rs arrived s (s.onArrival now arrival) := by
  unfold onArrival
  split
  · unfold onShard
    split
    · exact .refl
    · exact .refl
    · exact takeShard_works s h now
  · next done =>
    have hrequest : Works rs arrived { s with
        totalBytes := some done.totalBytes, assembler := s.assembler.onDone done.totalBlocks }
        (s.onDone done now) := requestGaps_works _ now
    exact (Worked.done .refl h).trans hrequest
  · split_ifs <;> exact .refl
  · split_ifs <;> exact .refl
  · exact .refl

theorem onArrivals_works (s : Session) {arrivals : List (ℕ × Incoming)}
    (h : ∀ a ∈ arrivals, arrived a.2) : Works rs arrived s (s.onArrivals arrivals) := by
  induction arrivals generalizing s with
  | nil => exact .refl
  | cons a rest ih =>
    exact Works.andThen (onArrival_works s (h a List.mem_cons_self) a.1)
      fun s' => ih s' fun b hb => h b (List.mem_cons_of_mem _ hb)

/-- All that a branch was given has arrived. -/
def Branch.Given (arrived : Incoming → Prop) : Branch → Prop
  | .packets arrivals => ∀ a ∈ arrivals, arrived a.2
  | _ => True

theorem branch_works (s : Session) (now : ℕ) {b : Branch} (h : b.Given arrived) :
    Works rs arrived s (s.branch now b) := by
  cases b with
  | packets arrivals => exact onArrivals_works { s with lastPacket := now } h
  | renakTick => exact requestGaps_works s now
  | _ => exact .refl

theorem handOver_works (s : Session) (sink : Sink) (now : ℕ) :
    Works rs arrived s (s.handOver rs sink now) := by
  unfold handOver
  dsimp only
  split
  · exact .refl
  · next s₁ hr =>
    have h₁ : Worked rs arrived s.assembler s.emitFloor s₁.assembler s₁.emitFloor := by
      rcases refill_cases hr with ⟨_, rfl⟩ | ⟨_, ready, assembler, htake, _, rfl, _⟩
      · exact .refl
      · exact .release .refl htake
    split_ifs <;> exact h₁

theorem conclude_works (s : Session) (now : ℕ) : Works rs arrived s (s.conclude now) := by
  rcases hcheck : s.checkByteTotal with e | _
  · rw [conclude, hcheck]
    exact .refl
  · rw [conclude_of_check hcheck]
    exact .refl

/-- A turn works on the assembler with what it was given, and in no other way. -/
theorem turn_works (rs : ReedSolomon) (s : Session) (now : ℕ) {b : Branch} (sink : Sink)
    (h : b.Given arrived) : Works rs arrived s (s.turn rs now b sink) := by
  refine Works.andThen (Works.andThen (branch_works s now h) fun s' =>
    handOver_works s' sink now) fun s' => ?_
  split_ifs
  · exact .refl
  · exact conclude_works s' now

/-- A floor at or above every slice held stays so, if every shard's floor is above its slice. -/
theorem Worked.heard {a a' : Assembler} {f f' : ℕ} (h : Worked rs arrived a f a' f')
    (hshards : ∀ frame, arrived (.shard frame) → frame.sliceNo ≤ frame.emitFloor)
    (hheld : ∀ k, (a.slices.lookup k).isSome → k ≤ f) :
    ∀ k, (a'.slices.lookup k).isSome → k ≤ f' := by
  induction h with
  | refl => exact hheld
  | @shard a a' f frame _ _ harrived hi ih =>
    intro k hk
    rcases Assembler.insert_eq_ok hi with ⟨_, rfl, _⟩ | ⟨_, _, _, _, rfl⟩
    · exact (ih k hk).trans (Nat.le_max_left ..)
    · simp only [Table.lookup_insert'] at hk
      split_ifs at hk with heq
      · rw [heq]
        exact (hshards frame harrived).trans (Nat.le_max_right ..)
      · exact (ih k hk).trans (Nat.le_max_left ..)
  | floor _ _ ih => exact fun k hk => (ih k hk).trans (Nat.le_max_left ..)
  | done _ _ ih => exact ih
  | release _ ht ih =>
    intro k hk
    rw [(Assembler.takeReady_eq_ok.mp ht).1.frame.2.2.2] at hk
    split_ifs at hk
    · simp at hk
    · exact ih k hk

/-- Only a `Done` tells the total. -/
theorem Worked.total {a a' : Assembler} {f f' : ℕ} (h : Worked rs arrived a f a' f')
    (hdone : ∀ done, ¬ arrived (.control (.done done))) : a'.totalBlocks = a.totalBlocks := by
  induction h with
  | refl => rfl
  | shard _ _ hi ih => exact (insert_frame hi).2.trans ih
  | floor _ _ ih => exact ih
  | done _ harrived _ => exact absurd harrived (hdone _)
  | release _ ht ih => exact (Assembler.takeReady_eq_ok.mp ht).1.frame.2.1.trans ih

end Session
end Scuttlecast
