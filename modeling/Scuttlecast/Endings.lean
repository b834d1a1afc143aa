import Scuttlecast.Receiver.Repair
import Scuttlecast.Slots
import Scuttlecast.Readable

/-! How a receiver can end. Among parties that do what they should, a session never sees a shard
that does not fit, never finds a slice that does not recover and never breaks a promise of its own
code: it succeeds, is evicted, hears no more of its sender, loses its sink, finds the count of bytes
wrong, has a request too long to be sent, or runs out of numbers. -/
namespace Scuttlecast

/-- An end that the other parties being honest does not exclude. -/
def SessionEnd.Foreseen : SessionEnd → Prop
  | .returned (.ok _) => True
  | .returned (.error error) =>
    match error with
    | .evicted _ | .senderSilent .. | .sinkClosed | .byteCountMismatch .. => True
    | .protocol error => error = .encode
    | _ => False
  | .panicked panic => ∃ width, panic = .overflow width

namespace Session

variable {rs : ReedSolomon} {L : Ledger} {r : Reader} {s : Session} {o : Outcome}

/-- If the outcome is an end, it is a foreseen one. -/
def EndsWell (o : Outcome) : Prop := ∀ e ∈ o.ended, e.Foreseen

theorem endsWell_running (h : o.ended = none) : EndsWell o := by simp [EndsWell, h]

theorem EndsWell.andThen {f : Session → Outcome} (h : EndsWell o) (hf : EndsWell (f o.session)) :
    EndsWell (o.andThen f) := by
  rcases o.andThen_cases f with ⟨_, _, heq⟩ | ⟨_, heq⟩ <;> rw [heq]
  · exact h
  · exact hf

theorem sendNaks_endsWell (s : Session) (gaps : List (ℕ × List ℕ)) : EndsWell (s.sendNaks gaps) := by
  induction gaps generalizing s with
  | nil => exact endsWell_running rfl
  | cons gap gaps ih =>
    rw [sendNaks]
    split
    · next error herror =>
      unfold Message.encodeInto at herror
      split_ifs at herror
      rintro _ ⟨⟩
      exact (Except.error.inj herror).symm
    · exact (endsWell_running rfl).andThen (ih _)

theorem requestGaps_endsWell (s : Session) (now : ℕ) : EndsWell (s.requestGaps now) :=
  sendNaks_endsWell _ _

theorem takeShard_endsWell (s : Session) (frame : Frame) (now : ℕ) :
    EndsWell (s.takeShard frame now) := by
  unfold takeShard
  dsimp only
  split
  · next p hp =>
    rintro _ ⟨⟩
    rcases (Assembler.insert_eq_error hp).2 with ⟨rfl, -⟩ | ⟨rfl, -⟩
    · exact ⟨32, rfl⟩
    · exact ⟨16, rfl⟩
  · split_ifs
    · exact requestGaps_endsWell _ now
    · exact requestGaps_endsWell _ now
    · exact endsWell_running rfl
    · exact endsWell_running rfl

/-- A shard of the transfer passes its check, unless its slots cannot be counted. -/
theorem Tracks.onShard_endsWell (h : s.Tracks rs L r) {frame : Frame}
    (ha : Arrives rs L r (.shard frame)) (now : ℕ) : EndsWell (s.onShard frame now) := by
  obtain ⟨hshard, hwidth, -⟩ := ha
  unfold onShard
  rcases Nat.lt_or_ge (s.assembler.geometry.blocksPerSlice + s.assembler.geometry.parityPerSlice)
    (2 ^ 16) with hslots | hslots
  · have hcheck : s.checkShard frame = .ok (.ok ()) := by
      apply checkShard_of_checked hslots
      · exact h.geometry.trans h.assembler.geometry.symm
      · rw [h.geometry]
        exact .of_shard hshard hwidth
    rw [hcheck]
    exact takeShard_endsWell s frame now
  · have hcheck : s.checkShard frame = .error (.overflow 16) :=
      bind_error_iff.mpr (.inl (addChecked_eq_error.mpr ⟨hslots, rfl⟩))
    rw [hcheck]
    rintro _ ⟨⟩
    exact ⟨16, rfl⟩

theorem Tracks.onArrival_endsWell (h : s.Tracks rs L r) {arrival : Incoming}
    (ha : Arrives rs L r arrival) (now : ℕ) : EndsWell (s.onArrival now arrival) := by
  unfold Session.onArrival
  split
  · exact h.onShard_endsWell ha now
  · exact requestGaps_endsWell _ now
  · split_ifs <;> exact endsWell_running rfl
  · split_ifs
    · rintro _ ⟨⟩
      trivial
    · exact endsWell_running rfl
  · exact endsWell_running rfl

theorem Tracks.onArrivals_endsWell (h : s.Tracks rs L r) {arrivals : List (ℕ × Incoming)}
    (ha : ∀ a ∈ arrivals, Arrives rs L r a.2) : EndsWell (s.onArrivals arrivals) := by
  induction arrivals generalizing s with
  | nil => exact endsWell_running rfl
  | cons a rest ih =>
    have hfirst := ha a List.mem_cons_self
    exact (h.onArrival_endsWell hfirst a.1).andThen
      (ih (h.onArrival hfirst a.1).tracks fun b hb => ha b (List.mem_cons_of_mem _ hb))

theorem Tracks.branch_endsWell (h : s.Tracks rs L r) {b : Branch} (hb : BranchHonest rs L r b)
    (now : ℕ) : EndsWell (s.branch now b) := by
  cases b with
  | packets arrivals =>
    exact Tracks.onArrivals_endsWell (s := { s with lastPacket := now })
      ⟨h.geometry, h.assembler, h.totals, h.floor⟩ hb
  | sinkReady => exact endsWell_running rfl
  | statsTick => exact endsWell_running rfl
  | renakTick => exact requestGaps_endsWell s now
  | silence =>
    rintro _ ⟨⟩
    trivial

/-- Whatever slice is finished recovers. -/
theorem Tracks.handOver_endsWell (h : s.Tracks rs L r) (sink : Sink) (now : ℕ) :
    EndsWell (s.handOver rs sink now) := by
  unfold handOver
  dsimp only
  split
  · next p hp =>
    unfold refill at hp
    split_ifs at hp
    rcases bind_error_iff.mp hp with hp | ⟨_, _, hp⟩
    · obtain ⟨rfl, -⟩ := h.assembler.takeReady_error hp
      rintro _ ⟨⟩
      exact ⟨32, rfl⟩
    · cases hp
  · split_ifs
    · rintro _ ⟨⟩
      trivial
    · exact endsWell_running rfl

theorem conclude_endsWell (s : Session) (now : ℕ) : EndsWell (s.conclude now) := by
  unfold conclude
  split
  · next error herror =>
    unfold checkByteTotal at herror
    split at herror
    · split_ifs at herror
      cases herror
      rintro _ ⟨⟩
      trivial
    · cases herror
  · rintro _ ⟨⟩
    trivial

theorem Tracks.turn_endsWell (h : s.Tracks rs L r) {b : Branch} (hb : BranchHonest rs L r b)
    (now : ℕ) (sink : Sink) : EndsWell (s.turn rs now b sink) := by
  have hbranch := h.branch now hb
  have hover := hbranch.tracks.handOver_endsWell sink now
  refine ((h.branch_endsWell hb now).andThen hover).andThen ?_
  split_ifs
  · exact endsWell_running rfl
  · exact conclude_endsWell _ now

end Session

/-- A receiver whose ids and shape are those of its session, and whose end, if any, is foreseen. -/
structure Peer.EndsWell (config : Config) (r : ℕ) (p : Peer) : Prop where
  foreseen : ∀ e ∈ p.ended, e.Foreseen
  shaped : r < 2 ^ 64 → config.geometry.blocksPerSlice ≤ 840 →
    Session.Shaped config.hello r p.session ∧ p.ended ≠ some Session.unsendable

namespace World

variable {rs : ReedSolomon} {config : Config} {reader : Reader} {L : Ledger} {w : World}

/-- The floors that arrive are slice numbers. -/
theorem Sound.branch_typed (h : w.Sound rs config reader L) {r : ℕ} {b : Session.Branch}
    (hdelivers : w.Delivers r b) : b.Typed := by
  cases b with
  | packets arrivals =>
    rintro ⟨now, incoming⟩ harrival
    have hair := h.air r incoming (hdelivers _ harrival)
    cases incoming with
    | shard frame =>
      obtain ⟨-, -, -, hfloor, -⟩ : Outbound.Typed config.geometry (.shard frame.sliceNo frame.slot
        frame.sliceParity frame.emitFloor frame.payload) := h.typed hair
      exact hfloor
    | control message => trivial
  | _ => trivial

theorem endsWell_of_reachable (htransfer : config.transferId < 2 ^ 64)
    (h : Labelled.Reachable (system rs config reader) w) (r : ℕ) :
    Peer.EndsWell config r (w.peers r) := by
  refine Labelled.Reach.invariant_on (J := fun w => ∃ L, w.Sound rs config reader L)
    (I := fun w => ∀ r, Peer.EndsWell config r (w.peers r)) (fun _ => sound_of_reachable) ?_ ?_ h r
  · rintro w ⟨gathered, now, hstart⟩ r
    obtain ⟨_, slicer, assembler, -, hassembler, rfl⟩ := start_eq_ok hstart
    refine ⟨by simp, fun _ _ => ⟨⟨rfl, rfl, (Assembler.new_wf hassembler).2.1, ?_⟩, by simp⟩⟩
    exact Nat.two_pow_pos 32
  · rintro a w w' - ⟨L, hs⟩ - hends hnext
    cases step_of_next hnext with
    | turn r now branch sink hrun henabled hdelivers =>
      refine forall_peers_afterTurn (P := Peer.EndsWell config) ?_ fun r' _ => hends r'
      have hwell := (hs.peers r).tracks.turn_endsWell (hs.branchHonest hdelivers) now sink
      refine ⟨hwell, fun hr hblocks => ?_⟩
      have hasked : Session.Asked config.hello r
          ((w.peers r).session.turn rs now branch sink) :=
        ((hends r).shaped hr hblocks).1.turn htransfer hr hblocks (hs.branch_typed hdelivers) now sink
      exact ⟨hasked.session, hasked.ended⟩
    | _ => exact hends

end World
end Scuttlecast
