import Scuttlecast.Receiver.Release
import Scuttlecast.Receiver.Session

/-! A session before the first shard. A `Hello` is answered and a tick reports that there is nothing;
the clock is read, and nothing else changes. -/
namespace Scuttlecast
namespace Session

variable {hello : Hello} {assembler : Assembler}
  {r started handover packet now : ℕ}

/-- A new session, at any reading of its clocks. -/
def idle (hello : Hello) (assembler : Assembler) (r started handover packet : ℕ) : Session :=
  { fresh hello assembler r started with lastHandover := handover, lastPacket := packet }

/-- What a session reports that has not taken in anything. -/
def nothing (transferId receiverId : ℕ) : Message := .stats
  { transferId := transferId
    receiverId := receiverId
    totalReceived := 0
    totalExpected := 0
    nextNeededSlice := 0
    sinkStallMs := 0 }

/-- The sender has been silent from the start. -/
def unheard : SessionEnd := .returned (.error (.senderSilent 0 none))

theorem handOver_idle (rs : ReedSolomon) (h : Assembler.new hello.geometry = .ok assembler) (sink : Sink) :
    (idle hello assembler r started handover packet).handOver rs sink now =
      { session := idle hello assembler r started now packet } := by
  obtain ⟨-, -, hslices, hnext, -, -⟩ := Assembler.new_wf h
  have hready : assembler.takeReady rs = .ok ([], assembler) := by
    rw [Assembler.takeReady, hslices]
    rfl
  have hforget : Naks.empty.forgetBelow assembler.nextNeeded = Naks.empty := rfl
  simp [handOver, idle, fresh, refill, hready, ok_bind, queueReady, hforget]

theorem requestGaps_idle (h : Assembler.new hello.geometry = .ok assembler) :
    (idle hello assembler r started handover packet).requestGaps now =
      { session := idle hello assembler r started handover packet } := by
  obtain ⟨-, -, -, hnext, htotal, -⟩ := Assembler.new_wf h
  have hgaps : assembler.gaps 0 = [] := by simp [Assembler.gaps, Assembler.totalSlices, hnext, htotal]
  simp [requestGaps, idle, fresh, hgaps, Naks.due, Naks.empty, sendNaks]

theorem onArrivals_idle {arrivals : List (ℕ × Incoming)}
    (hhello : ∀ arrival ∈ arrivals, ∃ m, arrival.2 = .control (.hello m)) :
    (idle hello assembler r started handover packet).onArrivals arrivals =
      { session := idle hello assembler r started handover packet
        sent := arrivals.map fun _ => .join hello.transferId r } := by
  induction arrivals with
  | nil => rfl
  | cons arrival rest ih =>
    obtain ⟨now, i⟩ := arrival
    obtain ⟨⟨m, rfl⟩, hrest⟩ := List.forall_mem_cons.mp hhello
    have hjoin : (idle hello assembler r started handover packet).onArrival now
        (.control (.hello m)) = { session := idle hello assembler r started handover packet
                                  sent := [.join hello.transferId r] } := rfl
    rw [onArrivals, hjoin]
    simp [Outcome.andThen, ih hrest]

theorem unfinished_of_new (h : Assembler.new hello.geometry = .ok assembler) :
    ¬ assembler.isFinished := by
  obtain ⟨-, -, -, -, htotal, -⟩ := Assembler.new_wf h
  simp [Assembler.isFinished, Assembler.totalSlices, htotal]

/-- A turn that has a branch which leaves the session be. -/
theorem turn_of_branch (rs : ReedSolomon) (h : Assembler.new hello.geometry = .ok assembler) {b : Branch}
    {sent : List Message} {packet' : ℕ}
    (hb : (idle hello assembler r started handover packet).branch now b =
      { session := idle hello assembler r started handover packet', sent := sent }) (sink : Sink) :
    (idle hello assembler r started handover packet).turn rs now b sink =
      { session := idle hello assembler r started now packet', sent := sent } := by
  have hrunning : (idle hello assembler r started now packet').Running := .inl (unfinished_of_new h)
  rw [turn, hb]
  simp [Outcome.andThen, handOver_idle rs h, if_pos hrunning]

theorem turn_packets (rs : ReedSolomon) (h : Assembler.new hello.geometry = .ok assembler)
    {arrivals : List (ℕ × Incoming)}
    (hhello : ∀ arrival ∈ arrivals, ∃ m, arrival.2 = .control (.hello m)) (sink : Sink) :
    (idle hello assembler r started handover packet).turn rs now (.packets arrivals) sink =
      { session := idle hello assembler r started now now
        sent := arrivals.map fun _ => .join hello.transferId r } := by
  have hb : (idle hello assembler r started handover packet).branch now (.packets arrivals) =
      { session := idle hello assembler r started handover now
        sent := arrivals.map fun _ => .join hello.transferId r } := onArrivals_idle hhello
  exact turn_of_branch rs h hb sink

theorem turn_statsTick (rs : ReedSolomon) (h : Assembler.new hello.geometry = .ok assembler) (sink : Sink) :
    (idle hello assembler r started handover packet).turn rs now .statsTick sink =
      { session := idle hello assembler r started now packet
        sent := [nothing hello.transferId r] } := by
  obtain ⟨-, -, -, hnext, -, -⟩ := Assembler.new_wf h
  refine turn_of_branch rs h ?_ sink
  simp [branch, sendStats, idle, fresh, nothing, hnext]

theorem turn_renakTick (rs : ReedSolomon) (h : Assembler.new hello.geometry = .ok assembler) (sink : Sink) :
    (idle hello assembler r started handover packet).turn rs now .renakTick sink =
      { session := idle hello assembler r started now packet } := by
  have hb : (idle hello assembler r started handover packet).branch now .renakTick =
      { session := idle hello assembler r started handover packet } := requestGaps_idle h
  exact turn_of_branch rs h hb sink

theorem turn_silence (rs : ReedSolomon) (h : Assembler.new hello.geometry = .ok assembler) (sink : Sink) :
    (idle hello assembler r started handover packet).turn rs now .silence sink =
      { session := idle hello assembler r started handover packet, ended := some unheard } := by
  obtain ⟨-, -, -, hnext, htotal, -⟩ := Assembler.new_wf h
  simp [turn, branch, wentSilent, idle, fresh, Outcome.fail, Outcome.andThen, hnext,
    Assembler.totalSlices, htotal, unheard]

/-- Whatever a session is woken for before the first shard. -/
theorem turn_idle (rs : ReedSolomon) (h : Assembler.new hello.geometry = .ok assembler) {b : Branch}
    (henabled : (idle hello assembler r started handover packet).Enabled now b)
    (hhello : ∀ arrivals, b = .packets arrivals →
      ∀ arrival ∈ arrivals, ∃ m, arrival.2 = .control (.hello m)) (sink : Sink) :
    ∃ handover' packet' sent ended,
      (idle hello assembler r started handover packet).turn rs now b sink =
        { session := idle hello assembler r started handover' packet', sent := sent, ended := ended } ∧
      (∀ m ∈ sent, m = .join hello.transferId r ∨ m = nothing hello.transferId r) ∧
      (ended = none ∨ ended = some unheard) := by
  cases b with
  | packets arrivals =>
    refine ⟨_, _, _, _, turn_packets rs h (hhello arrivals rfl) sink, fun m hm => ?_, .inl rfl⟩
    obtain ⟨-, -, rfl⟩ := List.mem_map.mp hm
    exact .inl rfl
  | sinkReady => exact absurd rfl henabled
  | statsTick =>
    refine ⟨_, _, _, _, turn_statsTick rs h sink, fun m hm => ?_, .inl rfl⟩
    exact .inr (List.mem_singleton.mp hm)
  | renakTick => exact ⟨_, _, _, _, turn_renakTick rs h sink, by simp, .inl rfl⟩
  | silence => exact ⟨_, _, _, _, turn_silence rs h sink, by simp, .inr rfl⟩

end Session
end Scuttlecast
