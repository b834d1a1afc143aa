import Scuttlecast.Receiver.Session
import Scuttlecast.Receiver.Release

/-! What every turn of a session does, whoever it listens to: it keeps its identity, never asks
for an earlier slice again, and says of itself only what is so. -/
namespace Scuttlecast

namespace Outcome

variable {o : Outcome} {f : Session → Outcome}

theorem andThen_of_ended {e : SessionEnd} (h : o.ended = some e) : o.andThen f = o := by
  simp [andThen, h]

theorem andThen_of_running (h : o.ended = none) : o.andThen f =
    { f o.session with sent := o.sent ++ (f o.session).sent
                       handed := o.handed ++ (f o.session).handed } := by
  simp [andThen, h]

/-- The parts of a turn one after the other, as one case distinction. -/
theorem andThen_cases (o : Outcome) (f : Session → Outcome) :
    (∃ e, o.ended = some e ∧ o.andThen f = o) ∨ o.ended = none ∧ o.andThen f =
      { f o.session with sent := o.sent ++ (f o.session).sent
                         handed := o.handed ++ (f o.session).handed } := by
  rcases hended : o.ended with _ | e
  · exact .inr ⟨rfl, andThen_of_running hended⟩
  · exact .inl ⟨e, rfl, andThen_of_ended hended⟩

end Outcome

namespace Session

variable {rs : ReedSolomon} {s s' : Session} {o : Outcome} {m : Message}

/-- The message is this session's, of its transfer, and claims no more than it has. -/
def Says (s : Session) : Message → Prop
  | .join transferId receiverId => transferId = s.transferId ∧ receiverId = s.receiverId
  | .stats stats => stats.transferId = s.transferId ∧ stats.receiverId = s.receiverId ∧
    stats.nextNeededSlice ≤ s.assembler.nextNeeded
  | .nak nak => nak.transferId = s.transferId ∧ nak.receiverId = s.receiverId
  | _ => False

/-- The same session, at or past the slice it was at. -/
structure Follows (s s' : Session) : Prop where
  transferId : s'.transferId = s.transferId
  receiverId : s'.receiverId = s.receiverId
  next : s.assembler.nextNeeded ≤ s'.assembler.nextNeeded

theorem Follows.refl (s : Session) : Follows s s := ⟨rfl, rfl, le_rfl⟩

theorem Follows.trans {s'' : Session} (h : Follows s s') (h' : Follows s' s'') :
    Follows s s'' :=
  ⟨h'.transferId.trans h.transferId, h'.receiverId.trans h.receiverId, h.next.trans h'.next⟩

theorem Says.follows (h : s.Says m) (hs : Follows s s') : s'.Says m := by
  cases m with
  | stats stats =>
    exact ⟨h.1.trans hs.transferId.symm, h.2.1.trans hs.receiverId.symm, h.2.2.trans hs.next⟩
  | join transferId id => exact ⟨h.1.trans hs.transferId.symm, h.2.trans hs.receiverId.symm⟩
  | nak nak => exact ⟨h.1.trans hs.transferId.symm, h.2.trans hs.receiverId.symm⟩
  | _ => exact h

/-- Neither a success nor a complaint about the count of bytes. -/
def Inconclusive : Option SessionEnd → Prop
  | some (.returned (.ok _)) => False
  | some (.returned (.error (.byteCountMismatch _ _))) => False
  | _ => True

/-- A part of a turn that does not conclude the session. -/
structure Moves (s : Session) (o : Outcome) : Prop where
  follows : Follows s o.session
  sent : ∀ m ∈ o.sent, o.session.Says m
  inconclusive : Inconclusive o.ended

theorem Moves.not_ok (h : Moves s o) (summary : TransferSummary) :
    o.ended ≠ some (.returned (.ok summary)) := by
  intro hended
  have hi := h.inconclusive
  rw [hended] at hi
  exact hi

theorem Moves.silent (h : Follows s s') : Moves s { session := s' } :=
  ⟨h, by simp, trivial⟩

theorem Moves.andThen {f : Session → Outcome} (h : Moves s o)
    (hf : ∀ s', Follows s s' → Moves s' (f s')) : Moves s (o.andThen f) := by
  rcases o.andThen_cases f with ⟨_, _, heq⟩ | ⟨_, heq⟩ <;> rw [heq]
  · exact h
  · have hnext := hf _ h.follows
    refine ⟨h.follows.trans hnext.follows, fun m hm => ?_, hnext.inconclusive⟩
    rcases List.mem_append.mp hm with hm | hm
    · exact (h.sent m hm).follows hnext.follows
    · exact hnext.sent m hm

theorem sendNaks_moves (s : Session) (gaps : List (ℕ × List ℕ)) : Moves s (s.sendNaks gaps) := by
  induction gaps with
  | nil => exact .silent (.refl s)
  | cons gap rest ih =>
    unfold sendNaks
    dsimp only
    split
    · exact ⟨.refl s, by simp [Outcome.fail], trivial⟩
    · rw [Outcome.andThen_of_running rfl]
      refine ⟨ih.follows, fun m hm => ?_, ih.inconclusive⟩
      rcases List.mem_append.mp hm with hm | hm
      · rw [List.mem_singleton.mp hm]
        exact ⟨ih.follows.transferId.symm, ih.follows.receiverId.symm⟩
      · exact ih.sent m hm

theorem requestGaps_moves (s : Session) (now : ℕ) : Moves s (s.requestGaps now) := by
  have h := sendNaks_moves { s with naks := (s.naks.due (s.assembler.gaps s.emitFloor) now).2 }
    (s.naks.due (s.assembler.gaps s.emitFloor) now).1
  exact ⟨⟨h.follows.transferId, h.follows.receiverId, h.follows.next⟩, h.sent, h.inconclusive⟩

theorem sendNaks_session (s : Session) (gaps : List (ℕ × List ℕ)) :
    (s.sendNaks gaps).session = s ∧ (s.sendNaks gaps).handed = [] := by
  induction gaps with
  | nil => exact ⟨rfl, rfl⟩
  | cons gap rest ih =>
    unfold sendNaks
    dsimp only
    split
    · exact ⟨rfl, rfl⟩
    · rw [Outcome.andThen_of_running rfl]
      exact ih

theorem requestGaps_session (s : Session) (now : ℕ) :
    (∃ naks, (s.requestGaps now).session = { s with naks := naks }) ∧
      (s.requestGaps now).handed = [] :=
  ⟨⟨_, (sendNaks_session _ _).1⟩, (sendNaks_session _ _).2⟩

theorem refused_eq (s : Session) (k : ℕ) :
    ∃ late duplicates, s.refused k = { s with late := late, duplicates := duplicates } := by
  unfold refused
  split_ifs
  · exact ⟨s.late + 1, s.duplicates, rfl⟩
  · exact ⟨s.late, s.duplicates + 1, rfl⟩

theorem requestGaps_if_moves (h : Follows s s') (now : ℕ) (c : Prop) [Decidable c] :
    Moves s (if c then s'.requestGaps now else { session := s' }) := by
  split_ifs
  · have hreq := requestGaps_moves s' now
    exact ⟨h.trans hreq.follows, hreq.sent, hreq.inconclusive⟩
  · exact .silent h

/-- What `insert` leaves of the assembler besides the slices. -/
theorem insert_frame {a a' : Assembler} {k slot w : ℕ} {payload : Bytes} {taken : Bool}
    (h : a.insert k slot w payload = .ok (taken, a')) :
    a'.nextNeeded = a.nextNeeded ∧ a'.totalBlocks = a.totalBlocks := by
  rcases Assembler.insert_eq_ok h with ⟨_, rfl, _⟩ | ⟨_, _, _, _, rfl⟩ <;> exact ⟨rfl, rfl⟩

theorem takeShard_moves (s : Session) (frame : Frame) (now : ℕ) :
    Moves s (s.takeShard frame now) := by
  unfold takeShard
  dsimp only
  split
  · exact ⟨⟨rfl, rfl, le_rfl⟩, by simp [Outcome.panic], trivial⟩
  · next taken assembler hi =>
    apply requestGaps_if_moves
    have hnext := (insert_frame hi).1
    cases taken with
    | true => exact ⟨rfl, rfl, hnext.ge⟩
    | false =>
      rw [if_neg (by simp)]
      obtain ⟨late, duplicates, heq⟩ := refused_eq _ frame.sliceNo
      rw [heq]
      exact ⟨rfl, rfl, hnext.ge⟩

theorem onArrival_moves (s : Session) (now : ℕ) (arrival : Incoming) :
    Moves s (s.onArrival now arrival) := by
  unfold onArrival
  split
  · unfold onShard
    split
    · exact ⟨.refl s, by simp [Outcome.panic], trivial⟩
    · exact ⟨.refl s, by simp [Outcome.fail], trivial⟩
    · exact takeShard_moves s _ now
  · next done =>
    have h := requestGaps_moves { s with
      totalBytes := some done.totalBytes, assembler := s.assembler.onDone done.totalBlocks } now
    exact ⟨⟨h.follows.transferId, h.follows.receiverId, h.follows.next⟩, h.sent, h.inconclusive⟩
  · split_ifs
    · exact ⟨.refl s, by simp [Says], trivial⟩
    · exact .silent (.refl s)
  · split_ifs
    · exact ⟨.refl s, by simp [Outcome.fail], trivial⟩
    · exact .silent (.refl s)
  · exact .silent (.refl s)

theorem onArrivals_moves (s : Session) (arrivals : List (ℕ × Incoming)) :
    Moves s (s.onArrivals arrivals) := by
  induction arrivals generalizing s with
  | nil => exact .silent (.refl s)
  | cons a rest ih => exact (onArrival_moves s a.1 a.2).andThen fun s' _ => ih s'

theorem sendStats_moves (s : Session) : Moves s s.sendStats := by
  refine ⟨⟨rfl, rfl, le_rfl⟩, ?_, trivial⟩
  simp [sendStats, Says]

theorem branch_moves (s : Session) (now : ℕ) (b : Branch) : Moves s (s.branch now b) := by
  cases b with
  | packets arrivals =>
    have h := onArrivals_moves { s with lastPacket := now } arrivals
    exact ⟨⟨h.follows.transferId, h.follows.receiverId, h.follows.next⟩, h.sent, h.inconclusive⟩
  | sinkReady => exact .silent (.refl s)
  | statsTick => exact sendStats_moves s
  | renakTick => exact requestGaps_moves s now
  | silence => exact ⟨.refl s, by simp [branch, Outcome.fail], trivial⟩

/-- Cutting to the total keeps the bytes up to it. -/
theorem queueReady_eq (s : Session) (blocks : List Bytes) :
    ∃ queued : List Bytes, s.queueReady blocks =
        { s with pending := s.pending ++ queued
                 writtenBytes := s.writtenBytes + queued.flatten.length } ∧
      (∀ block ∈ queued, block ≠ []) ∧ queued.length ≤ blocks.length ∧
      queued.flatten = match s.totalBytes with
        | some total => blocks.flatten.take (total - s.writtenBytes)
        | none => blocks.flatten := by
  induction blocks generalizing s with
  | nil => exact ⟨[], by simp [queueReady], by simp, le_rfl, by cases s.totalBytes <;> simp⟩
  | cons block rest ih =>
    let cut := (s.withinTotal block).1
    have hstep : s.queueReady (block :: rest) =
        { s with pending := s.pending ++ (if cut = [] then [] else [cut])
                 writtenBytes := s.writtenBytes + cut.length }.queueReady rest := by
      rw [queueReady]
      change (if cut = [] then _ else _ : Session).queueReady rest = _
      split_ifs
      · rw [List.append_nil]
        rfl
      · rfl
    obtain ⟨queued, heq, hne, hcount, hflat⟩ := ih { s with
      pending := s.pending ++ (if cut = [] then [] else [cut])
      writtenBytes := s.writtenBytes + cut.length }
    have hcut : ((if cut = [] then [] else [cut]) : List Bytes).flatten = cut := by
      split_ifs with h
      · rw [h]
        rfl
      · simp
    refine ⟨(if cut = [] then [] else [cut]) ++ queued, ?_, ?_, ?_, ?_⟩
    · rw [hstep, heq, List.flatten_append, hcut]
      simp [List.append_assoc, Nat.add_assoc]
    · intro b hb
      rcases List.mem_append.mp hb with hb | hb
      · split_ifs at hb with h
        · simp at hb
        · rwa [List.mem_singleton.mp hb]
      · exact hne b hb
    · rw [List.length_append, List.length_cons]
      split_ifs <;> simp only [List.length_nil, List.length_singleton] <;> omega
    · rw [List.flatten_append, hcut, hflat]
      rcases htotal : s.totalBytes with _ | total
      · simp [cut, withinTotal, htotal]
      · have hlen : cut = block.take (total - s.writtenBytes) := by
          simp [cut, withinTotal, htotal]
        simp only [List.flatten_cons, List.take_append, hlen, List.length_take]
        congr 2
        omega

/-- A refill takes what is released into an empty queue, and leaves any other alone. -/
theorem refill_cases (hr : s.refill rs = .ok s') : s.pending ≠ [] ∧ s' = s ∨
    s.pending = [] ∧ ∃ ready assembler, s.assembler.takeReady rs = .ok (ready, assembler) ∧
      ∃ queued : List Bytes, s' = { s with
          assembler := assembler, pending := s.pending ++ queued
          writtenBytes := s.writtenBytes + queued.flatten.length } ∧
        (∀ block ∈ queued, block ≠ []) ∧ queued.length ≤ ready.length ∧
        queued.flatten = match s.totalBytes with
          | some total => ready.flatten.take (total - s.writtenBytes)
          | none => ready.flatten := by
  unfold refill at hr
  split_ifs at hr with hpending
  · obtain ⟨⟨ready, assembler⟩, htake, hr⟩ := bind_ok_iff.mp hr
    obtain ⟨queued, heq, hrest⟩ := queueReady_eq { s with assembler := assembler } ready
    refine .inr ⟨hpending, ready, assembler, htake, queued, ?_, hrest⟩
    rw [← Except.ok.inj hr]
    exact heq
  · exact .inl ⟨hpending, (Except.ok.inj hr).symm⟩

theorem refill_follows (hr : s.refill rs = .ok s') : Follows s s' := by
  rcases refill_cases hr with ⟨_, rfl⟩ | ⟨_, ready, assembler, htake, queued, rfl, _⟩
  · exact .refl s'
  · exact ⟨rfl, rfl, (Assembler.takeReady_eq_ok.mp htake).1.frame.1⟩

theorem handOver_moves (s : Session) (sink : Sink) (now : ℕ) :
    Moves s (s.handOver rs sink now) := by
  unfold handOver
  dsimp only
  split
  · exact ⟨⟨rfl, rfl, le_rfl⟩, by simp [Outcome.panic], trivial⟩
  · next s₁ hr =>
    have h := refill_follows hr
    split_ifs
    · exact ⟨⟨h.transferId, h.receiverId, h.next⟩, by simp, trivial⟩
    · exact ⟨⟨h.transferId, h.receiverId, h.next⟩, by simp, trivial⟩

/-- The part of a turn before the guard of the loop is looked at again. -/
def beforeGuard (rs : ReedSolomon) (s : Session) (now : ℕ) (b : Branch) (sink : Sink) : Outcome :=
  (s.branch now b).andThen fun s => s.handOver rs sink now

theorem beforeGuard_moves (rs : ReedSolomon) (s : Session) (now : ℕ) (b : Branch) (sink : Sink) :
    Moves s (s.beforeGuard rs now b sink) :=
  (branch_moves s now b).andThen fun s' _ => handOver_moves s' sink now

/-- A turn moves on, finds the count of bytes wrong, or ends in success with a last report and
a `Leave`. -/
theorem turn_cases (rs : ReedSolomon) (s : Session) (now : ℕ) (b : Branch) (sink : Sink) :
    let o := s.beforeGuard rs now b sink
    Moves s (s.turn rs now b sink) ∧
        (s.turn rs now b sink = o ∨ o.ended = none ∧ o.session.Running) ∨
      o.ended = none ∧ ¬ o.session.Running ∧
        s.turn rs now b sink = o.andThen fun s => s.conclude now := by
  intro o
  have h : Moves s o := beforeGuard_moves rs s now b sink
  have hturn : s.turn rs now b sink = o.andThen fun s =>
      if s.Running then { session := s } else s.conclude now := rfl
  rw [hturn]
  rcases hended : o.ended with _ | e
  swap
  · rw [Outcome.andThen_of_ended hended]
    exact .inl ⟨h, .inl rfl⟩
  by_cases hrun : o.session.Running
  · rw [Outcome.andThen_of_running hended, if_pos hrun]
    exact .inl ⟨⟨h.follows, by simpa using h.sent, trivial⟩, .inr ⟨rfl, hrun⟩⟩
  · refine .inr ⟨rfl, hrun, ?_⟩
    rw [Outcome.andThen_of_running hended, Outcome.andThen_of_running hended, if_neg hrun]

/-- A session that concludes well says so with a last report and a `Leave`. -/
theorem conclude_of_check (hcheck : s.checkByteTotal = .ok ()) (now : ℕ) : s.conclude now =
    { session := { s with sinkStall := 0 }
      sent := s.sendStats.sent ++ [.leave s.transferId s.receiverId]
      ended := some (.returned (.ok (summary { s with sinkStall := 0 } now))) } := by
  rw [conclude, hcheck]
  rfl

theorem conclude_follows (s : Session) (now : ℕ) : Follows s (s.conclude now).session := by
  rcases hcheck : s.checkByteTotal with e | _
  · rw [conclude, hcheck]
    exact .refl s
  · rw [conclude_of_check hcheck]
    exact ⟨rfl, rfl, le_rfl⟩

theorem turn_follows (rs : ReedSolomon) (s : Session) (now : ℕ) (b : Branch) (sink : Sink) :
    Follows s (s.turn rs now b sink).session := by
  rcases turn_cases rs s now b sink with ⟨h, _⟩ | ⟨hended, _, heq⟩
  · exact h.follows
  · rw [heq, Outcome.andThen_of_running hended]
    exact (beforeGuard_moves rs s now b sink).follows.trans (conclude_follows _ now)

/-- What a turn sends: what is so, and a `Leave` only from a session that ended well. -/
theorem turn_sent (rs : ReedSolomon) (s : Session) (now : ℕ) (b : Branch) (sink : Sink) :
    ∀ m ∈ (s.turn rs now b sink).sent, (s.turn rs now b sink).session.Says m ∨
      m = .leave s.transferId s.receiverId ∧
        ∃ summary, (s.turn rs now b sink).ended = some (.returned (.ok summary)) := by
  intro m hm
  rcases turn_cases rs s now b sink with ⟨h, _⟩ | ⟨hended, _, heq⟩
  · exact .inl (h.sent m hm)
  have h := beforeGuard_moves rs s now b sink
  rw [heq, Outcome.andThen_of_running hended] at hm ⊢
  rcases hcheck : (s.beforeGuard rs now b sink).session.checkByteTotal with e | _
  · rw [conclude, hcheck] at hm ⊢
    simp only [Outcome.fail, List.append_nil] at hm
    exact .inl (h.sent m hm)
  · rw [conclude_of_check hcheck] at hm ⊢
    simp only [List.mem_append, List.mem_singleton] at hm
    rcases hm with hm | hm | hm
    · exact .inl ((h.sent m hm).follows ⟨rfl, rfl, le_rfl⟩)
    · rw [List.mem_singleton.mp hm]
      exact .inl ⟨rfl, rfl, le_rfl⟩
    · exact .inr ⟨by rw [hm, h.follows.transferId, h.follows.receiverId], _, rfl⟩

/-- A turn that ends in success ends with the loop's guard false. -/
theorem not_running_of_turn_ok (rs : ReedSolomon) (s : Session) (now : ℕ) (b : Branch) (sink : Sink)
    {summary : TransferSummary}
    (hok : (s.turn rs now b sink).ended = some (.returned (.ok summary))) :
    ¬ (s.turn rs now b sink).session.Running := by
  rcases turn_cases rs s now b sink with ⟨h, _⟩ | ⟨hended, hstop, heq⟩
  · exact absurd hok (h.not_ok summary)
  · rw [heq, Outcome.andThen_of_running hended] at hok ⊢
    rcases hcheck : (s.beforeGuard rs now b sink).session.checkByteTotal with e | _
    · rw [conclude, hcheck] at hok
      simp [Outcome.fail] at hok
    · rw [conclude_of_check hcheck]
      exact hstop

end Session
end Scuttlecast
