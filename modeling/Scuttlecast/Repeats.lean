import Scuttlecast.Requests
import Scuttlecast.Receiver.Hostile
import Scuttlecast.Library.Cooldown

/-! Repair requests and the time between them. A receiver forgets when it asked for a slice once the
slice is written out, and a slice written out is never a gap again. -/
namespace Scuttlecast

open Cooldown

namespace Naks

variable {n : Naks} {gaps : List (ℕ × List ℕ)} {k now : ℕ}

theorem isDue_iff : n.isDue k now ↔ Rested renakInterval n.sent.lookup now k := by
  have hpos : 0 < renakInterval := by decide
  unfold isDue Rested
  rcases hlook : n.sent.lookup k with _ | sent
  · simp [hlook]
  · simp only [hlook, Option.all_some, decide_eq_true_eq, Option.some.injEq, forall_eq']
    omega

/-- Just the slices that are asked for have a new time. -/
theorem due_lookup (n : Naks) (gaps : List (ℕ × List ℕ)) (now k : ℕ) :
    (n.due gaps now).2.sent.lookup k =
      if k ∈ (n.due gaps now).1.map Prod.fst then some now else n.sent.lookup k := by
  have hfold (sent : Table ℕ ℕ) (asked : List (ℕ × List ℕ)) :
      (asked.foldl (fun sent gap => sent.insert gap.1 now) sent).lookup k =
        if k ∈ asked.map Prod.fst then some now else sent.lookup k := by
    induction asked generalizing sent with
    | nil => simp
    | cons gap asked ih =>
      rw [List.foldl_cons, ih, Table.lookup_insert', List.map_cons]
      by_cases hlater : k ∈ asked.map Prod.fst
      · rw [if_pos hlater, if_pos (List.mem_cons_of_mem _ hlater)]
      · simp only [List.mem_cons, hlater, or_false, if_false]
  exact hfold _ _

end Naks

namespace Session

/-- The parts of a turn: a branch of the `select!`, what came with it, the hand-over. -/
inductive Stage where
  | wake (now : ℕ) (branch : Branch)
  | arrival (now : ℕ) (arrival : Incoming)
  | handOver (now : ℕ) (sink : Sink)

def stage (rs : ReedSolomon) (s : Session) : Stage → Outcome
  | .wake now (.packets _) => { session := { s with lastPacket := now } }
  | .wake now branch => s.branch now branch
  | .arrival now arrival => s.onArrival now arrival
  | .handOver now sink => s.handOver rs sink now

/-- The clock reading of a part that may ask for repairs. -/
def Stage.now? : Stage → Option ℕ
  | .wake now _ => some now
  | .arrival now _ => some now
  | .handOver _ _ => none

/-- A turn as the list of its parts. -/
def Branch.stages (now : ℕ) (sink : Sink) : Branch → List Stage
  | .packets arrivals =>
    .wake now (.packets arrivals) ::
      (arrivals.map (fun arrival => .arrival arrival.1 arrival.2) ++ [.handOver now sink])
  | branch => [.wake now branch, .handOver now sink]

/-- Whether the part looks for gaps. -/
def scans (s : Session) : Stage → Bool
  | .wake _ .renakTick => true
  | .arrival _ (.shard frame) => s.emitFloor < frame.emitFloor
  | .arrival _ (.control (.done _)) => true
  | _ => false

end Session

namespace Outcome

/-- The repair requests among what was sent. -/
def naks (o : Outcome) : List Nak :=
  o.sent.filterMap fun
    | .nak nak => some nak
    | _ => none

theorem andThen_here (s : Session) (f : Session → Outcome) :
    andThen { session := s } f = f s := by
  simp [andThen]

theorem andThen_stay (o : Outcome) : (o.andThen fun s => { session := s }) = o := by
  rcases o.andThen_cases fun s => { session := s } with ⟨_, _, heq⟩ | ⟨hended, heq⟩ <;> rw [heq]
  simp [← hended]

theorem andThen_assoc (o : Outcome) (f g : Session → Outcome) :
    (o.andThen f).andThen g = o.andThen fun s => (f s).andThen g := by
  rcases hended : o.ended with _ | e
  · rw [andThen_of_running hended, andThen_of_running hended]
    rcases hf : (f o.session).ended with _ | e
    · simp [andThen, hf]
    · simp [andThen, hf]
  · rw [andThen_of_ended hended, andThen_of_ended hended, andThen_of_ended hended]

end Outcome

/-- A session with the last reading of its clock, and the slices it has asked for with the time. -/
structure Inquiry where
  session : Session
  clock : ℕ
  asked : List (ℕ × ℕ)

namespace Session

variable {rs : ReedSolomon} {hello : Hello} {s s' : Session} {o : Outcome} {now : ℕ}
  {gaps : List (ℕ × List ℕ)}

/-- A session after a part of a turn that did not end it. -/
def inquire (rs : ReedSolomon) (e : Stage) (q : Inquiry) : Option Inquiry :=
  let now := e.now?.getD q.clock
  let o := q.session.stage rs e
  if q.clock ≤ now ∧ o.ended.isNone then
    some ⟨o.session, now, q.asked ++ o.naks.map fun nak => (now, nak.sliceNo)⟩
  else none

/-- All runs of a session for this `Hello`, one part of a turn after the other, at clock readings
that never decrease. -/
def inquiries (rs : ReedSolomon) (hello : Hello) : Labelled.System Inquiry Stage where
  init q := (∃ receiverId now, new hello receiverId now = .ok q.session) ∧ q.asked = []
  next := inquire rs

/-- The request for a gap, as `repair` sends it. -/
def nakFor (s : Session) (gap : ℕ × List ℕ) : Nak := ⟨s.transferId, s.receiverId, gap.1, gap.2⟩

/-- A part of a turn that asks for nothing, and forgets no more than what it writes out. -/
structure Quiet (s : Session) (o : Outcome) : Prop where
  naks : o.naks = []
  total : o.session.naks.total = s.naks.total
  next : s.assembler.nextNeeded ≤ o.session.assembler.nextNeeded
  kept : ∀ k t, o.session.naks.sent.lookup k = some t → s.naks.sent.lookup k = some t
  known : ∀ k, o.session.assembler.nextNeeded ≤ k →
    o.session.naks.sent.lookup k = s.naks.sent.lookup k

/-- The session asks from the same place, and of the same past. -/
structure Aligned (s s' : Session) : Prop where
  naks : s'.naks = s.naks
  next : s'.assembler.nextNeeded = s.assembler.nextNeeded

theorem Aligned.quiet (h : Aligned s o.session) (hnaks : o.naks = []) : Quiet s o := by
  refine ⟨hnaks, by rw [h.naks], h.next.ge, fun k t ht => ?_, fun k _ => ?_⟩
  · rwa [h.naks] at ht
  · rw [h.naks]

/-- Where every request had room, all of them were sent. -/
theorem sendNaks_of_running (h : (s.sendNaks gaps).ended = none) :
    s.sendNaks gaps = { session := s, sent := gaps.map s.repair } := by
  induction gaps with
  | nil => rfl
  | cons gap rest ih =>
    unfold sendNaks at h ⊢
    dsimp only at h ⊢
    split at h
    · simp [Outcome.fail] at h
    · rw [Outcome.andThen_of_running rfl] at h ⊢
      rw [ih h]
      rfl

theorem naks_repairs (s s' : Session) (gaps : List (ℕ × List ℕ)) :
    Outcome.naks { session := s', sent := gaps.map s.repair } = gaps.map s.nakFor := by
  unfold Outcome.naks
  rw [List.filterMap_map]
  exact List.filterMap_eq_map ▸ rfl

/-- What a search for gaps leaves and sends. -/
theorem requestGaps_of_running (h : (s.requestGaps now).ended = none) :
    (s.requestGaps now).session =
        { s with naks := (s.naks.due (s.assembler.gaps s.emitFloor) now).2 } ∧
      (s.requestGaps now).naks =
        (s.naks.due (s.assembler.gaps s.emitFloor) now).1.map s.nakFor := by
  unfold requestGaps at h ⊢
  dsimp only at h ⊢
  rw [sendNaks_of_running h]
  exact ⟨rfl, naks_repairs ..⟩

theorem insert_aligned {assembler : Assembler} {k slot w : ℕ} {payload : Bytes} {taken : Bool}
    (hi : s.assembler.insert k slot w payload = .ok (taken, assembler)) {received : ℕ}
    {highestSeq : Option ℕ} {emitFloor : ℕ} :
    Aligned s
      (if taken then { s with
        received := received, highestSeq := highestSeq, emitFloor := emitFloor
        assembler := assembler }
      else refused { s with
        received := received, highestSeq := highestSeq, emitFloor := emitFloor
        assembler := assembler } k) := by
  have hnext := (insert_frame hi).1
  cases taken with
  | true => exact ⟨rfl, hnext⟩
  | false =>
    obtain ⟨late, duplicates, heq⟩ := refused_eq { s with
      received := received, highestSeq := highestSeq, emitFloor := emitFloor
      assembler := assembler } k
    rw [if_neg (by simp), heq]
    exact ⟨rfl, hnext⟩

theorem onShard_cases (s : Session) (frame : Frame) (now : ℕ)
    (h : (s.onShard frame now).ended = none) : ∃ s₁, Aligned s s₁ ∧
      s.onShard frame now =
        if s.emitFloor < frame.emitFloor then s₁.requestGaps now else { session := s₁ } := by
  unfold onShard at h ⊢
  split at h
  · simp [Outcome.panic] at h
  · simp [Outcome.fail] at h
  unfold takeShard at h ⊢
  dsimp only at h ⊢
  split at h
  · simp [Outcome.panic] at h
  · next taken assembler hi => exact ⟨_, insert_aligned hi, rfl⟩

theorem handOver_quiet (sink : Sink) (now : ℕ) (h : (s.handOver rs sink now).ended = none) :
    Quiet s (s.handOver rs sink now) := by
  unfold handOver at h ⊢
  dsimp only at h ⊢
  split at h
  · simp [Outcome.panic] at h
  next s₁ hrefill =>
  have h₁ : s₁.naks = s.naks ∧ s.assembler.nextNeeded ≤ s₁.assembler.nextNeeded := by
    rcases refill_cases hrefill with ⟨_, rfl⟩ | ⟨_, _, assembler, htake, _, rfl, _⟩
    · exact ⟨rfl, le_rfl⟩
    · exact ⟨rfl, (Assembler.takeReady_eq_ok.mp htake).1.frame.1⟩
  split_ifs at h ⊢
  have hlookup (k : ℕ) : (s₁.naks.forgetBelow s₁.assembler.nextNeeded).sent.lookup k =
      if s₁.assembler.nextNeeded ≤ k then s.naks.sent.lookup k else none := by
    rw [Naks.forgetBelow, Table.lookup_retain, h₁.1]
    simp only [decide_eq_true_eq]
  refine ⟨rfl, (congrArg Naks.total h₁.1 : s₁.naks.total = s.naks.total), h₁.2, fun k t ht => ?_, fun k hk => ?_⟩
  · rw [hlookup] at ht
    split_ifs at ht
    exact ht
  · rw [hlookup, if_pos hk]

/-- A part of a turn either looks for gaps, from where the session is, or it asks for nothing. -/
theorem stage_cases (e : Stage) (h : (s.stage rs e).ended = none) :
    (s.scans e = true ∧ ∃ s₁ now, e.now? = some now ∧ Aligned s s₁ ∧
      s.stage rs e = s₁.requestGaps now) ∨ s.scans e = false ∧ Quiet s (s.stage rs e) := by
  cases e with
  | wake now branch =>
    cases branch with
    | renakTick => exact .inl ⟨rfl, s, now, rfl, ⟨rfl, rfl⟩, rfl⟩
    | silence => simp [stage, branch, Outcome.fail] at h
    | _ => exact .inr ⟨rfl, Aligned.quiet ⟨rfl, rfl⟩ rfl⟩
  | arrival now arrival =>
    cases arrival with
    | shard frame =>
      obtain ⟨s₁, haligned, heq⟩ := s.onShard_cases frame now h
      have hstage : s.stage rs (.arrival now (.shard frame)) = _ := heq
      rw [hstage]
      by_cases hfloor : s.emitFloor < frame.emitFloor
      · rw [if_pos hfloor]
        exact .inl ⟨decide_eq_true hfloor, s₁, now, rfl, haligned, rfl⟩
      · rw [if_neg hfloor]
        exact .inr ⟨decide_eq_false hfloor, haligned.quiet rfl⟩
    | control message =>
      cases message with
      | done done =>
        refine .inl ⟨rfl, { s with
          totalBytes := some done.totalBytes
          assembler := s.assembler.onDone done.totalBlocks }, now, rfl, ⟨rfl, rfl⟩, rfl⟩
      | hello hello =>
        refine .inr ⟨rfl, ?_⟩
        simp only [stage, onArrival]
        split_ifs <;> exact Aligned.quiet ⟨rfl, rfl⟩ rfl
      | evicted evicted =>
        refine .inr ⟨rfl, ?_⟩
        simp only [stage, onArrival] at h ⊢
        split_ifs at h ⊢
        · simp [Outcome.fail] at h
        · exact Aligned.quiet ⟨rfl, rfl⟩ rfl
      | _ => exact .inr ⟨rfl, Aligned.quiet ⟨rfl, rfl⟩ rfl⟩
  | handOver now sink => exact .inr ⟨rfl, handOver_quiet sink now h⟩

section Turn

/-- The parts of a list one after the other, until one ends the session. -/
def through (rs : ReedSolomon) (s : Session) : List Stage → Outcome
  | [] => { session := s }
  | e :: rest => (s.stage rs e).andThen fun s => s.through rs rest

theorem through_append (es es' : List Stage) :
    s.through rs (es ++ es') = (s.through rs es).andThen fun s => s.through rs es' := by
  induction es generalizing s with
  | nil => exact (Outcome.andThen_here s fun s => s.through rs es').symm
  | cons e es ih =>
    rw [List.cons_append, through, through, Outcome.andThen_assoc]
    congr 1
    exact funext fun s => ih

theorem through_single (e : Stage) : s.through rs [e] = s.stage rs e := Outcome.andThen_stay _

theorem onArrivals_eq (s : Session) (arrivals : List (ℕ × Incoming)) : s.onArrivals arrivals =
    s.through rs (arrivals.map fun arrival => .arrival arrival.1 arrival.2) := by
  induction arrivals generalizing s with
  | nil => rfl
  | cons arrival arrivals ih =>
    rw [List.map_cons, through, onArrivals]
    congr 1
    exact funext ih

/-- A turn is its parts one after the other, and then the loop goes on or ends. -/
theorem turn_eq (s : Session) (now : ℕ) (b : Branch) (sink : Sink) : s.turn rs now b sink =
    (s.through rs (b.stages now sink)).andThen fun s =>
      if s.Running then { session := s } else s.conclude now := by
  have htwo (b : Branch) (hb : s.stage rs (.wake now b) = s.branch now b) :
      s.through rs [.wake now b, .handOver now sink] =
        (s.branch now b).andThen fun s => s.handOver rs sink now := by
    rw [through, hb]
    congr 1
    exact funext fun s => through_single _
  unfold turn
  congr 1
  cases b with
  | packets arrivals =>
    have hlast : (fun s => through rs s [.handOver now sink]) =
        fun s => s.handOver rs sink now := funext fun s => through_single _
    have hwake : s.stage rs (.wake now (.packets arrivals)) =
        { session := { s with lastPacket := now } } := rfl
    rw [Branch.stages, through, hwake, Outcome.andThen_here, through_append, ← onArrivals_eq, hlast]
    rfl
  | _ => exact (htwo _ rfl).symm

variable {clock : ℕ} {asked : List (ℕ × ℕ)}

theorem naks_andThen (h : o.ended = none) (f : Session → Outcome) :
    (o.andThen f).naks = o.naks ++ (f o.session).naks := by
  rw [Outcome.andThen_of_running h]
  exact List.filterMap_append ..

/-- Parts that follow each other in time are steps of a run. -/
theorem exec_through {es : List Stage} (hended : (s.through rs es).ended = none)
    (horder : (clock :: es.filterMap Stage.now?).Pairwise (· ≤ ·)) :
    ∃ clock' stamped, Labelled.exec (inquiries rs hello) es ⟨s, clock, asked⟩ =
        some ⟨(s.through rs es).session, clock', asked ++ stamped⟩ ∧
      stamped.map Prod.snd = (s.through rs es).naks.map (·.sliceNo) := by
  induction es generalizing s clock asked with
  | nil => exact ⟨clock, [], by simp [through], rfl⟩
  | cons e es ih =>
    rw [through] at hended ⊢
    rcases (s.stage rs e).andThen_cases fun s => s.through rs es with
      ⟨_, hnot, heq⟩ | ⟨hrun, heq⟩
    · rw [heq, hnot] at hended
      cases hended
    have hrest : ((s.stage rs e).session.through rs es).ended = none := by
      rw [heq] at hended
      exact hended
    have htime : clock ≤ e.now?.getD clock ∧
        (e.now?.getD clock :: es.filterMap Stage.now?).Pairwise (· ≤ ·) := by
      rcases hnow : e.now? with _ | now
      · rw [List.filterMap_cons_none hnow] at horder
        exact ⟨le_rfl, horder⟩
      · rw [List.filterMap_cons_some hnow] at horder
        obtain ⟨hle, htail⟩ := List.pairwise_cons.mp horder
        exact ⟨hle now List.mem_cons_self, htail⟩
    obtain ⟨clock', stamped, hexec, hslices⟩ := @ih _ _ (asked ++
      (s.stage rs e).naks.map fun nak => (e.now?.getD clock, nak.sliceNo)) hrest htime.2
    have hnext : (inquiries rs hello).next e ⟨s, clock, asked⟩ = some
        ⟨(s.stage rs e).session, e.now?.getD clock, asked ++
          (s.stage rs e).naks.map fun nak => (e.now?.getD clock, nak.sliceNo)⟩ :=
      if_pos ⟨htime.1, by rw [hrun]; rfl⟩
    refine ⟨clock', (s.stage rs e).naks.map (fun nak => (e.now?.getD clock, nak.sliceNo)) ++ stamped,
      ?_, ?_⟩
    · rw [Labelled.exec_cons, hnext, Option.bind_some, hexec, List.append_assoc, heq]
    · rw [List.map_append, hslices, naks_andThen hrun, List.map_append, List.map_map]
      rfl

theorem conclude_ended (s : Session) (now : ℕ) : (s.conclude now).ended ≠ none := by
  rcases hcheck : s.checkByteTotal with e | _
  · simp [conclude, hcheck, Outcome.fail]
  · simp [conclude_of_check hcheck]

/-- Every turn after which the loop goes on is such a run. -/
theorem turn_exec {b : Branch} {sink : Sink} (hended : (s.turn rs now b sink).ended = none)
    (horder : (clock :: (b.stages now sink).filterMap Stage.now?).Pairwise (· ≤ ·)) :
    ∃ clock' stamped,
      Labelled.exec (inquiries rs hello) (b.stages now sink) ⟨s, clock, asked⟩ =
        some ⟨(s.turn rs now b sink).session, clock', asked ++ stamped⟩ ∧
      stamped.map Prod.snd = (s.turn rs now b sink).naks.map (·.sliceNo) := by
  have hturn : s.turn rs now b sink = _ := turn_eq s now b sink
  rcases hrun : (s.through rs (b.stages now sink)).ended with _ | e
  · have hgoes : (s.through rs (b.stages now sink)).session.Running := by
      by_contra hover
      rw [hturn, Outcome.andThen_of_running hrun, if_neg hover] at hended
      exact conclude_ended _ _ hended
    have heq : s.turn rs now b sink = s.through rs (b.stages now sink) := by
      rw [hturn, Outcome.andThen_of_running hrun, if_pos hgoes]
      simp [← hrun]
    rw [heq]
    exact exec_through hrun horder
  · rw [hturn, Outcome.andThen_of_ended hrun, hrun] at hended
    cases hended

end Turn

variable {q q' : Inquiry} {e : Stage}

/-- What the session remembers of its requests is what it would do with all of them at hand. -/
structure Recalls (q : Inquiry) : Prop where
  remembers : Remembers renakInterval q.clock (q.session.assembler.nextNeeded ≤ ·)
    q.session.naks.sent.lookup q.asked
  total : q.session.naks.total = q.asked.length

/-- The gaps that were never asked for, or not for the time of a repeat. -/
def overdue (s : Session) (asked : List (ℕ × ℕ)) (now : ℕ) : List (ℕ × List ℕ) :=
  (s.assembler.gaps s.emitFloor).filter fun gap =>
    gap.2 ≠ [] ∧ Overdue renakInterval asked now gap.1

/-- By the session's own record, just the overdue gaps are due. -/
theorem Recalls.due_eq (h : Recalls q) (haligned : Aligned q.session s) (now : ℕ) :
    (s.naks.due (s.assembler.gaps s.emitFloor) now).1 = s.overdue q.asked now := by
  apply List.filter_congr
  intro gap hgap
  have hlive : q.session.assembler.nextNeeded ≤ gap.1 :=
    haligned.next ▸ (Assembler.mem_gaps_iff.mp hgap).1
  rw [decide_eq_decide, Naks.isDue_iff, haligned.naks, h.remembers.rested_iff hlive]

theorem Recalls.scan (h : Recalls q) (haligned : Aligned q.session s) (hclock : q.clock ≤ now)
    (hended : (s.requestGaps now).ended = none) :
    Recalls ⟨(s.requestGaps now).session, now,
      q.asked ++ (s.requestGaps now).naks.map fun nak => (now, nak.sliceNo)⟩ := by
  obtain ⟨hsession, hnaks⟩ := requestGaps_of_running hended
  have hstamped : (s.requestGaps now).naks.map (fun nak => (now, nak.sliceNo)) =
      ((s.naks.due (s.assembler.gaps s.emitFloor) now).1.map Prod.fst).map fun k => (now, k) := by
    rw [hnaks, List.map_map, List.map_map]
    rfl
  rw [hsession, hstamped]
  constructor
  · have hnodup : ((s.naks.due (s.assembler.gaps s.emitFloor) now).1.map Prod.fst).Nodup := by
      refine List.Nodup.sublist (List.Sublist.map _ List.filter_sublist) ?_
      exact (Assembler.gaps_ascending ..).imp fun hlt => hlt.ne
    have hover : ∀ k ∈ (s.naks.due (s.assembler.gaps s.emitFloor) now).1.map Prod.fst,
        Overdue renakInterval q.asked now k := by
      intro k hk
      rw [h.due_eq haligned] at hk
      obtain ⟨gap, hgap, rfl⟩ := List.mem_map.mp hk
      exact (of_decide_eq_true (List.mem_filter.mp hgap).2).2
    have hgrant : Remembers _ now _ (s.naks.due (s.assembler.gaps s.emitFloor) now).2.sent.lookup _ :=
      h.remembers.grant hclock hnodup hover
        (fun k hk => by rw [Naks.due_lookup, if_pos hk])
        (fun k hk => by rw [Naks.due_lookup, if_neg hk, haligned.naks])
    rw [← haligned.next] at hgrant
    exact hgrant
  · rw [List.length_append, List.length_map, List.length_map, ← h.total, ← haligned.naks]
    rfl

theorem Recalls.next (h : Recalls q) (hn : inquire rs e q = some q') : Recalls q' := by
  unfold inquire at hn
  dsimp only at hn
  split_ifs at hn with hguard
  obtain ⟨hclock, hended⟩ := hguard
  rw [Option.isNone_iff_eq_none] at hended
  rw [← Option.some.inj hn]
  rcases stage_cases e hended with ⟨-, s, now, hnow, haligned, heq⟩ | ⟨-, hquiet⟩
  · rw [hnow, Option.getD_some] at hclock ⊢
    rw [heq] at hended ⊢
    exact h.scan haligned hclock hended
  · rw [hquiet.naks, List.map_nil, List.append_nil]
    constructor
    · refine (h.remembers.later hclock).forget hquiet.kept fun k hk => ?_
      exact ⟨hquiet.next.trans hk, hquiet.known k hk⟩
    · exact hquiet.total.trans h.total

theorem recalls_of_reachable (h : Labelled.Reachable (inquiries rs hello) q) : Recalls q := by
  apply h.invariant
  · rintro ⟨s, clock, asked⟩ ⟨⟨receiverId, now, hnew⟩, rfl⟩
    obtain ⟨a, -, hs⟩ := bind_ok_iff.mp hnew
    obtain rfl := Except.ok.inj hs
    exact ⟨.nil fun k => rfl, rfl⟩
  · exact fun e q q' _ hq hn => hq.next hn

/-- Whatever arrives and whenever the clock is read: two requests for one slice are the time of a
repeat apart, and a search for gaps asks for every gap that was not asked for in that time, and for
no other. -/
theorem requests_are_spaced (h : Labelled.Reachable (inquiries rs hello) q) :
    q.asked.Pairwise (fun asked asked' => asked.2 = asked'.2 →
      asked.1 + renakInterval ≤ asked'.1) ∧
    q.session.naks.total = q.asked.length ∧
    ∀ e q', inquire rs e q = some q' → (q.session.stage rs e).naks =
      if q.session.scans e then (q'.session.overdue q.asked q'.clock).map q'.session.nakFor
      else [] := by
  have hrecalls := recalls_of_reachable h
  refine ⟨hrecalls.remembers.spaced, hrecalls.total, fun e q' hn => ?_⟩
  unfold inquire at hn
  dsimp only at hn
  split_ifs at hn with hguard
  obtain ⟨hclock, hended⟩ := hguard
  rw [Option.isNone_iff_eq_none] at hended
  rw [← Option.some.inj hn]
  rcases stage_cases e hended with ⟨hscans, s, now, hnow, haligned, heq⟩ | ⟨hscans, hquiet⟩
  · rw [hscans, if_pos rfl, hnow, Option.getD_some]
    rw [heq] at hended ⊢
    obtain ⟨hsession, hnaks⟩ := requestGaps_of_running hended
    rw [hnaks, hrecalls.due_eq haligned, hsession]
    rfl
  · rw [hscans, if_neg (by simp)]
    exact hquiet.naks

/-- The slice of a shard with a floor is asked for at once, not again a moment later, and again
after the time of a repeat. -/
theorem requests_are_spaced_pairs : ∃ q, Labelled.Reachable (inquiries .interpolated pairs) q ∧
    q.asked = [(0, 0), (renakInterval, 0)] ∧ q.session.naks.total = 2 ∧
      q.asked.Pairwise fun asked asked' => asked.2 = asked'.2 →
        asked.1 + renakInterval ≤ asked'.1 := by
  let frame : Frame :=
    { slot := 0, sliceParity := 0, transferId := 7, seq := 0, sliceNo := 0, emitFloor := 1
      payload := [1, 2] }
  obtain ⟨s, hnew⟩ : ∃ s, new pairs 0 0 = .ok s := ⟨_, rfl⟩
  obtain ⟨q, hexec, hasked⟩ : ∃ q, Labelled.exec (inquiries .interpolated pairs)
      [.wake 0 (.packets []), .arrival 0 (.shard frame), .handOver 0 ⟨0, false⟩,
        .wake (renakInterval - 1) .renakTick, .wake renakInterval .renakTick] ⟨s, 0, []⟩ = some q ∧
        q.asked = [(0, 0), (renakInterval, 0)] := by
    cases hnew
    apply Option.map_eq_some_iff.mp
    decide +kernel
  have hreach : Labelled.Reachable (inquiries .interpolated pairs) q :=
    .exec (.start ⟨⟨0, 0, hnew⟩, rfl⟩) hexec
  obtain ⟨hspaced, htotal, -⟩ := requests_are_spaced hreach
  exact ⟨q, hreach, hasked, by rw [htotal, hasked]; rfl, hspaced⟩

end Session
end Scuttlecast
