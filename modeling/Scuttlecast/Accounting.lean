import Scuttlecast.Sender.Egress
import Scuttlecast.Receiver.Repair

/-! What a receiver reports of the shards it has seen. The sender numbers them modulo `2 ^ 32`;
the receiver takes the highest number for the furthest shard. -/
namespace Scuttlecast

/-- One past the furthest of the shards received, by their places in what was emitted. -/
def reach (order : List ℕ) : ℕ := order.foldr (fun i n => max (i + 1) n) 0

/-- How many of the first `n` shards emitted have not been received. -/
def missing (order : List ℕ) (n : ℕ) : ℕ := ((List.range n).filter (· ∉ order)).length

theorem reach_le_iff {order : List ℕ} {n : ℕ} : reach order ≤ n ↔ ∀ i ∈ order, i < n := by
  induction order with
  | nil => simp [reach]
  | cons i order ih =>
    have hstep : reach (i :: order) = max (i + 1) (reach order) := rfl
    rw [hstep, max_le_iff, ih, List.forall_mem_cons, Nat.succ_le_iff]

theorem missing_add_length {order : List ℕ} {n : ℕ} (hnodup : order.Nodup) (h : ∀ i ∈ order, i < n) :
    missing order n + order.length = n := by
  have hfound : ((List.range n).filter (· ∈ order)).Perm order := by
    apply (List.perm_ext_iff_of_nodup (List.nodup_range.filter _) hnodup).mpr
    intro i
    simp only [List.mem_filter, List.mem_range, decide_eq_true_eq, and_iff_right_iff_imp]
    exact h i
  have hsplit := List.length_eq_length_filter_add (l := List.range n) (fun i => decide (i ∈ order))
  have hlen := hfound.length_eq
  have hmissing : missing order n =
      ((List.range n).filter fun i => !decide (i ∈ order)).length := by
    simp only [missing, decide_not]
  rw [List.length_range] at hsplit
  omega

theorem numbered_seq {transferId seq i : ℕ} {messages : List Outbound} {frame : Frame}
    (hseq : seq < 2 ^ 32) (h : (numbered transferId seq messages)[i]? = some frame) :
    frame.seq = (seq + i) % 2 ^ 32 := by
  induction messages generalizing seq i with
  | nil => simp [numbered] at h
  | cons message rest ih =>
    cases message with
    | shard sliceNo slot sliceParity emitFloor payload =>
      cases i with
      | zero =>
        simp only [numbered, List.getElem?_cons_zero, Option.some.injEq] at h
        rw [← h, Nat.add_zero, Nat.mod_eq_of_lt hseq]
      | succ i =>
        simp only [numbered, List.getElem?_cons_succ] at h
        have hnext := ih (Nat.mod_lt _ (by decide)) h
        rw [hnext, Nat.mod_add_mod, Nat.add_assoc, Nat.add_comm 1 i]
    | eof totalBytes totalBlocks => exact ih hseq h

/-- `TransferSummary::loss`. -/
def TransferSummary.loss (s : TransferSummary) : ℚ :=
  if s.expected = 0 then 0 else 1 - s.received / s.expected

/-- The counts tell exactly how many of the shards emitted so far are missing. -/
structure Exact (order : List ℕ) (received expected : ℕ) : Prop where
  expected_eq : expected = reach order
  received_le : received ≤ expected
  missing_eq : expected - received = missing order expected

/-- And so do the losses that the group takes from a report: the total one, and that of a window
since an earlier report. -/
structure Accounted (order : List ℕ) (st : Stats) : Prop where
  exact_counts : Exact order st.totalReceived st.totalExpected
  cumulative : ∀ p : Participant, 0 < st.totalExpected →
    (p.report st).2.cumulativeLoss = missing order st.totalExpected / st.totalExpected
  windowed : ∀ (p : Participant) (earlier : List ℕ), earlier <+: order →
    p.lastReport = some (earlier.length, reach earlier) → (p.report st).1.isSome →
      (p.report st).2.windowedLoss =
        some (((missing order (reach order) : ℚ) - missing earlier (reach earlier)) /
          ((reach order : ℚ) - reach earlier))

/-- And the loss of the summary. -/
structure Summarised (order : List ℕ) (summary : TransferSummary) : Prop where
  exact_counts : Exact order summary.received summary.expected
  loss : summary.loss = missing order summary.expected / summary.expected

/-- With shards numbered modulo `2 ^ 32`, the counts are exact just until one is received whose
number has wrapped around. -/
theorem exact_iff {order : List ℕ} (hnodup : order.Nodup) :
    Exact order order.length (reach (order.map (· % 2 ^ 32))) ↔ ∀ i ∈ order, i < 2 ^ 32 := by
  constructor
  · intro h i hi
    have hwrapped : reach (order.map (· % 2 ^ 32)) ≤ 2 ^ 32 := by
      apply reach_le_iff.mpr
      simp only [List.forall_mem_map]
      exact fun _ _ => Nat.mod_lt _ (by decide)
    exact reach_le_iff.mp (h.expected_eq.symm.le.trans hwrapped) i hi
  · intro h
    have hsame : order.map (· % 2 ^ 32) = order :=
      (List.map_congr_left fun i hi => Nat.mod_eq_of_lt (h i hi)).trans (List.map_id order)
    have hmissing := missing_add_length hnodup (reach_le_iff.mp le_rfl)
    rw [hsame]
    exact ⟨rfl, by omega, by omega⟩

variable {order : List ℕ} {st : Stats}

theorem Exact.cast {received expected : ℕ} (h : Exact order received expected) :
    (missing order expected : ℚ) = expected - received := by
  rw [← h.missing_eq, Nat.cast_sub h.received_le]

theorem cumulativeLoss_report (p : Participant) (h : 0 < st.totalExpected) :
    (p.report st).2.cumulativeLoss = 1 - st.totalReceived / st.totalExpected := by
  unfold Participant.report
  simp only [if_pos h]
  split
  · rfl
  · split_ifs <;> rfl

/-- The loss of a window that a report closes. -/
theorem windowedLoss_report {p : Participant} {seen before : ℕ}
    (hlast : p.lastReport = some (seen, before)) (hclosed : (p.report st).1.isSome) :
    before < st.totalExpected ∧ seen ≤ st.totalReceived ∧ (p.report st).2.windowedLoss =
      some (1 - ((st.totalReceived - seen : ℕ) : ℚ) / ((st.totalExpected - before : ℕ) : ℚ)) := by
  unfold Participant.report at hclosed ⊢
  simp only [hlast] at hclosed ⊢
  by_cases hopen : st.totalExpected ≤ before ∨ st.totalReceived < seen ∨
      st.totalExpected - before < minLossSample
  · rw [if_pos hopen] at hclosed
    cases hclosed
  · rw [if_neg hopen]
    simp only [not_or, Nat.not_le, Nat.not_lt] at hopen
    exact ⟨hopen.1, hopen.2.1, rfl⟩

theorem Exact.accounted (h : Exact order st.totalReceived st.totalExpected)
    (hreceived : st.totalReceived = order.length) (hnodup : order.Nodup) : Accounted order st := by
  refine ⟨h, fun p hpos => ?_, fun p earlier hpre hlast hclosed => ?_⟩
  · have hne : (st.totalExpected : ℚ) ≠ 0 := by exact_mod_cast hpos.ne'
    rw [cumulativeLoss_report p hpos, h.cast, one_sub_div hne]
  · obtain ⟨hbefore, hseen, hloss⟩ := windowedLoss_report hlast hclosed
    have hearlier : (missing earlier (reach earlier) : ℚ) + earlier.length = reach earlier :=
      mod_cast missing_add_length (hpre.sublist.nodup hnodup) (reach_le_iff.mp le_rfl)
    have hlater : (missing order (reach order) : ℚ) + order.length = reach order :=
      mod_cast missing_add_length hnodup (reach_le_iff.mp le_rfl)
    rw [h.expected_eq] at hbefore hloss
    rw [hreceived] at hseen hloss
    have hwidth : (reach order : ℚ) - reach earlier ≠ 0 := by
      rw [← Nat.cast_sub hbefore.le]
      exact_mod_cast (Nat.sub_pos_of_lt hbefore).ne'
    have hlost : (missing order (reach order) : ℚ) - missing earlier (reach earlier) =
        (reach order - reach earlier) - (order.length - earlier.length) := by
      linarith
    rw [hloss, Nat.cast_sub hbefore.le, Nat.cast_sub hseen, hlost, one_sub_div hwidth]

theorem Exact.summarised {summary : TransferSummary}
    (h : Exact order summary.received summary.expected) : Summarised order summary := by
  refine ⟨h, ?_⟩
  unfold TransferSummary.loss
  rw [h.cast]
  split_ifs with hzero
  · simp [hzero]
  · have hne : (summary.expected : ℚ) ≠ 0 := by exact_mod_cast hzero
    rw [one_sub_div hne]

def Incoming.frame? : Incoming → Option Frame
  | .shard frame => some frame
  | .control _ => none

namespace Session

variable {rs : ReedSolomon} {s s' : Session} {o : Outcome} {frames frames' : List Frame}

/-- The shards a branch is given, in the order they are looked at. -/
def Branch.shards : Branch → List Frame
  | .packets arrivals => arrivals.filterMap fun arrival => arrival.2.frame?
  | _ => []

/-- All the shards of a run of turns. -/
def shards (turns : List (ℕ × Branch × Sink)) : List Frame :=
  turns.flatMap fun turn => turn.2.1.shards

/-- What `total_expected` is reported as. -/
def expected (s : Session) : ℕ := s.highestSeq.elim 0 (· + 1)

/-- From `s` to `s'` just these shards were counted. -/
structure Tallied (s : Session) (frames : List Frame) (s' : Session) : Prop where
  received : s'.received = s.received + frames.length
  expected : s'.expected = max s.expected (reach (frames.map Frame.seq))

theorem Tallied.none (hreceived : s'.received = s.received)
    (hhighest : s'.highestSeq = s.highestSeq) : Tallied s [] s' :=
  ⟨hreceived, by simp [Session.expected, hhighest, reach]⟩

theorem Tallied.trans {s'' : Session} (h : Tallied s frames s') (h' : Tallied s' frames' s'') :
    Tallied s (frames ++ frames') s'' := by
  have hreach : reach ((frames ++ frames').map Frame.seq) =
      max (reach (frames.map Frame.seq)) (reach (frames'.map Frame.seq)) := by
    apply eq_of_forall_ge_iff
    intro n
    simp only [max_le_iff, reach_le_iff, List.map_append, List.forall_mem_append]
  constructor
  · rw [h'.received, h.received, List.length_append, Nat.add_assoc]
  · rw [h'.expected, h.expected, hreach, max_assoc]

/-- While it runs the part has counted these shards, and what it reports are the counts. -/
structure Counted (s : Session) (frames : List Frame) (o : Outcome) : Prop where
  running : o.ended = none → Tallied s frames o.session
  reports : ∀ st, .stats st ∈ o.sent → Tallied s frames o.session ∧
    st.totalReceived = o.session.received ∧ st.totalExpected = o.session.expected

abbrev NoStats (o : Outcome) : Prop := ∀ st, .stats st ∉ o.sent

theorem noStats_of_nil (h : o.sent = []) : NoStats o := fun st hst => by
  rw [h] at hst
  cases hst

theorem Counted.quiet (h : o.ended = none → Tallied s frames o.session) (hquiet : NoStats o) :
    Counted s frames o := ⟨h, fun st hst => absurd hst (hquiet st)⟩

theorem noStats_andThen {f : Session → Outcome} (h : NoStats o) (hf : ∀ s', NoStats (f s')) :
    NoStats (o.andThen f) := by
  intro st hst
  rcases o.andThen_cases f with ⟨_, _, heq⟩ | ⟨_, heq⟩
  · rw [heq] at hst
    exact h st hst
  · rw [heq] at hst
    rcases List.mem_append.mp hst with hst | hst
    · exact h st hst
    · exact hf _ st hst

/-- A part that counts more goes after one that has reported nothing. -/
theorem Counted.andThen {f : Session → Outcome} (h : Counted s frames o) (hquiet : NoStats o)
    (hf : ∀ s', Counted s' frames' (f s')) : Counted s (frames ++ frames') (o.andThen f) := by
  rcases o.andThen_cases f with ⟨e, hended, heq⟩ | ⟨hended, heq⟩
  · rw [heq]
    exact .quiet (fun hnone => by rw [hended] at hnone; cases hnone) hquiet
  · have hfirst := h.running hended
    have hnext := hf o.session
    rw [heq]
    refine ⟨fun hnone => hfirst.trans (hnext.running hnone), fun st hst => ?_⟩
    rcases List.mem_append.mp hst with hst | hst
    · exact absurd hst (hquiet st)
    · obtain ⟨htallied, hcounts⟩ := hnext.reports st hst
      exact ⟨hfirst.trans htallied, hcounts⟩

/-- A part that counts nothing leaves every report standing. -/
theorem Counted.andThen_still {f : Session → Outcome} (h : Counted s frames o)
    (hf : ∀ s', Tallied s' [] (f s').session)
    (hreports : ∀ s' st, .stats st ∈ (f s').sent → st.totalReceived = (f s').session.received ∧
      st.totalExpected = (f s').session.expected) : Counted s frames (o.andThen f) := by
  rcases o.andThen_cases f with ⟨e, hended, heq⟩ | ⟨hended, heq⟩
  · rw [heq]
    exact h
  · have hstill := hf o.session
    have hadd : ∀ {fs}, Tallied s fs o.session → Tallied s fs (f o.session).session := by
      intro fs hfs
      simpa using hfs.trans hstill
    have hsame : (f o.session).session.received = o.session.received ∧
        (f o.session).session.expected = o.session.expected :=
      ⟨hstill.received, by simpa [reach] using hstill.expected⟩
    rw [heq]
    refine ⟨fun _ => hadd (h.running hended), fun st hst => ?_⟩
    rcases List.mem_append.mp hst with hst | hst
    · obtain ⟨htallied, hreceived, hexpected⟩ := h.reports st hst
      exact ⟨hadd htallied, hreceived.trans hsame.1.symm, hexpected.trans hsame.2.symm⟩
    · exact ⟨hadd (h.running hended), hreports _ st hst⟩

theorem sendNaks_noStats (s : Session) (gaps : List (ℕ × List ℕ)) : NoStats (s.sendNaks gaps) := by
  induction gaps generalizing s with
  | nil => simp [NoStats, sendNaks]
  | cons gap rest ih =>
    unfold sendNaks
    dsimp only
    split
    · simp [NoStats, Outcome.fail]
    · exact noStats_andThen (by simp [NoStats]) ih

theorem requestGaps_tallied (s : Session) (now : ℕ) :
    Tallied s [] (s.requestGaps now).session := by
  obtain ⟨⟨naks, heq⟩, -⟩ := requestGaps_session s now
  rw [heq]
  exact .none rfl rfl

theorem requestGaps_noStats (s : Session) (now : ℕ) : NoStats (s.requestGaps now) :=
  sendNaks_noStats _ _

theorem takeShard_counted (s : Session) (frame : Frame) (now : ℕ) :
    Counted s [frame] (s.takeShard frame now) ∧ NoStats (s.takeShard frame now) := by
  have hone : ∀ s' : Session, s'.received = s.received + 1 →
      s'.highestSeq = some (max (s.highestSeq.getD 0) frame.seq) → Tallied s [frame] s' := by
    intro s' hreceived hhighest
    refine ⟨hreceived, ?_⟩
    rw [Session.expected, hhighest, Session.expected]
    cases s.highestSeq <;> simp [reach]
  unfold takeShard
  dsimp only
  split
  · exact ⟨.quiet (fun hnone => by cases hnone) (noStats_of_nil rfl), noStats_of_nil rfl⟩
  · next taken assembler hi =>
    have hif (s' : Session) (c : Prop) [Decidable c] (hs' : Tallied s [frame] s') :
        Counted s [frame] (if c then s'.requestGaps now else { session := s' }) ∧
          NoStats (if c then s'.requestGaps now else { session := s' }) := by
      split_ifs
      · have hadd := hs'.trans (requestGaps_tallied s' now)
        exact ⟨.quiet (fun _ => hadd) (requestGaps_noStats s' now), requestGaps_noStats s' now⟩
      · exact ⟨.quiet (fun _ => hs') (noStats_of_nil rfl), noStats_of_nil rfl⟩
    apply hif
    cases taken with
    | true => exact hone _ rfl rfl
    | false =>
      rw [if_neg (by simp)]
      obtain ⟨late, duplicates, heq⟩ := refused_eq _ frame.sliceNo
      rw [heq]
      exact hone _ rfl rfl

/-- Every shard that passes its check is counted, and nothing else is. -/
theorem onArrival_counted (s : Session) (now : ℕ) (arrival : Incoming) :
    Counted s arrival.frame?.toList (s.onArrival now arrival) ∧
      NoStats (s.onArrival now arrival) := by
  have hstill : ∀ sent : List Message, (∀ st, .stats st ∉ sent) →
      Counted s [] { session := s, sent := sent } ∧ NoStats { session := s, sent := sent } := by
    intro sent hsent
    exact ⟨.quiet (fun _ => .none rfl rfl) hsent, hsent⟩
  have hfail : ∀ (frames : List Frame) (o : Outcome), o.ended ≠ none → NoStats o →
      Counted s frames o ∧ NoStats o :=
    fun frames o hended hquiet => ⟨.quiet (fun hnone => absurd hnone hended) hquiet, hquiet⟩
  unfold onArrival
  split
  · unfold onShard
    split
    · exact hfail _ _ (by simp [Outcome.panic]) (noStats_of_nil rfl)
    · exact hfail _ _ (by simp [Outcome.fail]) (noStats_of_nil rfl)
    · exact takeShard_counted s _ now
  · next done =>
    have hrequest := requestGaps_noStats { s with
      totalBytes := some done.totalBytes, assembler := s.assembler.onDone done.totalBlocks } now
    have htallied := requestGaps_tallied { s with
      totalBytes := some done.totalBytes, assembler := s.assembler.onDone done.totalBlocks } now
    exact ⟨.quiet (fun _ => ⟨htallied.received, htallied.expected⟩) hrequest, hrequest⟩
  · split_ifs
    · exact hstill _ (by simp)
    · exact hstill _ (by simp)
  · split_ifs
    · exact hfail _ _ (by simp [Outcome.fail]) (noStats_of_nil rfl)
    · exact hstill _ (by simp)
  · exact hstill _ (by simp)

theorem onArrivals_counted (s : Session) (arrivals : List (ℕ × Incoming)) :
    Counted s (arrivals.filterMap fun arrival => arrival.2.frame?) (s.onArrivals arrivals) ∧
      NoStats (s.onArrivals arrivals) := by
  induction arrivals generalizing s with
  | nil => exact ⟨.quiet (fun _ => .none rfl rfl) (noStats_of_nil rfl), noStats_of_nil rfl⟩
  | cons arrival rest ih =>
    obtain ⟨hcounted, hquiet⟩ := onArrival_counted s arrival.1 arrival.2
    have hshards : (arrival :: rest).filterMap (fun arrival => arrival.2.frame?) =
        arrival.2.frame?.toList ++ rest.filterMap fun arrival => arrival.2.frame? := by
      rw [List.filterMap_cons]
      cases arrival.2.frame? <;> rfl
    rw [hshards]
    exact ⟨hcounted.andThen hquiet fun s' => (ih s').1, noStats_andThen hquiet fun s' => (ih s').2⟩

theorem branch_counted (s : Session) (now : ℕ) (b : Branch) :
    Counted s b.shards (s.branch now b) := by
  cases b with
  | packets arrivals =>
    have h := (onArrivals_counted { s with lastPacket := now } arrivals).1
    exact ⟨fun hnone => ⟨(h.running hnone).received, (h.running hnone).expected⟩,
      fun st hst => ⟨⟨(h.reports st hst).1.received, (h.reports st hst).1.expected⟩,
        (h.reports st hst).2⟩⟩
  | sinkReady => exact .quiet (fun _ => .none rfl rfl) (noStats_of_nil rfl)
  | statsTick =>
    refine ⟨fun _ => .none rfl rfl, fun st hst => ⟨.none rfl rfl, ?_⟩⟩
    have hsent : st = _ := Message.stats.inj (List.mem_singleton.mp hst)
    rw [hsent]
    exact ⟨rfl, rfl⟩
  | renakTick =>
    exact .quiet (fun _ => requestGaps_tallied s now) (requestGaps_noStats s now)
  | silence => exact .quiet (fun hnone => by cases hnone) (noStats_of_nil rfl)

theorem handOver_tallied (s : Session) (sink : Sink) (now : ℕ) :
    Tallied s [] (s.handOver rs sink now).session ∧ NoStats (s.handOver rs sink now) := by
  unfold handOver
  dsimp only
  split
  · exact ⟨.none rfl rfl, noStats_of_nil rfl⟩
  · next s₁ hr =>
    have h₁ : s₁.received = s.received ∧ s₁.highestSeq = s.highestSeq := by
      rcases refill_cases hr with ⟨_, rfl⟩ | ⟨_, ready, assembler, _, _, rfl, _⟩ <;> exact ⟨rfl, rfl⟩
    split_ifs
    · exact ⟨.none h₁.1 h₁.2, noStats_of_nil rfl⟩
    · exact ⟨.none h₁.1 h₁.2, noStats_of_nil rfl⟩

theorem conclude_tallied (s : Session) (now : ℕ) : Tallied s [] (s.conclude now).session := by
  rcases hcheck : s.checkByteTotal with e | _
  · rw [conclude, hcheck]
    exact .none rfl rfl
  · rw [conclude_of_check hcheck]
    exact .none rfl rfl

theorem conclude_reports (s : Session) (now : ℕ) {st : Stats}
    (hst : .stats st ∈ (s.conclude now).sent) :
    st.totalReceived = (s.conclude now).session.received ∧
      st.totalExpected = (s.conclude now).session.expected := by
  rcases hcheck : s.checkByteTotal with e | _
  · rw [conclude, hcheck] at hst
    simp [Outcome.fail] at hst
  · rw [conclude_of_check hcheck] at hst ⊢
    rcases List.mem_append.mp hst with hst | hst
    · rw [Message.stats.inj (List.mem_singleton.mp hst)]
      exact ⟨rfl, rfl⟩
    · simp at hst

/-- A turn counts the shards it was given, and reports the counts it ends with. -/
theorem turn_counted (rs : ReedSolomon) (s : Session) (now : ℕ) (b : Branch) (sink : Sink) :
    Counted s b.shards (s.turn rs now b sink) := by
  have hhand : Counted s b.shards ((s.branch now b).andThen fun s => s.handOver rs sink now) :=
    (branch_counted s now b).andThen_still (fun s' => (handOver_tallied s' sink now).1)
      fun s' st hst => absurd hst ((handOver_tallied s' sink now).2 st)
  refine hhand.andThen_still (fun s' => ?_) fun s' st hst => ?_
  · split_ifs
    · exact .none rfl rfl
    · exact conclude_tallied s' now
  · split_ifs at hst ⊢
    · simp at hst
    · exact conclude_reports s' now hst

/-- What the summary counts a last report has said. -/
theorem turn_summary {now : ℕ} {b : Branch} {sink : Sink} {summary : TransferSummary}
    (h : (s.turn rs now b sink).ended = some (.returned (.ok summary))) :
    ∃ st, .stats st ∈ (s.turn rs now b sink).sent ∧ summary.received = st.totalReceived ∧
      summary.expected = st.totalExpected := by
  rcases turn_cases rs s now b sink with ⟨hmoves, _⟩ | ⟨hended, _, heq⟩
  · exact absurd h (hmoves.not_ok summary)
  · rw [heq, Outcome.andThen_of_running hended] at h ⊢
    rcases hcheck : (s.beforeGuard rs now b sink).session.checkByteTotal with e | _
    · rw [conclude, hcheck] at h
      simp [Outcome.fail] at h
    · rw [conclude_of_check hcheck] at h ⊢
      simp only [Option.some.injEq, SessionEnd.returned.injEq, Except.ok.injEq] at h
      subst h
      refine ⟨_, List.mem_append_right _ (List.mem_append_left _ (List.mem_singleton_self _)), ?_⟩
      exact ⟨rfl, rfl⟩

theorem exec_tallied {hello : Hello} {receiverId : ℕ} {turns : List (ℕ × Branch × Sink)}
    (h : Labelled.exec (runs rs hello receiverId) turns s = some s') :
    Tallied s (shards turns) s' := by
  induction turns generalizing s with
  | nil =>
    cases h
    exact .none rfl rfl
  | cons turn rest ih =>
    obtain ⟨now, b, sink⟩ := turn
    obtain ⟨t, hturn, hrest⟩ := Option.bind_eq_some_iff.mp h
    simp only [runs] at hturn
    split_ifs at hturn with hgo
    cases hturn
    exact ((turn_counted rs s now b sink).running (Option.isNone_iff_eq_none.mp hgo.2)).trans
      (ih hrest)

/-- In every run of a session on shards of one emission, none of them twice: what the next turn
reports, and the summary it may end with, are exact just while no shard has been received that
was emitted after the first `2 ^ 32`. -/
theorem accounted_iff {hello : Hello} {receiverId started : ℕ} {s₀ : Session}
    (hnew : new hello receiverId started = .ok s₀) {turns : List (ℕ × Branch × Sink)}
    (hrun : Labelled.exec (runs rs hello receiverId) turns s₀ = some s) (now : ℕ) (b : Branch)
    (sink : Sink) {emitted : List Outbound} {order : List ℕ} (hnodup : order.Nodup)
    (horder : (shards (turns ++ [(now, b, sink)])).map some =
      order.map fun i => (numbered hello.transferId 0 emitted)[i]?) :
    (∀ st, .stats st ∈ (s.turn rs now b sink).sent →
        (Accounted order st ↔ ∀ i ∈ order, i < 2 ^ 32)) ∧
      ∀ summary, (s.turn rs now b sink).ended = some (.returned (.ok summary)) →
        (Summarised order summary ↔ ∀ i ∈ order, i < 2 ^ 32) := by
  have hlength : (shards (turns ++ [(now, b, sink)])).length = order.length := by
    simpa using congrArg List.length horder
  have hseqs : (shards (turns ++ [(now, b, sink)])).map Frame.seq =
      order.map (· % 2 ^ 32) := by
    apply List.map_injective_iff.mpr (Option.some_injective ℕ)
    have hmapped := congrArg (List.map (Option.map Frame.seq)) horder
    rw [List.map_map, List.map_map] at hmapped
    rw [List.map_map, List.map_map]
    refine hmapped.trans (List.map_congr_left fun i hi => ?_)
    have hmem : (numbered hello.transferId 0 emitted)[i]? ∈
        (shards (turns ++ [(now, b, sink)])).map some :=
      horder ▸ List.mem_map_of_mem hi
    obtain ⟨frame, -, hframe⟩ := List.mem_map.mp hmem
    simp only [Function.comp_apply, ← hframe, Option.map_some]
    rw [numbered_seq (by decide) hframe.symm, Nat.zero_add]
  have hcounts : ∀ st, .stats st ∈ (s.turn rs now b sink).sent →
      st.totalReceived = order.length ∧ st.totalExpected = reach (order.map (· % 2 ^ 32)) := by
    intro st hst
    obtain ⟨htallied, hreceived, hexpected⟩ := (turn_counted rs s now b sink).reports st hst
    have hall := (exec_tallied hrun).trans htallied
    obtain ⟨assembler, -, hfresh⟩ := bind_ok_iff.mp hnew
    cases hfresh
    have hjoin : shards turns ++ b.shards = shards (turns ++ [(now, b, sink)]) := by
      simp [shards]
    rw [hjoin] at hall
    rw [hreceived, hexpected, hall.received, hall.expected, hlength, hseqs]
    exact ⟨Nat.zero_add _, Nat.zero_max _⟩
  have hstats : ∀ st, .stats st ∈ (s.turn rs now b sink).sent →
      (Exact order st.totalReceived st.totalExpected ↔ ∀ i ∈ order, i < 2 ^ 32) := by
    intro st hst
    obtain ⟨hreceived, hexpected⟩ := hcounts st hst
    rw [hreceived, hexpected]
    exact exact_iff hnodup
  constructor
  · intro st hst
    rw [← hstats st hst]
    exact ⟨fun h => h.exact_counts, fun h => h.accounted (hcounts st hst).1 hnodup⟩
  · intro summary hsummary
    obtain ⟨st, hst, hreceived, hexpected⟩ := turn_summary hsummary
    rw [← hstats st hst, ← hreceived, ← hexpected]
    exact ⟨fun h => h.exact_counts, fun h => h.summarised⟩

/-- Two blocks a slice, and no parity. -/
def twoBlocks : Hello where
  transferId := 3
  geometry := (unprotected 2 (by decide) (by decide)).geometry
  totalBytes := none

/-- The first shard of the transfer, as the first message and each `2 ^ 32` later. -/
def firstShard : Frame := ⟨0, 0, 3, 0, 0, 1, [7, 7]⟩

/-- The session before anything has arrived. -/
def listening : Session :=
  fresh twoBlocks
    { geometry := twoBlocks.geometry
      codec := none
      codecWidth := 0
      slices := ∅
      nextNeeded := 0
      totalBlocks := none } 0 0

/-- Of three shards the last arrives first, and the second not at all. -/
theorem accounted_iff_reordered : ∃ s₀ s st, new twoBlocks 0 0 = .ok s₀ ∧
    Labelled.exec (runs .interpolated twoBlocks 0)
      [(0, .packets [(0, .shard ⟨1, 0, 3, 2, 0, 1, [8, 8]⟩), (0, .shard firstShard)], ⟨0, false⟩)]
      s₀ = some s ∧
    .stats st ∈ (s.turn .interpolated 0 .statsTick ⟨0, false⟩).sent ∧
      st.totalExpected = 3 ∧ st.totalReceived = 2 ∧ Accounted [2, 0] st := by
  have hnew : new twoBlocks 0 0 = .ok listening := rfl
  have hrun : Labelled.exec (runs .interpolated twoBlocks 0)
      [(0, .packets [(0, .shard ⟨1, 0, 3, 2, 0, 1, [8, 8]⟩), (0, .shard firstShard)], ⟨0, false⟩)]
      listening = some _ := rfl
  have horder : (shards ([(0, .packets [(0, .shard ⟨1, 0, 3, 2, 0, 1, [8, 8]⟩),
      (0, .shard firstShard)], ⟨0, false⟩)] ++ [(0, .statsTick, ⟨0, false⟩)])).map some =
        [2, 0].map fun i => (numbered twoBlocks.transferId 0
          [.shard 0 0 0 1 [7, 7], .shard 0 1 0 1 [8, 8], .shard 0 1 0 1 [8, 8]])[i]? := rfl
  refine ⟨_, _, _, hnew, hrun, List.mem_singleton.mpr rfl, rfl, rfl, ?_⟩
  refine ((accounted_iff hnew hrun 0 .statsTick ⟨0, false⟩ (by decide) horder).1 _
    (List.mem_singleton.mpr rfl)).mpr ?_
  decide

theorem numbered_replicate {transferId seq n i sliceNo slot sliceParity emitFloor : ℕ}
    {payload : Bytes} (hseq : seq < 2 ^ 32) (hi : i < n) :
    (numbered transferId seq
        (List.replicate n (.shard sliceNo slot sliceParity emitFloor payload)))[i]? =
      some ⟨slot, sliceParity, transferId % 2 ^ 32, (seq + i) % 2 ^ 32, sliceNo, emitFloor,
        payload⟩ := by
  induction n generalizing seq i with
  | zero => cases hi
  | succ n ih =>
    rw [List.replicate_succ, numbered]
    cases i with
    | zero => rw [List.getElem?_cons_zero, Nat.add_zero, Nat.mod_eq_of_lt hseq]
    | succ i =>
      rw [List.getElem?_cons_succ, ih (Nat.mod_lt _ (by decide)) (Nat.lt_of_succ_lt_succ hi),
        Nat.mod_add_mod, Nat.add_assoc, Nat.add_comm 1 i]

/-- After `2 ^ 32` losses the shard that arrives is reported as the first one emitted. -/
theorem wrapped_shard_is_miscounted : ∃ s₀ s st, new twoBlocks 0 0 = .ok s₀ ∧
    Labelled.exec (runs .interpolated twoBlocks 0)
      [(0, .packets [(0, .shard firstShard)], ⟨0, false⟩)] s₀ = some s ∧
    .stats st ∈ (s.turn .interpolated 0 .statsTick ⟨0, false⟩).sent ∧
      (shards [(0, .packets [(0, .shard firstShard)], ⟨0, false⟩), (0, .statsTick, ⟨0, false⟩)]).map
        some = [2 ^ 32].map (fun i =>
          (numbered 3 0 (List.replicate (2 ^ 32 + 1) (.shard 0 0 0 1 [7, 7])))[i]?) ∧
      st.totalExpected = 1 ∧ ¬ Accounted [2 ^ 32] st := by
  refine ⟨_, _, _, rfl, rfl, List.mem_singleton_self _, ?_, rfl, ?_⟩
  · rw [List.map_singleton, numbered_replicate (by decide) (Nat.lt_succ_self _)]
    rfl
  · intro h
    have hreach : 1 = reach [2 ^ 32] := h.exact_counts.expected_eq
    simp [reach] at hreach

end Session
end Scuttlecast
