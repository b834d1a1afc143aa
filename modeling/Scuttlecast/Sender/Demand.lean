import Scuttlecast.Sender.Holdoff

/-! Repair demand. Reports cut what a participant's receiver counts into windows, and the shards it
asked for are charged to the window in which it did. -/
namespace Scuttlecast

/-- The counters as one window is closed and the next opened. -/
structure Mark where
  received : ℕ
  expected : ℕ
  requested : ℕ
  deriving DecidableEq, Repr

/-- A window that a report has closed, with the demand found for it. -/
structure LossWindow where
  opened : Mark
  closed : Mark
  demand : ℚ
  deriving DecidableEq

namespace LossWindow

def transmissions (w : LossWindow) : ℕ := w.closed.expected - w.opened.expected

def requested (w : LossWindow) : ℕ := w.closed.requested - w.opened.requested

end LossWindow

namespace Participant

/-- Where the window now open begins. -/
def mark (p : Participant) : Option Mark :=
  p.lastReport.map fun report => ⟨report.1, report.2, p.requestedAtLastWindow⟩

/-- The counters of the window now open and the losses found for the last one are the same. -/
structure SameWindow (p p' : Participant) : Prop where
  lastReport : p'.lastReport = p.lastReport
  requestedAtLastWindow : p'.requestedAtLastWindow = p.requestedAtLastWindow
  windowedLoss : p'.windowedLoss = p.windowedLoss
  unrecoveredLoss : p'.unrecoveredLoss = p.unrecoveredLoss

theorem SameWindow.mark_eq {p p' : Participant} (h : SameWindow p p') : p'.mark = p.mark := by
  rw [mark, mark, h.lastReport, h.requestedAtLastWindow]

/-- The report closes the window that began at the mark. -/
structure Closes (p : Participant) (stats : Stats) (m : Mark) (result : Option ℚ × Participant) :
    Prop where
  expected : m.expected + minLossSample ≤ stats.totalExpected
  received : m.received ≤ stats.totalReceived
  demand : result.1 = some (min (((p.shardsRequested - m.requested : ℕ) : ℚ) /
    ((stats.totalExpected - m.expected : ℕ) : ℚ)) 1)
  mark : result.2.mark = some ⟨stats.totalReceived, stats.totalExpected, p.shardsRequested⟩
  requested : result.2.shardsRequested = p.shardsRequested
  loss : result.2.windowedLoss = some (1 - ((stats.totalReceived - m.received : ℕ) : ℚ) /
    ((stats.totalExpected - m.expected : ℕ) : ℚ))

/-- What a report can do: begin the first window, leave the open one as it is, or close it. -/
theorem report_cases (p : Participant) (stats : Stats) :
    (p.mark = none ∧ (p.report stats).1 = none ∧
        (p.report stats).2.mark =
          some ⟨stats.totalReceived, stats.totalExpected, p.shardsRequested⟩ ∧
        (p.report stats).2.shardsRequested = p.shardsRequested ∧
        (p.report stats).2.windowedLoss = p.windowedLoss) ∨
      (∃ m, p.mark = some m ∧ (p.report stats).1 = none ∧
        (p.report stats).2.shardsRequested = p.shardsRequested ∧
        SameWindow p (p.report stats).2) ∨
      ∃ m, p.mark = some m ∧ p.Closes stats m (p.report stats) := by
  unfold report mark
  dsimp only
  rcases hlast : p.lastReport with _ | ⟨seen, before⟩
  · exact .inl ⟨rfl, rfl, rfl, rfl, rfl⟩
  dsimp only
  by_cases hshort : stats.totalExpected ≤ before ∨ stats.totalReceived < seen ∨
      stats.totalExpected - before < minLossSample
  · rw [if_pos hshort]
    exact .inr (.inl ⟨_, rfl, rfl, rfl, hlast.symm, rfl, rfl, rfl⟩)
  · rw [if_neg hshort]
    rw [not_or, not_or] at hshort
    refine .inr (.inr ⟨_, rfl, ?_, ?_, rfl, rfl, rfl, rfl⟩) <;> dsimp only <;> omega

end Participant

/-- What there is to be told of one participant since it joined: the shards it asked for, where its
first window began and every window closed. -/
structure Account where
  asked : ℕ
  baseline : Option Mark
  windows : List LossWindow

namespace Account

def opened : Account := ⟨0, none, []⟩

/-- The account after a report on a participant in this state. -/
def reported (a : Account) (p : Participant) (stats : Stats) : Account :=
  let (demand, p') := p.report stats
  match p.mark, p'.mark, demand with
  | none, began, _ => { a with baseline := began }
  | some opened, some closed, some demand =>
    { a with windows := a.windows ++ [⟨opened, closed, demand⟩] }
  | _, _, _ => a

/-- The account of the participant `id` after a call on its group. -/
def after (g : Group) (id : ℕ) (a : Account) : Group.Call → Account
  | .join receiverId => if receiverId = id then opened else a
  | .nak _ nak =>
    if nak.receiverId = id ∧ ¬ g.nobodyNeeds nak.sliceNo then
      { a with asked := a.asked + nak.missing.length }
    else a
  | .demand stats =>
    if stats.receiverId = id then
      match g.participants.lookup id with
      | some p => a.reported p stats
      | none => a
    else a
  | _ => a

/-- The windows follow one another from the first mark to the last, each is large enough to count
and has the demand of what was asked for in it, and all of them together are charged with exactly
what was asked for between the first mark and the last. -/
structure Charges (a : Account) (p : Participant) : Prop where
  asked : p.shardsRequested = a.asked
  baseline : a.baseline = none ↔ p.mark = none
  first : ∀ w ∈ a.windows.head?, a.baseline = some w.opened
  consecutive : a.windows.IsChain fun w next => w.closed = next.opened
  last : p.mark = (a.windows.getLast?.map LossWindow.closed).or a.baseline
  sample : ∀ w ∈ a.windows, w.opened.expected + minLossSample ≤ w.closed.expected
  ordered : ∀ w ∈ a.windows, w.opened.received ≤ w.closed.received ∧
    w.opened.requested ≤ w.closed.requested
  demand : ∀ w ∈ a.windows, w.demand = min ((w.requested : ℚ) / w.transmissions) 1
  transmissions : ∀ began ∈ a.baseline, ∀ m ∈ p.mark,
    began.expected + (a.windows.map LossWindow.transmissions).sum = m.expected
  requested : ∀ began ∈ a.baseline, ∀ m ∈ p.mark,
    began.requested + (a.windows.map LossWindow.requested).sum = m.requested
  below : ∀ m ∈ p.mark, m.requested ≤ p.shardsRequested

variable {a : Account} {p p' : Participant}

theorem charges_new : opened.Charges .new := by
  constructor <;> simp [opened, Participant.new, Participant.mark]

theorem Charges.asking (h : a.Charges p) (n : ℕ) (hmark : p'.mark = p.mark)
    (hrequested : p'.shardsRequested = p.shardsRequested + n) :
    Charges { a with asked := a.asked + n } p' := by
  obtain ⟨asked, baseline, first, consecutive, last, sample, ordered, demand, transmissions,
    requested, below⟩ := h
  refine ⟨?_, ?_, first, consecutive, ?_, sample, ordered, demand, ?_, ?_, ?_⟩
  · rw [hrequested, asked]
  · rw [hmark, baseline]
  · rw [hmark, last]
  · rw [hmark]
    exact transmissions
  · rw [hmark]
    exact requested
  · rw [hmark, hrequested]
    exact fun m hm => (below m hm).trans (Nat.le_add_right ..)

/-- An account is of the marks and the shards asked for. -/
theorem Charges.congr (h : a.Charges p) (hmark : p'.mark = p.mark)
    (hrequested : p'.shardsRequested = p.shardsRequested) : a.Charges p' :=
  h.asking 0 hmark hrequested

/-- Without a first mark there is no window yet. -/
theorem Charges.windows_eq_nil (h : a.Charges p) (hnone : p.mark = none) : a.windows = [] := by
  rw [← List.head?_eq_none_iff, Option.eq_none_iff_forall_ne_some]
  intro w hw
  have hfirst := h.first w hw
  rw [h.baseline.mpr hnone] at hfirst
  cases hfirst

/-- The first report begins the first window. -/
theorem Charges.began (h : a.Charges p) (hnone : p.mark = none) {m : Mark}
    (hmark : p'.mark = some m) (hrequested : p'.shardsRequested = p.shardsRequested)
    (hm : m.requested = p.shardsRequested) : Charges { a with baseline := some m } p' := by
  have hwindows := h.windows_eq_nil hnone
  constructor <;> simp only [hwindows, hmark]
  case asked => rw [hrequested, h.asked]
  case below =>
    intro m' hm'
    rw [← Option.some.inj hm', hm, hrequested]
  all_goals simp

/-- A report that closes a window adds it to those closed. -/
theorem Charges.closed (h : a.Charges p) {m : Mark} (hm : p.mark = some m) {stats : Stats}
    {result : Option ℚ × Participant} (hc : p.Closes stats m result) :
    ∃ closed demand, result.2.mark = some closed ∧ result.1 = some demand ∧
      Charges { a with windows := a.windows ++ [⟨m, closed, demand⟩] } result.2 := by
  have hbelow := h.below m hm
  refine ⟨_, _, hc.mark, hc.demand, ?_⟩
  constructor
  case asked => rw [hc.requested, h.asked]
  case baseline =>
    rw [h.baseline, hm, hc.mark]
    simp
  case first =>
    intro w hw
    rw [List.head?_append] at hw
    rcases hhead : a.windows.head? with _ | first
    · rw [hhead, Option.none_or, List.head?_singleton] at hw
      rw [List.head?_eq_none_iff] at hhead
      have hlast := h.last
      rw [hm, hhead] at hlast
      cases hw
      exact hlast.symm
    · rw [hhead, Option.some_or] at hw
      cases hw
      exact h.first _ hhead
  case consecutive =>
    rw [List.isChain_append]
    refine ⟨h.consecutive, List.isChain_singleton _, fun w hw next hnext => ?_⟩
    have hlast := h.last
    rw [hm, hw, Option.map_some, Option.some_or] at hlast
    cases hnext
    exact (Option.some.inj hlast).symm
  case last =>
    rw [hc.mark, List.getLast?_concat, Option.map_some, Option.some_or]
  case sample =>
    rw [List.forall_mem_append, List.forall_mem_singleton]
    exact ⟨h.sample, hc.expected⟩
  case ordered =>
    rw [List.forall_mem_append, List.forall_mem_singleton]
    exact ⟨h.ordered, ⟨hc.received, hbelow⟩⟩
  case demand =>
    rw [List.forall_mem_append, List.forall_mem_singleton]
    exact ⟨h.demand, rfl⟩
  case transmissions =>
    intro began hbegan m' hm'
    rw [hc.mark, Option.mem_some_iff] at hm'
    have hsum := h.transmissions began hbegan m hm
    have hle := hc.expected
    rw [← hm', List.map_append, List.sum_append, List.map_singleton, List.sum_singleton,
      LossWindow.transmissions]
    simp only
    omega
  case requested =>
    intro began hbegan m' hm'
    rw [hc.mark, Option.mem_some_iff] at hm'
    have hsum := h.requested began hbegan m hm
    rw [← hm', List.map_append, List.sum_append, List.map_singleton, List.sum_singleton,
      LossWindow.requested]
    simp only
    omega
  case below =>
    intro m' hm'
    rw [hc.mark, Option.mem_some_iff] at hm'
    rw [← hm', hc.requested]

/-- A report begins the first window, changes nothing, or adds the window it closes. -/
theorem Charges.reported (h : a.Charges p) (stats : Stats) :
    (a.reported p stats).Charges (p.report stats).2 := by
  unfold Account.reported
  rcases p.report_cases stats with ⟨hnone, -, hmark, hrequested, -⟩ |
    ⟨m, hm, hdemand, hrequested, hsame⟩ | ⟨m, hm, hcloses⟩
  · simp only [hnone, hmark]
    exact h.began hnone hmark hrequested rfl
  · simp only [hm, hsame.mark_eq, hdemand]
    exact h.congr hsame.mark_eq hrequested
  · obtain ⟨closed, demand, hmark, hdemand, hcharges⟩ := h.closed hm hcloses
    simp only [hm, hmark, hdemand]
    exact hcharges

end Account

namespace Group

/-- What a call makes of the participant `id`, where it leaves it in the group. -/
def act (g : Group) (id : ℕ) (p : Participant) : Call → Participant
  | .nak _ nak =>
    if nak.receiverId = id ∧ ¬ g.nobodyNeeds nak.sliceNo then
      { p with naks := p.naks + 1, shardsRequested := p.shardsRequested + nak.missing.length }
    else p
  | .stats stats =>
    if stats.receiverId = id then
      { p with nextNeeded := stats.nextNeededSlice
               reachedEnd := g.totalSlices.any (· ≤ stats.nextNeededSlice) }
    else p
  | .demand stats => if stats.receiverId = id then (p.report stats).2 else p
  | .seen receiverId now => if receiverId = id then { p with lastSeen := some now } else p
  | .eof _ => { p with reachedEnd := false }
  | _ => p

variable {g : Group} {c : Call} {id : ℕ} {p' : Participant}

theorem participants_advance (g : Group) : g.advance.2.participants = g.participants := by
  rcases g.advance_cases with heq | ⟨-, suppressed, heq⟩
  · rw [heq]
  · rw [heq]

/-- A participant has just joined, or it was one before the call. -/
theorem lookup_call (h : (g.call c).participants.lookup id = some p') :
    (c = .join id ∧ p' = .new) ∨
      c ≠ .join id ∧ ∃ p, g.participants.lookup id = some p ∧ p' = g.act id p c := by
  cases c with
  | join receiverId =>
    rw [call, join, Table.lookup_insert'] at h
    split_ifs at h with hid
    · cases h
      exact .inl ⟨by rw [hid], rfl⟩
    · refine .inr ⟨fun heq => ?_, p', h, rfl⟩
      cases heq
      exact hid rfl
  | leave receiverId =>
    rw [call, leave, Table.lookup_erase'] at h
    split_ifs at h
    exact .inr ⟨by simp, p', h, rfl⟩
  | reap now timeout =>
    rw [call, reapSilent, Table.lookup_eraseAll] at h
    split_ifs at h
    exact .inr ⟨by simp, p', h, rfl⟩
  | seen receiverId now =>
    rw [call, markSeen, Table.lookup_modify_eq_some] at h
    exact .inr ⟨by simp, h⟩
  | emitted slices => exact .inr ⟨by simp, p', h, rfl⟩
  | eof totalSlices =>
    rw [call, onEof, Table.lookup_mapValues] at h
    obtain ⟨p, hp, rfl⟩ := Option.map_eq_some_iff.mp h
    exact .inr ⟨by simp, p, hp, rfl⟩
  | demand stats =>
    refine .inr ⟨by simp, ?_⟩
    rw [call, repairDemand] at h
    split at h
    next hnone => exact ⟨p', h, (if_neg (Table.ne_of_lookup hnone h)).symm⟩
    next p hp => exact (Table.lookup_insert_eq_some (f := fun p => (p.report stats).2) hp).mp h
  | stats stats =>
    refine .inr ⟨by simp, ?_⟩
    rw [call] at h
    rcases g.onStats_cases stats with ⟨hnone, heq⟩ | ⟨p, hp, heq⟩ <;> rw [heq] at h
    · exact ⟨p', h, (if_neg (Table.ne_of_lookup hnone h)).symm⟩
    · rw [participants_advance] at h
      exact (Table.lookup_insert_eq_some (f := fun p => { p with
        nextNeeded := stats.nextNeededSlice
        reachedEnd := g.totalSlices.any (· ≤ stats.nextNeededSlice) }) hp).mp h
  | nak now nak =>
    refine .inr ⟨by simp, ?_⟩
    rw [call] at h
    rcases g.onNak_frame nak now with ⟨hunheard, heq⟩ | ⟨-, hfloor, suppressed, heq⟩ <;>
      rw [heq] at h
    · refine ⟨p', h, (if_neg ?_).symm⟩
      rintro ⟨rfl, hneeded⟩
      have hin : g.contains nak.receiverId := by
        rw [contains, decide_eq_true_iff, Table.mem_iff_lookup]
        exact ⟨p', h⟩
      rcases hunheard with hout | hbelow
      · rw [hout] at hin
        cases hin
      · exact hneeded (decide_eq_true hbelow)
    · have hneeded : ¬ g.nobodyNeeds nak.sliceNo := by simpa [nobodyNeeds] using hfloor
      simp only [act, hneeded, Bool.false_eq_true, not_false_eq_true, and_true]
      exact Table.lookup_modify_eq_some.mp h

end Group

/-- A group, with the account of one of its participants. -/
structure Books where
  group : Group
  account : Account

namespace Books

/-- All sequences of calls on a group. -/
def calls (id : ℕ) : Labelled.System Books Group.Call where
  init b := b = ⟨.empty, .opened⟩
  next c b := some ⟨b.group.call c, b.account.after b.group id c⟩

variable {id : ℕ} {b b' : Books}

/-- The account of a participant is of the state it is in. -/
def Charged (id : ℕ) (b : Books) : Prop :=
  ∀ p, b.group.participants.lookup id = some p → b.account.Charges p

theorem Charged.next (h : b.Charged id) (c : Group.Call) :
    Charged id ⟨b.group.call c, b.account.after b.group id c⟩ := by
  intro p' hp'
  rcases Group.lookup_call hp' with ⟨rfl, rfl⟩ | ⟨hjoin, p, hp, rfl⟩
  · simp only [Account.after, if_pos]
    exact Account.charges_new
  have hcharges := h p hp
  cases c with
  | join receiverId =>
    have hne : receiverId ≠ id := fun heq => hjoin (by rw [heq])
    simp only [Account.after, Group.act, if_neg hne]
    exact hcharges
  | nak now nak =>
    simp only [Account.after, Group.act]
    split_ifs
    · exact hcharges.asking nak.missing.length rfl rfl
    · exact hcharges
  | demand stats =>
    simp only [Account.after, Group.act, hp]
    split_ifs
    · exact hcharges.reported stats
    · exact hcharges
  | stats stats =>
    simp only [Account.after, Group.act]
    split_ifs
    · exact hcharges.congr rfl rfl
    · exact hcharges
  | seen receiverId now =>
    simp only [Account.after, Group.act]
    split_ifs
    · exact hcharges.congr rfl rfl
    · exact hcharges
  | eof totalSlices => exact hcharges.congr rfl rfl
  | _ => exact hcharges

theorem charged_of_reachable (h : Labelled.Reachable (calls id) b) : b.Charged id := by
  apply h.invariant
  · rintro b rfl p hp
    cases hp
  · intro c b b' _ hb hn
    cases hn
    exact hb.next c

/-- A report that closes no window leaves the one now open alone. -/
theorem sameWindow_of_report {p : Participant} {stats : Stats} (h : (p.report stats).1 = none)
    (hmark : p.mark ≠ none) : p.SameWindow (p.report stats).2 := by
  rcases p.report_cases stats with ⟨hnone, -⟩ | ⟨-, -, -, -, hsame⟩ | ⟨m, -, hcloses⟩
  · exact absurd hnone hmark
  · exact hsame
  · rw [hcloses.demand] at h
    cases h

/-- However requests and reports of a participant follow one another after it has joined, every
shard it asked for is charged to one window. Only a report that closes the window changes what is
kept of it, and no difference of counters that such a report takes is one below zero. -/
theorem demand_is_charged_once (h : Labelled.Reachable (calls id) b) {p : Participant}
    (hp : b.group.participants.lookup id = some p) :
    b.account.Charges p ∧ ∀ stats,
      ((p.report stats).1 = none → p.mark ≠ none → p.SameWindow (p.report stats).2) ∧
      ∀ demand, (p.report stats).1 = some demand → ∃ m, p.mark = some m ∧
        m.received ≤ stats.totalReceived ∧ m.expected + minLossSample ≤ stats.totalExpected ∧
          m.requested ≤ p.shardsRequested := by
  have hcharges := charged_of_reachable h p hp
  refine ⟨hcharges, fun stats => ⟨sameWindow_of_report, fun demand hdemand => ?_⟩⟩
  rcases p.report_cases stats with ⟨-, hnone, -⟩ | ⟨-, -, hnone, -⟩ | ⟨m, hm, hcloses⟩
  · rw [hnone] at hdemand
    cases hdemand
  · rw [hnone] at hdemand
    cases hdemand
  · exact ⟨m, hm, hcloses.received, hcloses.expected, hcharges.below m hm⟩

/-- A report of too few transmissions closes nothing, and the next one closes a window over both.
What is asked for after that belongs to the window that is closed then. -/
theorem demand_is_charged_once_small : ∃ b p, Labelled.Reachable (calls 1) b ∧
    b.group.participants.lookup 1 = some p ∧ b.account.Charges p ∧
    b.account.windows =
      [⟨⟨0, 0, 0⟩, ⟨150, 200, 3⟩, 3 / 200⟩, ⟨⟨150, 200, 3⟩, ⟨350, 450, 4⟩, 1 / 250⟩] := by
  let report (received expected : ℕ) : Group.Call := .demand ⟨7, 1, received, expected, 0, 0⟩
  obtain ⟨b, hrun, p, hp, hwindows⟩ : ∃ b, Labelled.exec (calls 1) [.join 1, report 0 0,
      .nak 0 ⟨7, 1, 0, [0, 1]⟩, report 90 100, .nak 1 ⟨7, 1, 0, [2]⟩, report 150 200,
      .nak 2 ⟨7, 1, 1, [0]⟩, report 350 450] ⟨.empty, .opened⟩ = some b ∧
        ∃ p, b.group.participants.lookup 1 = some p ∧ b.account.windows =
          [⟨⟨0, 0, 0⟩, ⟨150, 200, 3⟩, 3 / 200⟩, ⟨⟨150, 200, 3⟩, ⟨350, 450, 4⟩, 1 / 250⟩] := by
    refine ⟨_, rfl, _, rfl, ?_⟩
    decide +kernel
  have hreach : Labelled.Reachable (calls 1) b := .exec (.start rfl) hrun
  exact ⟨b, p, hreach, hp, (demand_is_charged_once hreach hp).1, hwindows⟩

end Books
end Scuttlecast
