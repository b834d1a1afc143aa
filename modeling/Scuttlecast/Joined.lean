import Scuttlecast.Admitted
import Scuttlecast.Campaign
import Scuttlecast.Receiver.Timeless

/-! However and whenever a receiver has joined, the transfer goes on as if it had been there from the
start: a run from the first `Hello` on stands for a run of the composed system. -/
namespace Scuttlecast
namespace Deployment

variable {rs : ReedSolomon} {losing : Losing} {sender : Sender} {d d' : Deployment}
  {peers : ℕ → Peer}

/-- The same but for the receivers. -/
def withPeers (d : Deployment) (peers : ℕ → Peer) : Deployment := { d with peers := peers }

theorem guarded_map {α β : Type} {p q : Prop} [Decidable p] [Decidable q] (h : q ↔ p) {x : α} {y : β}
    {f : α → β} (hxy : y = f x) :
    (if q then some y else none) = (if p then some x else none).map f := by
  by_cases hp : p
  · rw [if_pos hp, if_pos (h.mpr hp), hxy, Option.map_some]
  · rw [if_neg hp, if_neg (mt h.mp hp), Option.map_none]

/-- The action takes no look at how far the receivers are. -/
def Action.Blind : Action → Prop
  | .turn .. | .flush _ => False
  | _ => True

theorem next_of_blind {act : Action} (hblind : act.Blind) :
    next rs losing sender act (d.withPeers peers) =
      (next rs losing sender act d).map fun d => d.withPeers peers := by
  cases act with
  | turn r now woken sink => exact hblind.elim
  | flush r => exact hblind.elim
  | read =>
    simp only [next, stepRead, withPeers, Option.map_map]
    rfl
  | feedback =>
    have hfeedback : (d.withPeers peers).feedback = d.feedback := rfl
    simp only [next, stepFeedback, hfeedback]
    cases d.feedback with
    | nil => rfl
    | cons message rest =>
      exact guarded_map Iff.rfl rfl
  | queue =>
    have htask : (d.withPeers peers).task = d.task := rfl
    have houtbound : (d.withPeers peers).outbound = d.outbound := rfl
    simp only [next, stepQueue, htask, houtbound]
    cases d.task.todo with
    | nil => rfl
    | cons message rest =>
      exact guarded_map Iff.rfl rfl
  | round r heard =>
    simp only [next, stepRound]
    by_cases hguard : d.halted.isNone ∧ d.sender.Enabled r ∧
        d.Offers losing sender.config.transferId r heard
    · have hguard' : (d.withPeers peers).halted.isNone ∧ (d.withPeers peers).sender.Enabled r ∧
          (d.withPeers peers).Offers losing sender.config.transferId r heard := hguard
      rw [if_pos hguard, if_pos hguard']
      dsimp only [withPeers]
      cases d.sender.turn sender r with
      | error p => rfl
      | ok s =>
        dsimp only
        cases Sent.all s.egress.sent <;> rfl
    · have hguard' : ¬ ((d.withPeers peers).halted.isNone ∧ (d.withPeers peers).sender.Enabled r ∧
          (d.withPeers peers).Offers losing sender.config.transferId r heard) := hguard
      rw [if_neg hguard, if_neg hguard']
      rfl
  | refused heard =>
    simp only [next, stepRefused]
    by_cases hheard : d.halted.isNone ∧ ∀ datagram ∈ heard, datagram ∈ d.uplink
    · have hheard' : (d.withPeers peers).halted.isNone ∧
          ∀ datagram ∈ heard, datagram ∈ (d.withPeers peers).uplink := hheard
      rw [if_pos hheard, if_pos hheard']
      rcases recvControl losing.sender (some sender.config.transferId) heard with
        p | _ | e | message <;> rfl
    · have hheard' : ¬ ((d.withPeers peers).halted.isNone ∧
          ∀ datagram ∈ heard, datagram ∈ (d.withPeers peers).uplink) := hheard
      rw [if_neg hheard, if_neg hheard']
      rfl
  | cut error =>
    simp only [next]
    exact guarded_map Iff.rfl rfl
  | cutReceiver r error =>
    simp only [next]
    exact guarded_map Iff.rfl rfl
  | write r n =>
    simp only [next, stepPump, withPeers, Option.map_map]
    rfl
  | writerFails r error n =>
    simp only [next, stepPump, withPeers, Option.map_map]
    rfl
  | strayDown r datagram =>
    simp only [next]
    exact guarded_map Iff.rfl rfl
  | strayUp datagram =>
    simp only [next]
    exact guarded_map Iff.rfl rfl
  | loseDown r datagram => rfl
  | loseUp datagram => rfl

theorem peers_of_blind {act : Action} (hblind : act.Blind)
    (hn : next rs losing sender act d = some d') : d'.peers = d.peers := by
  have hsame : next rs losing sender act (d.withPeers d.peers) = some (d'.withPeers d.peers) := by
    rw [next_of_blind hblind, hn, Option.map_some]
  have heq := congrArg peers (Option.some.inj (hn.symm.trans hsame))
  exact heq

/-- Whoever does not act stays as it is. -/
theorem peers_next {act : Action} (hn : next rs losing sender act d = some d') {r : ℕ}
    (hr : act.receiver ≠ some r) : d'.peers r = d.peers r := by
  by_cases hblind : act.Blind
  · rw [peers_of_blind hblind hn]
  cases act with
  | turn r' now woken sink =>
    have hne : r ≠ r' := fun h => hr (congrArg some h.symm)
    simp only [next, stepTurn] at hn
    split_ifs at hn
    split at hn
    · cases hn
      rfl
    · cases hn
    · split_ifs at hn
      cases hn
      unfold afterTurn
      split_ifs
      · split
        · rfl
        · exact Function.update_of_ne hne _ _
      · rfl
  | flush r' =>
    simp only [next] at hn
    split_ifs at hn
    obtain ⟨pump, -, rfl⟩ := Option.map_eq_some_iff.mp hn
    rfl
  | _ => exact absurd trivial hblind

theorem ended_of_timeless {p q : Peer} (h : p.timeless = q.timeless) :
    p.ended.isNone = q.ended.isNone := by
  have hended := congrArg Peer.ended h
  simp only [Peer.timeless] at hended
  cases hp : p.ended <;> cases hq : q.ended <;> simp [hp, hq] at hended ⊢

theorem enabled_of_timeless {p q : Peer} (h : p.timeless = q.timeless) (now : ℕ)
    (b : Session.Branch) : p.session.Enabled now b ↔ q.session.Enabled now b := by
  have hsession : p.session.since 0 = q.session.since 0 := congrArg Peer.session h
  have hsince (s : Session) : s.Enabled now b ↔ (s.since 0).Enabled now b := by
    cases b <;> exact Iff.rfl
  rw [hsince, hsession, ← hsince]

/-- A turn of one of two sessions that were started at different times. -/
theorem afterTurn_withPeers (hsame : ∀ r, (peers r).timeless = (d.peers r).timeless) (r now : ℕ)
    (b : Session.Branch) (sink : Sink) : ∃ peers',
      (d.withPeers peers).afterTurn r ((peers r).session.turn rs now b sink) =
        (d.afterTurn r ((d.peers r).session.turn rs now b sink)).withPeers peers' ∧
      ∀ r', (peers' r').timeless =
        ((d.afterTurn r ((d.peers r).session.turn rs now b sink)).peers r').timeless := by
  obtain ⟨hafter, hsent, hhanded, hreceived⟩ :=
    Peer.timeless_after rs (hsame r) now b sink
  unfold afterTurn
  rw [hsent, hhanded, hreceived]
  split_ifs
  · cases Sent.all (((d.peers r).session.turn rs now b sink).sent.map .control) with
    | error h => exact ⟨peers, rfl, hsame⟩
    | ok datagrams =>
      refine ⟨_, rfl, fun r' => ?_⟩
      by_cases hr : r' = r
      · subst hr
        rw [Peer.after, hhanded] at hafter
        simp only [Function.update_self]
        exact hafter
      · simp only [Function.update_of_ne hr]
        exact hsame r'
  · exact ⟨peers, rfl, hsame⟩

/-- A step with receivers whose sessions were started at other times. -/
theorem next_withPeers {act : Action} (hsame : ∀ r, (peers r).timeless = (d.peers r).timeless)
    (hn : next rs losing sender act d = some d') : ∃ peers',
      next rs losing sender act (d.withPeers peers) = some (d'.withPeers peers') ∧
        ∀ r, (peers' r).timeless = (d'.peers r).timeless := by
  by_cases hblind : act.Blind
  · refine ⟨peers, by rw [next_of_blind hblind, hn, Option.map_some], fun r => ?_⟩
    rw [peers_of_blind hblind hn, hsame r]
  cases act with
  | turn r now woken sink =>
    simp only [next, stepTurn] at hn ⊢
    split_ifs at hn with hguard
    have hguard' : r < 2 ^ 64 ∧ ((d.withPeers peers).halts r).isNone ∧
        ((d.withPeers peers).peers r).ended.isNone ∧
          (((d.withPeers peers).pumps r).result.isSome → sink = ⟨0, true⟩) :=
      ⟨hguard.1, hguard.2.1, (ended_of_timeless (hsame r)).trans hguard.2.2.1, hguard.2.2.2⟩
    have hwake : (d.withPeers peers).wake losing sender.config.transferId r woken =
        d.wake losing sender.config.transferId r woken := rfl
    rw [if_pos hguard', hwake]
    split at hn
    · next h hfails =>
      cases hn
      exact ⟨peers, rfl, hsame⟩
    · cases hn
    · next branch hbranch =>
      split_ifs at hn with henabled
      cases hn
      have henabled' : ((d.withPeers peers).peers r).session.Enabled now branch :=
        (enabled_of_timeless (hsame r) now branch).mpr henabled
      obtain ⟨peers', heq, hsame'⟩ := afterTurn_withPeers hsame r now branch sink
      refine ⟨peers', ?_, hsame'⟩
      rw [← heq]
      exact if_pos henabled'
  | flush r =>
    simp only [next] at hn ⊢
    split_ifs at hn with hover
    have hended : (peers r).ended.isSome = (d.peers r).ended.isSome := by
      rw [← Option.not_isNone, ended_of_timeless (hsame r), Option.not_isNone]
    have hover' : (d.withPeers peers).Over r := hover.imp_left hended.trans
    obtain ⟨pump, hpump, rfl⟩ := Option.map_eq_some_iff.mp hn
    refine ⟨peers, ?_, hsame⟩
    rw [if_pos hover']
    exact Option.map_eq_some_iff.mpr ⟨pump, hpump, rfl⟩
  | _ => exact absurd trivial hblind

end Deployment

namespace World

variable {rs : ReedSolomon} {config : Config} {reader : Reader} {w w' : World}

/-- The only `Hello` there is, is the transfer's. -/
theorem hello_of_reachable (h : Labelled.Reachable (system rs config reader) w) {r : ℕ}
    {hello : Hello} (hi : .control (.hello hello) ∈ w.air r) : hello = config.hello := by
  suffices hall : ∀ r hello, .control (.hello hello) ∈ w.air r → hello = config.hello from
    hall r hello hi
  refine Labelled.Reach.invariant_on
    (I := fun w => ∀ r hello, .control (.hello hello) ∈ w.air r → hello = config.hello)
    (J := fun w => ∃ L, w.Sound rs config reader L) (fun _ => sound_of_reachable) ?_ ?_ h
  · rintro w ⟨gathered, now, hstart⟩ r hello hi
    obtain ⟨-, slicer, assembler, -, -, rfl⟩ := start_eq_ok hstart
    cases hi
  · rintro a w w' - ⟨L, hs⟩ - hall hn
    have hloop {w : World} (hall : ∀ r hello, .control (.hello hello) ∈ w.air r →
        hello = config.hello) {o : LoopOutcome} (hnone : ∀ hello,
          .control (.hello hello) ∈ o.multicast → hello = config.hello) (r : ℕ) (hello : Hello)
        (hi : .control (.hello hello) ∈ (w.afterLoop o).air r) : hello = config.hello := by
      obtain ⟨verdict, heq⟩ := o.settle_eq
      simp only [afterLoop, heq] at hi
      rcases List.mem_append.mp hi with hi | hi
      · exact hall r hello hi
      · exact hnone hello hi
    cases step_of_next hn with
    | read => exact hall
    | feedback => exact hall
    | queue => exact hall
    | @egress _ message rest now =>
      refine hloop (w := { w with outbound := rest }) hall fun hello hi => ?_
      cases message <;> simp [SendLoop.egress, SendLoop.doneMessage] at hi
    | egressClosed => exact hloop hall (by simp [SendLoop.egressClosed])
    | tick now idle wanted =>
      refine hloop hall fun hello hi => ?_
      rcases SendLoop.mem_tick_multicast hi with ⟨evicted, heq⟩ | ⟨-, heq⟩ | heq
      · cases heq
      · cases heq
      · cases heq
        rw [hs.config]
    | deadline now => exact hloop hall (by simp [SendLoop.deadline])
    | control now message =>
      obtain ⟨group, feedback, heq⟩ := control_cases w.loop now message
      exact hloop hall (by simp [heq])
    | turn => exact hall
    | loseDown _ r arrival => exact fun r' hello hi => hall r' hello (mem_air_of_lost hi)
    | loseUp => exact hall

/-- A tick right at the start: nobody is silent yet, and all that happens is another `Hello`. -/
theorem next_tick_of_start (rs : ReedSolomon) {gathered : List Message} {now : ℕ}
    (h : start config reader gathered now = .ok w) :
    (system rs config reader).next (.tick now true config.geometry.parityPerSlice) w =
      some { w with air := fun _ => [.control (.hello config.hello)] } := by
  obtain ⟨hlen, slicer, assembler, -, -, rfl⟩ := start_eq_ok h
  have hstale : ((SendLoop.gather gathered).markAllSeen now).stale now silenceTimeout = [] := by
    simp [Group.stale, Group.markAllSeen, Table.mapValues, List.filter_map]
  have hmembers : ((SendLoop.gather gathered).markAllSeen now).participants.values ≠ [] := by
    intro hnone
    refine hlen ?_
    have hlength := congrArg List.length hnone
    simpa [Group.len, Group.markAllSeen, Table.values, Table.mapValues] using hlength
  have htick : (SendLoop.new config (SendLoop.gather gathered) now).tick now true
      config.geometry.parityPerSlice =
        { loop := .new config (SendLoop.gather gathered) now
          multicast := [.control (.hello config.hello)] } := by
    simp [SendLoop.tick, SendLoop.new, Group.reapSilent, hstale, Table.eraseAll]
  have hsettle : LoopOutcome.settle
      { loop := .new config (SendLoop.gather gathered) now
        multicast := [.control (.hello config.hello)] } =
      { loop := .new config (SendLoop.gather gathered) now
        multicast := [.control (.hello config.hello)] } :=
    LoopOutcome.settle_of_open rfl hmembers rfl
  have hrun : (SendLoop.new config (SendLoop.gather gathered) now).verdict.isNone := rfl
  simp only [system, next, stepTick, hrun, if_true, afterLoop, htick, hsettle, List.nil_append]

theorem next_turn {r now : ℕ} {session : Session} {sunk : List Bytes} {b : Session.Branch}
    {sink : Sink} {o : Outcome}
    (hpeer : w.peers r = { session := session, sunk := sunk, ended := none })
    (henabled : session.Enabled now b) (hdelivers : w.Delivers r b)
    (hturn : session.turn rs now b sink = o) :
    (system rs config reader).next (.turn r now b sink) w = some (w.afterTurn r o) := by
  rw [← hturn]
  show stepTurn rs w r now b sink = _
  rw [stepTurn, hpeer]
  exact if_pos ⟨rfl, henabled, hdelivers⟩

/-- A receiver that has heard nothing but the `Hello` gets to wherever its clocks are. -/
theorem exec_catchUp {assembler : Assembler} {r started : ℕ} (handover packet : ℕ)
    {ended : Option SessionEnd} (hassembler : Assembler.new config.hello.geometry = .ok assembler)
    (hpeer : w.peers r =
      { session := .idle config.hello assembler r started started started, sunk := [], ended := none })
    (hair : .control (.hello config.hello) ∈ w.air r)
    (hended : ended = none ∨ ended = some Session.unheard) : ∃ actions,
      Labelled.exec (system rs config reader) actions w = some { w with
        peers := Function.update w.peers r
          { session := .idle config.hello assembler r started handover packet, sunk := []
            ended := ended }
        uplink := w.uplink ++
          [.join config.transferId r, Session.nothing config.transferId r] } := by
  have hanswer : (system rs config reader).next
      (.turn r packet (.packets [(packet, .control (.hello config.hello))]) ⟨0, false⟩) w = _ :=
    next_turn hpeer trivial (by simpa [Delivers] using hair)
      (Session.turn_packets rs hassembler (by simp) ⟨0, false⟩)
  set answered := w.afterTurn r
    { session := .idle config.hello assembler r started packet packet
      sent := [.join config.transferId r] } with hanswered
  have hpeer₁ : answered.peers r =
      { session := .idle config.hello assembler r started packet packet, sunk := [], ended := none } := by
    rw [hanswered, peers_afterTurn_self, hpeer]
    rfl
  have hreport : (system rs config reader).next (.turn r handover .statsTick ⟨0, false⟩) answered = _ :=
    next_turn hpeer₁ trivial trivial (Session.turn_statsTick rs hassembler ⟨0, false⟩)
  set reported := answered.afterTurn r
    { session := .idle config.hello assembler r started handover packet
      sent := [Session.nothing config.transferId r] } with hreported
  have hpeer₂ : reported.peers r =
      { session := .idle config.hello assembler r started handover packet, sunk := [], ended := none } := by
    rw [hreported, peers_afterTurn_self, hpeer₁]
    rfl
  have hreach : reported = { w with
      peers := Function.update w.peers r
        { session := .idle config.hello assembler r started handover packet, sunk := [], ended := none }
      uplink := w.uplink ++ [.join config.transferId r, Session.nothing config.transferId r] } := by
    simp only [hreported, hanswered, afterTurn, Function.update_idem, Function.update_self,
      List.append_assoc, hpeer, List.append_nil]
    rfl
  have hexec : Labelled.exec (system rs config reader)
      [.turn r packet (.packets [(packet, .control (.hello config.hello))]) ⟨0, false⟩,
        .turn r handover .statsTick ⟨0, false⟩] w = some reported := by
    rw [Labelled.exec_cons, hanswer, Option.bind_some, Labelled.exec_cons]
    exact congrArg (Option.bind · _) hreport
  rcases hended with rfl | rfl
  · exact ⟨_, hexec.trans (congrArg some hreach)⟩
  · -- it has been over for the silence of the sender
    have hover : (system rs config reader).next
        (.turn r (packet + silenceTimeout) .silence ⟨0, false⟩) reported = _ :=
      next_turn hpeer₂ ⟨Session.unfinished_of_new hassembler, le_rfl⟩ trivial (Session.turn_silence rs hassembler ⟨0, false⟩)
    refine ⟨_, (Labelled.exec_concat_of_eq hexec).trans (hover.trans (congrArg some ?_))⟩
    simp only [afterTurn, hpeer₂]
    rw [hreach]
    simp only [Function.update_idem, List.append_nil]

/-- Any number of receivers do. -/
theorem exec_catchUpAll {assembler : Assembler} {started : ℕ} (handover packet : ℕ → ℕ)
    {ended : ℕ → Option SessionEnd} (hassembler : Assembler.new config.hello.geometry = .ok assembler)
    {receivers : List ℕ} (hnodup : receivers.Nodup)
    (hpeers : ∀ r ∈ receivers, w.peers r =
      { session := .idle config.hello assembler r started started started, sunk := [], ended := none })
    (hair : ∀ r, .control (.hello config.hello) ∈ w.air r)
    (hended : ∀ r, ended r = none ∨ ended r = some Session.unheard) : ∃ actions,
      Labelled.exec (system rs config reader) actions w = some { w with
        peers := fun r => if r ∈ receivers then
          { session := .idle config.hello assembler r started (handover r) (packet r), sunk := []
            ended := ended r } else w.peers r
        uplink := w.uplink ++ receivers.flatMap fun r =>
          [.join config.transferId r, Session.nothing config.transferId r] } := by
  induction receivers generalizing w with
  | nil => exact ⟨[], by simp⟩
  | cons r rest ih =>
    obtain ⟨hfresh, hnodup⟩ := List.nodup_cons.mp hnodup
    obtain ⟨first, hfirst⟩ : ∃ actions, Labelled.exec (system rs config reader) actions w = _ :=
      exec_catchUp (handover r) (packet r) hassembler (hpeers r List.mem_cons_self) (hair r) (hended r)
    obtain ⟨others, hothers⟩ := ih (w := { w with
      peers := Function.update w.peers r
        { session := .idle config.hello assembler r started (handover r) (packet r), sunk := []
          ended := ended r }
      uplink := w.uplink ++ [.join config.transferId r, Session.nothing config.transferId r] }) hnodup
      (fun r' hr' => by
        have hne : r' ≠ r := fun h => hfresh (h ▸ hr')
        simp only [Function.update_of_ne hne]
        exact hpeers r' (List.mem_cons_of_mem _ hr')) hair
    refine ⟨first ++ others, ?_⟩
    rw [Labelled.exec_append_of_eq hfirst, hothers]
    simp only [List.flatMap_cons, List.append_assoc, Option.some.injEq,
      World.mk.injEq, true_and]
    funext r'
    by_cases hr : r' = r
    · subst hr
      simp [hfresh]
    · simp [hr]

end World

namespace Campaign

variable {rs : ReedSolomon} {losing : Losing} {sender : Sender} {reader : Reader} {minReceivers : ℕ}
  {d d' : Deployment} {presence presence' : ℕ → Presence} {w : World}

/-- Nothing of the transfer is in as much of the datagram as a control message may be long. -/
def Noise (sender : Sender) (datagram : Bytes) : Prop :=
  Deployment.Stray sender.config.transferId (datagram.take maxControlSize)

/-- The deployment does what the composed system does, but for the times at which sessions were
started; whoever has not joined yet is there as if it had been and had heard nothing. -/
structure Stands (sender : Sender) (d : Deployment) (presence : ℕ → Presence) (w : World) : Prop where
  stands : (d.withPeers w.peers).Stands (Noise sender) sender w
  peers : ∀ r, (w.peers r).timeless = (d.peers r).timeless
  unheard : ∀ r, presence r ≠ .here → ∃ assembler started handover packet,
    Assembler.new sender.config.hello.geometry = .ok assembler ∧ d.peers r =
      { session := .idle sender.config.hello assembler r started handover packet, sunk := []
        ended := none }

theorem peers_handOver_of_joined {a : Admission} {r : ℕ} {peer : Peer} {halt : Option Halt}
    (h : a.candidates r = .joined peer halt) : (a.handOver d).peers r = peer := by
  simp [Admission.handOver, h]

theorem peers_handOver_of_not {a : Admission} {r : ℕ}
    (h : ∀ peer halt, a.candidates r ≠ .joined peer halt) : (a.handOver d).peers r = d.peers r := by
  cases hcandidate : a.candidates r with
  | joined peer halt => exact absurd hcandidate (h peer halt)
  | _ => simp [Admission.handOver, hcandidate]

/-- What is in flight and where the receivers are when the group is complete, the composed system
gets to right after its start. -/
theorem stands_begin {a : Admission} {now : ℕ}
    (hhello : (Message.hello sender.config.hello).InRange) (h : a.Gathers sender.config)
    (hstart : Deployment.start sender reader a.heard now = .ok d) : ∃ w,
      Labelled.Reachable (World.system rs sender.config reader) w ∧
        Stands sender (a.handOver d) (fun r => (a.candidates r).presence) w := by
  obtain ⟨w, hw, hstands⟩ : ∃ w, World.start sender.config reader a.heard now = .ok w ∧
      d.Stands (Noise sender) sender w := Deployment.stands_start hhello h.range hstart
  have htick := World.next_tick_of_start rs hw
  obtain ⟨-, slicer, assembler, -, hassembler, heq⟩ := World.start_eq_ok hw
  have hfresh (r : ℕ) : d.peers r =
      { session := .idle sender.config.hello assembler r now now now, sunk := [], ended := none } := by
    rw [← hstands.peers, heq]
    rfl
  set peers := (a.handOver d).peers with hpeers
  have habsent (r : ℕ) (hr : ¬ (a.candidates r).HasJoined) : peers r = d.peers r := by
    refine peers_handOver_of_not fun peer halt hcandidate => hr ?_
    rw [hcandidate]
    trivial
  -- where each receiver is: as new, at some reading of its clocks
  have hidle (r : ℕ) : (∃ started, peers r =
      { session := .idle sender.config.hello assembler r started (peers r).session.lastHandover
          (peers r).session.lastPacket
        sunk := [], ended := (peers r).ended }) ∧
      ((peers r).ended = none ∨ (peers r).ended = some Session.unheard) := by
    by_cases hr : (a.candidates r).HasJoined
    · have hsound := h.candidates r
      cases hcandidate : a.candidates r with
      | joined peer halt =>
        rw [hcandidate] at hsound
        obtain ⟨-, ⟨assembler', started, handover, packet, hassembler', hsession⟩, hsunk, hended⟩ := hsound
        obtain rfl := Except.ok.inj (hassembler.symm.trans hassembler')
        rw [hpeers, peers_handOver_of_joined hcandidate]
        refine ⟨⟨started, ?_⟩, hended⟩
        rcases peer with ⟨session, sunk, ended⟩
        cases hsession
        cases hsunk
        rfl
      | refused error =>
        rw [hcandidate] at hsound
        cases hassembler.symm.trans hsound.2
      | _ => simp [hcandidate, Candidate.HasJoined] at hr
    · rw [habsent r hr, hfresh r]
      exact ⟨⟨now, rfl⟩, .inl rfl⟩
  obtain ⟨joined, hjoined⟩ := h.finite
  obtain ⟨actions, hexec⟩ : ∃ actions, Labelled.exec (World.system rs sender.config reader) actions
      { w with air := fun _ => [.control (.hello sender.config.hello)] } = _ :=
    World.exec_catchUpAll (fun r => (peers r).session.lastHandover)
      (fun r => (peers r).session.lastPacket) hassembler (List.nodup_dedup joined)
      (fun r _ => (congrFun hstands.peers r).trans (hfresh r)) (fun _ => List.mem_singleton_self _)
      (fun r => (hidle r).2)
  have hrun := Labelled.exec_cons_of_eq htick hexec
  have hinit : Labelled.Reachable (World.system rs sender.config reader) w := .start ⟨_, _, hw⟩
  refine ⟨_, hinit.exec hrun, ⟨hstands.task, hstands.outbound, hstands.feedback, hstands.loop, rfl,
    hstands.staged, hstands.sent, hstands.told, hstands.typed.exec hhello hinit hrun, ?_, ?_⟩, ?_, ?_⟩
  · intro r datagram hd
    rcases h.air r datagram hd with ⟨hstray, hnoise⟩ | rfl
    · exact .inl ⟨hnoise, hstray⟩
    · exact .inr ⟨_, List.mem_singleton_self _, rfl⟩
  · intro datagram hd
    rcases h.uplink datagram hd with hstray | ⟨r, hr, hsent⟩
    · refine .inl ⟨?_, hstray⟩
      rw [Noise, List.take_take, min_self]
      exact hstray
    · have hmem : r ∈ joined.dedup := List.mem_dedup.mpr (hjoined r hr)
      have hlt := (h.candidates r).lt hr
      have htransfer : sender.config.transferId < 2 ^ 64 := hhello.1
      have hin (m : Message) (hm : m ∈ [Message.join sender.config.transferId r,
          Session.nothing sender.config.transferId r]) : m ∈ w.uplink ++ joined.dedup.flatMap fun r =>
            [Message.join sender.config.transferId r, Session.nothing sender.config.transferId r] :=
        List.mem_append_right _ (List.mem_flatMap.mpr ⟨r, hmem, hm⟩)
      rcases hsent with rfl | rfl
      · exact .inr ⟨_, hin _ (by simp), Admission.join_sendable htransfer hlt, rfl⟩
      · exact .inr ⟨_, hin _ (by simp), Admission.nothing_sendable htransfer hlt, rfl⟩
  · intro r
    obtain ⟨⟨started, hpeer⟩, -⟩ := hidle r
    dsimp only
    split_ifs with hr
    · rw [← hpeers, hpeer]
      rfl
    · have hnot : ¬ (a.candidates r).HasJoined := fun hr' => hr (List.mem_dedup.mpr (hjoined r hr'))
      rw [← hpeers, habsent r hnot, congrFun hstands.peers r]
  · intro r hr
    have hnot : ¬ (a.candidates r).HasJoined := by
      intro hjoins
      have hsound := h.candidates r
      cases hcandidate : a.candidates r with
      | joined peer halt =>
        rw [hcandidate] at hr
        exact hr rfl
      | refused error =>
        rw [hcandidate] at hsound
        cases hassembler.symm.trans hsound.2
      | _ => simp [hcandidate, Candidate.HasJoined] at hjoins
    rw [← hpeers, habsent r hnot, hfresh r]
    exact ⟨assembler, now, now, now, hassembler, rfl⟩

/-- A frame that is cut off is still no control message. -/
theorem classify_take_ne_control {datagram : Bytes} {frame : Frame}
    (h : classify datagram = .ok (.ok (.shard frame))) (n : ℕ) (message : Message) :
    classify (datagram.take (n + 1)) ≠ .ok (.ok (.control message)) := by
  cases datagram with
  | nil => cases h
  | cons tag rest =>
    rw [List.take_succ_cons]
    by_cases htag : tag = controlTag
    · rw [classify_cons, if_pos htag] at h
      cases hdecode : Message.decode (tag :: rest) <;> simp [hdecode, Except.map] at h
    · obtain ⟨parsed, hparsed⟩ : ∃ parsed, Frame.parse (tag :: rest.take n) = .ok parsed :=
        ⟨_, Frame.parse_eq _⟩
      rw [classify_cons, if_neg htag, hparsed, ok_bind]
      cases parsed <;> simp [Except.map]

/-- What a receiver takes for a control message of the transfer is one. -/
theorem Stands.control_of_read (h : Stands sender d presence w) {r : ℕ} {datagram : Bytes}
    {message : Message} (hair : datagram ∈ d.air r)
    (hread : classify (datagram.take maxControlSize) = .ok (.ok (.control message)))
    (hid : message.transferId = sender.config.transferId) : .control message ∈ w.air r := by
  rcases h.stands.air r datagram hair with ⟨hstray, -⟩ | ⟨i, hi, rfl⟩
  · have hforeign := hstray _ hread
    simp [Incoming.belongsTo, hid] at hforeign
  · have hsendable := h.stands.typed.air r i hi
    cases i with
    | shard frame =>
      exact absurd hread (classify_take_ne_control (classify_written hsendable.range) 2047 message)
    | control sent =>
      have hwritten := Admission.classify_take (hsendable.fits sent rfl)
      cases hread.symm.trans hwritten
      exact hi

theorem Stands.stepDeployment (h : Stands sender d presence w)
    (hw : Labelled.Reachable (World.system rs sender.config reader) w)
    (hhello : (Message.hello sender.config.hello).InRange) {act : Deployment.Action} {c : Campaign}
    (hn : stepDeployment rs losing sender d presence act = some c) : ∃ d' w',
      c = .sending d' presence ∧ Labelled.Reachable (World.system rs sender.config reader) w' ∧
        Stands sender d' presence w' := by
  unfold Campaign.stepDeployment at hn
  split_ifs at hn with hguard
  obtain ⟨hhere, hforeign⟩ := hguard
  obtain ⟨d', hnext, rfl⟩ := Option.map_eq_some_iff.mp hn
  obtain ⟨peers, hnext', hsame⟩ := Deployment.next_withPeers h.peers hnext
  obtain ⟨actions, w', hexec, hstands⟩ := h.stands.step hw hhello hforeign hnext'
  have hpeers : w'.peers = peers := hstands.peers
  refine ⟨d', w', rfl, hw.exec hexec, ?_, fun r => hpeers ▸ hsame r, fun r hr => ?_⟩
  · rw [hpeers]
    exact hstands
  · rw [Deployment.peers_next hnext fun hact => hr (hhere r hact)]
    exact h.unheard r hr

theorem idle_of_timeless {p q : Peer} (h : p.timeless = q.timeless) {hello : Hello}
    {assembler : Assembler} {r started handover packet : ℕ}
    (hq : q = { session := .idle hello assembler r started handover packet, sunk := []
                ended := none }) :
    ∃ started, p =
      { session := .idle hello assembler r started handover packet, sunk := [], ended := none } := by
  subst hq
  rcases p with ⟨session, sunk, ended⟩
  simp only [Peer.timeless, Peer.mk.injEq, Option.map_none, Option.map_eq_none_iff] at h
  obtain ⟨hsession, rfl, rfl⟩ := h
  refine ⟨session.started, ?_⟩
  have hsince : session = (session.since 0).since session.started := rfl
  rw [hsince, hsession]
  rfl

/-- Whoever joins in the middle might as well have been there, and heard nothing of it. -/
theorem Stands.stepListen (h : Stands sender d presence w)
    (hw : Labelled.Reachable (World.system rs sender.config reader) w)
    (hhello : (Message.hello sender.config.hello).InRange) {r now : ℕ} {heard : List Bytes}
    {c : Campaign}
    (hn : stepListen losing sender.config.transferId d presence r now heard = some c) :
    ∃ d' presence' w', c = .sending d' presence' ∧
      Labelled.Reachable (World.system rs sender.config reader) w' ∧ Stands sender d' presence' w' := by
  unfold Campaign.stepListen at hn
  split at hn
  · next deadline hwaiting =>
    split_ifs at hn with hguard
    obtain ⟨hr, hheard⟩ := hguard
    obtain ⟨⟨candidate, datagrams⟩, hjoin, rfl⟩ := Option.map_eq_some_iff.mp hn
    obtain ⟨assembler, started, handover, packet, hassembler, hpeer⟩ :=
      h.unheard r (by simp [hwaiting])
    rcases Admission.joinSession_cases hjoin with ⟨hnot, rfl⟩ | ⟨hello, hid, hrecv, hsent, hsession⟩
    · refine ⟨d, Function.update presence r candidate.presence, w, ?_, hw, h.stands, h.peers,
        fun r' hr' => ?_⟩
      · cases candidate with
        | joined => exact absurd trivial hnot
        | _ => simp only [List.append_nil]
      · by_cases hr : r' = r
        · exact hr ▸ ⟨assembler, started, handover, packet, hassembler, hpeer⟩
        · rw [Function.update_of_ne hr] at hr'
          exact h.unheard r' hr'
    · obtain ⟨-, datagram, hmem, hread⟩ := mem_of_recvControl hrecv
      have hair := h.control_of_read (hheard hmem) hread hid
      obtain rfl := World.hello_of_reachable hw hair
      have hnew : Session.new sender.config.hello r now =
          .ok (.idle sender.config.hello assembler r now now now) := by
        rw [Session.new, hassembler]
        rfl
      obtain ⟨session, hnew', rfl⟩ | ⟨error, hnew', rfl⟩ := hsession
      swap
      · cases hnew.symm.trans hnew'
      obtain rfl := Except.ok.inj (hnew.symm.trans hnew')
      have htransfer : sender.config.transferId < 2 ^ 64 := hhello.1
      have hsendable := Admission.join_sendable htransfer hr
      rw [Admission.datagrams_of_sendable hsendable] at hsent
      cases hsent
      -- it hears the same `Hello` where it has been all the time
      obtain ⟨started', hworld⟩ := idle_of_timeless (h.peers r) hpeer
      have hturn : (World.system rs sender.config reader).next
          (.turn r now (.packets [(now, .control (.hello sender.config.hello))]) ⟨0, false⟩) w = _ :=
        World.next_turn hworld trivial (by simpa [World.Delivers] using hair)
          (Session.turn_packets rs hassembler (by simp) ⟨0, false⟩)
      have hexec := Labelled.exec_cons_of_eq hturn (Labelled.exec_nil _)
      refine ⟨_, _, _, rfl, hw.exec hexec, ⟨h.stands.task, h.stands.outbound, h.stands.feedback,
        h.stands.loop, rfl, h.stands.staged, h.stands.sent, h.stands.told,
        h.stands.typed.exec hhello hw hexec, h.stands.air, fun datagram hd => ?_⟩, fun r' => ?_,
        fun r' hr' => ?_⟩
      · rcases List.mem_append.mp hd with hd | hd
        · rcases h.stands.uplink datagram hd with hnoise | ⟨m, hm, hfits, heq⟩
          · exact .inl hnoise
          · exact .inr ⟨m, List.mem_append_left _ hm, hfits, heq⟩
        · rw [List.mem_singleton.mp hd]
          exact .inr ⟨_, List.mem_append_right _ (by simp [Config.hello]), hsendable, rfl⟩
      · by_cases hr : r' = r
        · subst hr
          simp only [World.peers_afterTurn_self, Function.update_self, hworld]
          rfl
        · rw [World.peers_afterTurn_of_ne _ hr]
          simp only [Function.update_of_ne hr]
          exact h.peers r'
      · by_cases hr : r' = r
        · subst hr
          simp [Candidate.presence] at hr'
        · rw [Function.update_of_ne hr] at hr'
          simp only [Function.update_of_ne hr]
          exact h.unheard r' hr'
  · cases hn

theorem Stands.stepAway (h : Stands sender d presence w) {r : ℕ} {due : ℕ → Bool} {c : Campaign}
    (hn : stepAway d presence r due = some c) : ∃ presence', c = .sending d presence' ∧
      Stands sender d presence' w := by
  unfold Campaign.stepAway at hn
  split at hn
  · next deadline hwaiting =>
    split_ifs at hn
    cases hn
    refine ⟨_, rfl, h.stands, h.peers, fun r' hr' => ?_⟩
    by_cases hr : r' = r
    · exact h.unheard r' (by simp [hr, hwaiting])
    · rw [Function.update_of_ne hr] at hr'
      exact h.unheard r' hr'
  · cases hn

/-- What is so of every state: the group is gathered as it should be, and after that the deployment
stands for a state of the composed system. -/
def Holds (rs : ReedSolomon) (sender : Sender) (reader : Reader) : Campaign → Prop
  | .gathering a => a.Gathers sender.config
  | .sending d presence => ∃ w, Labelled.Reachable (World.system rs sender.config reader) w ∧
      Stands sender d presence w

theorem holds_of_reachable (hhello : (Message.hello sender.config.hello).InRange) {c : Campaign}
    (h : Labelled.Reachable (system rs losing sender reader minReceivers) c) :
    Holds rs sender reader c := by
  refine Labelled.Reach.invariant (I := Holds rs sender reader) ?_ ?_ h
  · rintro c ⟨now, deadlines, rfl⟩
    exact Admission.gathers_start sender.config now deadlines
  · rintro act c c' - hholds hn
    cases c with
    | gathering a =>
      cases act with
      | admission act =>
        obtain ⟨a', hnext, rfl⟩ := Option.map_eq_some_iff.mp hn
        exact Admission.Gathers.step hholds hhello hnext
      | begin now =>
        simp only [system, next, stepBegin] at hn
        split at hn
        · next d _ hstart =>
          cases hn
          exact stands_begin hhello hholds hstart
        · cases hn
      | _ => cases hn
    | sending d presence =>
      obtain ⟨w, hw, hstands⟩ := hholds
      cases act with
      | deployment act =>
        obtain ⟨d', w', rfl, hw', hstands'⟩ := hstands.stepDeployment hw hhello hn
        exact ⟨w', hw', hstands'⟩
      | listen r now heard =>
        obtain ⟨d', presence', w', rfl, hw', hstands'⟩ := hstands.stepListen hw hhello hn
        exact ⟨w', hw', hstands'⟩
      | timeOut r now =>
        obtain ⟨presence', rfl, hstands'⟩ := hstands.stepAway hn
        exact ⟨w, hw, hstands'⟩
      | cutListener r =>
        obtain ⟨presence', rfl, hstands'⟩ := hstands.stepAway hn
        exact ⟨w, hw, hstands'⟩
      | _ => cases hn

/-- Every writer is given what its session hands over, whenever that was started. -/
def Pumps : Campaign → Prop
  | .gathering _ => True
  | .sending d _ => d.Pumping

theorem pumping_begin {a : Admission} {now : ℕ} (h : a.Gathers sender.config)
    (hstart : Deployment.start sender reader a.heard now = .ok d) : (a.handOver d).Pumping := by
  obtain ⟨hpumps, hpeers⟩ : (∀ r, d.pumps r = .empty) ∧ ∀ r, (d.peers r).sunk = [] := by
    obtain ⟨w, hw, hd⟩ := bind_ok_iff.mp hstart
    cases hd
    obtain ⟨-, slicer, assembler, -, -, rfl⟩ := World.start_eq_ok hw
    exact ⟨fun _ => rfl, fun _ => rfl⟩
  intro r
  have hsound := h.candidates r
  have hsunk : ((a.handOver d).peers r).sunk = [] := by
    cases hcandidate : a.candidates r with
    | joined peer halt =>
      rw [hcandidate] at hsound
      rw [peers_handOver_of_joined hcandidate]
      exact hsound.2.2.1
    | _ => rw [peers_handOver_of_not (by simp [hcandidate]), hpeers r]
  have hpump : (a.handOver d).pumps r = .empty := hpumps r
  rw [hsunk, hpump]
  exact Pump.empty_drains _

/-- A receiver that joins has not handed over anything, and neither had whoever was there for it. -/
theorem pumping_joined (h : d.Pumping) {r : ℕ} {peer : Peer} (hsunk : peer.sunk = (d.peers r).sunk)
    (hrun : (d.peers r).ended = none) (uplink : List Bytes) :
    Deployment.Pumping { d with uplink := uplink, peers := Function.update d.peers r peer } := by
  intro r'
  by_cases hr : r' = r
  · subst hr
    have hover : d.Over r' → Deployment.Over
        { d with uplink := uplink, peers := Function.update d.peers r' peer } r' := by
      rintro (hended | hhalted)
      · rw [hrun] at hended
        cases hended
      · exact .inr hhalted
    have hdrains := (h r').mono hover
    rw [← hsunk] at hdrains
    simpa only [Function.update_self] using hdrains
  · have hover : d.Over r' → Deployment.Over
        { d with uplink := uplink, peers := Function.update d.peers r peer } r' := by
      rintro (hended | hhalted)
      · refine .inl ?_
        simpa only [Function.update_of_ne hr] using hended
      · exact .inr hhalted
    have hdrains := (h r').mono hover
    simpa only [Function.update_of_ne hr] using hdrains

theorem pumps_of_reachable (hhello : (Message.hello sender.config.hello).InRange) {c : Campaign}
    (h : Labelled.Reachable (system rs losing sender reader minReceivers) c) : c.Pumps := by
  refine Labelled.Reach.invariant_on (I := Pumps) (J := Holds rs sender reader)
    (fun c hc => holds_of_reachable hhello hc) ?_ ?_ h
  · rintro c ⟨now, deadlines, rfl⟩
    trivial
  · rintro act c c' - hholds - hpumps hn
    cases c with
    | gathering a =>
      cases act with
      | admission act =>
        obtain ⟨a', -, rfl⟩ := Option.map_eq_some_iff.mp hn
        trivial
      | begin now =>
        simp only [system, next, stepBegin] at hn
        split at hn
        · next d _ hstart =>
          cases hn
          exact pumping_begin hholds hstart
        · cases hn
      | _ => cases hn
    | sending d presence =>
      obtain ⟨w, -, hstands⟩ := hholds
      cases act with
      | deployment act =>
        simp only [system, next, stepDeployment] at hn
        split_ifs at hn
        obtain ⟨d', hnext, rfl⟩ := Option.map_eq_some_iff.mp hn
        exact Deployment.Pumping.step hpumps hnext
      | listen r now heard =>
        simp only [system, next, stepListen] at hn
        split at hn
        · next deadline hwaiting =>
          split_ifs at hn
          obtain ⟨⟨candidate, datagrams⟩, hjoin, rfl⟩ := Option.map_eq_some_iff.mp hn
          obtain ⟨assembler, started, handover, packet, -, hpeer⟩ :=
            hstands.unheard r (by simp [hwaiting])
          rcases Admission.joinSession_cases hjoin with ⟨hnot, rfl⟩ | ⟨hello, -, -, -, hsession⟩
          · cases candidate with
            | joined => exact absurd trivial hnot
            | _ => exact hpumps
          · rcases hsession with ⟨session, -, rfl⟩ | ⟨error, -, rfl⟩
            · exact pumping_joined hpumps (by rw [hpeer]) (by rw [hpeer]) _
            · exact hpumps
        · cases hn
      | timeOut r now =>
        obtain ⟨presence', rfl, -⟩ := hstands.stepAway hn
        exact hpumps
      | cutListener r =>
        obtain ⟨presence', rfl, -⟩ := hstands.stepAway hn
        exact hpumps
      | _ => cases hn

/-- Receiver 1 joins only when the group is complete, by a `Hello` that is still on its way; it is
given the input all the same. -/
def lateRun : List Action :=
  [.admission .helloTick, .admission (.listen 0 5 [(Message.hello Sender.tiny.config.hello).bytes]),
    .admission (.hear [(Message.join 7 0).bytes]), .begin 0,
    .listen 1 4000000 [(Message.hello Sender.tiny.config.hello).bytes]] ++
  (Deployment.byteRun 1 []).map .deployment ++ [.deployment (.write 1 0), .deployment (.flush 1)]

theorem exists_lateRun : ∃ d presence,
    Labelled.Reachable (system .interpolated .none .tiny (.single [1]) 1) (.sending d presence) ∧
      presence 1 = .here ∧ d.recvTo 1 = some (some ⟨1, 1, 1, 1, 0, 0, 0, 2000000⟩) := by
  obtain ⟨c, hexec, hreturned⟩ : ∃ c,
      Labelled.exec (system .interpolated .none .tiny (.single [1]) 1) lateRun
        (.gathering (.start (.tiny 2) 0 fun _ => 10 ^ 9)) = some c ∧
        (match c with
          | .gathering _ => (.away, none)
          | .sending d presence => (presence 1, d.recvTo 1)) =
          (Presence.here, some (some ⟨1, 1, 1, 1, 0, 0, 0, 2000000⟩)) := by
    apply Option.map_eq_some_iff.mp
    decide +kernel
  have hreach : Labelled.Reachable (system .interpolated .none .tiny (.single [1]) 1) c :=
    .exec (.start ⟨0, _, rfl⟩) hexec
  cases c with
  | gathering a => cases hreturned
  | sending d presence =>
    simp only [Prod.mk.injEq] at hreturned
    exact ⟨d, presence, hreach, hreturned.1, hreturned.2⟩

/-- A run from the first `Hello` on stands for one of the composed system, in which every receiver has
been there from the start: what is left of gathering, whoever joins in the middle and whatever else
is on the wire, nothing but the times at which sessions were started tells them apart. -/
theorem joining_late_makes_no_difference (hhello : (Message.hello sender.config.hello).InRange)
    (h : Labelled.Reachable (system rs losing sender reader minReceivers) (.sending d presence)) :
    ∃ w, Labelled.Reachable (World.system rs sender.config reader) w ∧ Stands sender d presence w :=
  holds_of_reachable hhello h

theorem joining_late_makes_no_difference_late : ∃ d presence w,
    presence 1 = .here ∧ Labelled.Reachable (World.system .interpolated (.tiny 2) (.single [1])) w ∧
      Stands .tiny d presence w ∧ d.recvTo 1 = some (some ⟨1, 1, 1, 1, 0, 0, 0, 2000000⟩) := by
  obtain ⟨d, presence, hreach, hhere, hreturned⟩ := exists_lateRun
  obtain ⟨w, hw, hstands⟩ := joining_late_makes_no_difference Deployment.hello_inRange hreach
  exact ⟨d, presence, w, hhere, hw, hstands, hreturned⟩

/-- Whenever a receiver has joined: where `recv_to` returns a summary the writer has been given the
input, byte for byte. -/
theorem whoever_joins_is_given_the_input (hhello : (Message.hello sender.config.hello).InRange)
    (h : Labelled.Reachable (system rs losing sender reader minReceivers) (.sending d presence))
    {r : ℕ} {summary : TransferSummary} (hreturned : d.recvTo r = some (some summary)) :
    (d.pumps r).written = reader.bytes ∧ summary.totalBytes = reader.bytes.length := by
  obtain ⟨hresult, hended⟩ := Deployment.recvTo_eq_ok hreturned
  obtain ⟨w, hw, hstands⟩ : Holds rs sender reader (.sending d presence) :=
    holds_of_reachable hhello h
  have hpumps : d.Pumping := pumps_of_reachable hhello h
  obtain ⟨L, hs⟩ := World.sound_of_reachable hw
  have hsame := hstands.peers r
  simp only [Peer.timeless, Peer.mk.injEq, hended, Option.map_some] at hsame
  obtain ⟨-, hsunk, hover⟩ := hsame
  -- the composed system's session has ended so as well, after however long
  obtain ⟨summary', hended', htotal⟩ : ∃ summary', (w.peers r).ended = some (.returned (.ok summary')) ∧
      summary'.totalBytes = summary.totalBytes := by
    rcases hworld : (w.peers r).ended with _ | (error | summary') | panic <;>
      simp only [hworld, Option.map_none, Option.map_some, SessionEnd.timeless, reduceCtorEq,
        Option.some.injEq, SessionEnd.returned.injEq, Except.ok.injEq, TransferSummary.mk.injEq] at hover
    exact ⟨summary', rfl, hover.1⟩
  obtain ⟨hbytes, hlength⟩ := (hs.peers r).success summary' hended'
  obtain ⟨-, hwritten⟩ := (hpumps r).through hresult
  rw [← hsunk] at hwritten
  exact ⟨hwritten.trans hbytes, htotal.symm.trans hlength⟩

theorem whoever_joins_is_given_the_input_late : ∃ d presence,
    Labelled.Reachable (system .interpolated .none .tiny (.single [1]) 1) (.sending d presence) ∧
      d.recvTo 1 = some (some ⟨1, 1, 1, 1, 0, 0, 0, 2000000⟩) ∧ (d.pumps 1).written = [1] := by
  obtain ⟨d, presence, hreach, -, hreturned⟩ := exists_lateRun
  exact ⟨d, presence, hreach, hreturned,
    (whoever_joins_is_given_the_input Deployment.hello_inRange hreach hreturned).1⟩

end Campaign
end Scuttlecast
