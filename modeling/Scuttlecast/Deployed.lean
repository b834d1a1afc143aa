import Scuttlecast.Deployment
import Scuttlecast.Verdict

/-! What is deployed does what the composed system does. Every state of a deployment stands for one
of the system: the parties are the same, and a datagram in flight either is a message in flight
there, or nothing of the transfer. -/
namespace Scuttlecast

theorem Sent.all_eq_ok {first : Sent} {rest : List Sent} {datagrams : List Bytes}
    (h : Sent.all (first :: rest) = .ok datagrams) : ∃ front back,
      first.datagrams = .ok front ∧ Sent.all rest = .ok back ∧ datagrams = front ++ back := by
  obtain ⟨front, hfront, h⟩ := bind_ok_iff.mp h
  obtain ⟨back, hback, h⟩ := bind_ok_iff.mp h
  cases h
  exact ⟨front, back, hfront, hback, rfl⟩

/-- The kernel cuts a batch into the frames it was put together from. -/
theorem chunks_of_reaches {c : Config} {body : Bytes} {segmentSize : ℕ} {incoming : List Incoming}
    (h : (Sent.batch body segmentSize).Reaches c incoming) :
    Chunks.chunks segmentSize body = incoming.map Incoming.bytes := by
  obtain ⟨hsize, frames, rfl, hbody, hread⟩ := h
  have hpos : 0 < segmentSize := by
    rw [hsize]
    exact Nat.add_pos_left (by decide) _
  have hne : body ≠ [] := by
    rintro rfl
    rw [Listener.readOne_nil] at hread
    cases hread
  have hstep := @Listener.step_pos body (some segmentSize) hne (by simpa using hpos)
  obtain ⟨reading, hreading, hprefix, -⟩ := @Listener.readOne_handed c.listener body
    (some segmentSize) [] hne (by simpa using hpos)
  rw [hread] at hreading
  cases hreading
  have hpieces : frames.map Frame.bytes = pieces body (some segmentSize) :=
    Listener.eq_pieces_of_flatten hstep hprefix (by rw [hbody, List.flatMap_def])
  have hsame : Chunks.chunks segmentSize body = pieces body (some segmentSize) := by
    rcases Nat.le_total segmentSize body.length with hlong | hshort
    · rw [pieces, Option.getD_some, min_eq_left hlong]
    · rw [Read.pieces_single hne fun s hs => Option.some.inj hs ▸ hshort]
      have hcut : Chunks.chunks segmentSize [body].flatten = [body] :=
        Chunks.chunks_flatten hpos (by simp) (by simp [hne, hshort])
      simpa using hcut
  rw [hsame, ← hpieces, List.map_map]
  rfl

/-- A datagram on the wire is one of the messages that it was sent for. -/
theorem Delivered.mem_of_all {c : Config} {sent : List Sent} {incoming : List Incoming}
    {datagrams : List Bytes} (h : Delivered c sent incoming) (hall : Sent.all sent = .ok datagrams)
    {datagram : Bytes} (hd : datagram ∈ datagrams) : ∃ i ∈ incoming, datagram = i.bytes := by
  obtain ⟨parts, hparts, rfl⟩ := h
  induction hparts generalizing datagrams with
  | nil =>
    cases hall
    cases hd
  | @cons first part sent parts hreaches _ ih =>
    obtain ⟨front, back, hfront, hback, rfl⟩ := Sent.all_eq_ok hall
    rcases List.mem_append.mp hd with hd | hd
    · suffices ∃ i ∈ part, datagram = i.bytes by
        obtain ⟨i, hi, heq⟩ := this
        exact ⟨i, List.mem_append_left _ hi, heq⟩
      cases first with
      | batch body segmentSize =>
        rw [Sent.datagrams] at hfront
        split_ifs at hfront
        cases hfront
        rw [chunks_of_reaches hreaches] at hd
        obtain ⟨i, hi, heq⟩ := List.mem_map.mp hd
        exact ⟨i, hi, heq.symm⟩
      | control message =>
        cases hreaches
        refine ⟨_, List.mem_singleton_self _, ?_⟩
        cases hencode : message.encode with
        | error e => simp [Sent.datagrams, hencode] at hfront
        | ok bytes =>
          simp only [Sent.datagrams, hencode, Except.ok.injEq] at hfront
          rw [← hfront, List.mem_singleton] at hd
          rw [hd, (Message.encodeInto_eq_ok.mp hencode).2]
          rfl
    · obtain ⟨i, hi, heq⟩ := ih hback hd
      exact ⟨i, List.mem_append_right _ hi, heq⟩

/-- Nothing but the socket can be in the way of messages that can be sent. -/
theorem Delivered.all_ne_protocol {c : Config} {sent : List Sent} {incoming : List Incoming}
    (h : Delivered c sent incoming) (hsendable : ∀ i ∈ incoming, i.Sendable c)
    (error : ProtocolError) : Sent.all sent ≠ .error (.protocol error) := by
  obtain ⟨parts, hparts, rfl⟩ := h
  induction hparts with
  | nil => simp [Sent.all]
  | @cons first part sent parts hreaches _ ih =>
    have hrest := ih fun i hi => hsendable i (List.mem_append_right _ hi)
    cases hfirst : first.datagrams with
    | error halt =>
      rw [Sent.all, hfirst]
      rintro ⟨⟩
      cases first with
      | batch body segmentSize =>
        rw [Sent.datagrams] at hfirst
        split_ifs at hfirst
        cases hfirst
      | control message =>
        cases hreaches
        have hfits := (hsendable _ (by simp)).fits message rfl
        rw [Sent.datagrams, hfits.encode] at hfirst
        cases hfirst
    | ok front =>
      cases hback : Sent.all sent with
      | error halt =>
        rw [hback] at hrest
        rw [Sent.all, hfirst, ok_bind, hback]
        rintro ⟨⟩
        exact hrest rfl
      | ok back =>
        simp [Sent.all, hfirst, hback]

/-- Whatever a task takes up, some datagram it had to read was read as, and the listener keeps. -/
theorem Listener.mem_of_wake {l : Listener} {air : List Bytes} {woken : Woken}
    {arrivals : List (ℕ × Incoming)} (h : l.wake air woken = .ok (some (.packets arrivals)))
    {arrival : ℕ × Incoming} (harrival : arrival ∈ arrivals) :
    ∃ datagram ∈ air, classify datagram = .ok (.ok arrival.2) ∧ l.keeps arrival.2 := by
  cases woken with
  | reads reads times =>
    unfold wake at h
    dsimp only at h
    split_ifs at h with hreads
    · split at h
      · cases h
      · cases h
      · cases h
      · next incoming hrecv =>
        split_ifs at h
        · cases h
          rcases mem_of_recvBatch hrecv (List.of_mem_zip harrival).2 with
            hnone | ⟨received, hreceived, piece, hpiece, hread, hkept⟩
          · cases hnone
          · obtain ⟨read, hmem, rfl⟩ := List.mem_map.mp hreceived
            obtain ⟨hglued, hair⟩ := hreads read hmem
            exact ⟨piece, hair piece (Read.mem_of_pieces hglued hpiece), hread, hkept⟩
        · cases h
    · cases h
  | _ => cases h

theorem Sent.all_controls {messages : List Message} (h : ∀ m ∈ messages, m.Sendable) :
    Sent.all (messages.map .control) = .ok (messages.map Message.bytes) := by
  induction messages with
  | nil => rfl
  | cons message messages ih =>
    have hrest := ih fun m hm => h m (List.mem_cons_of_mem _ hm)
    have hfirst : Sent.datagrams (.control message) = .ok [message.bytes] := by
      rw [Sent.datagrams, (h message List.mem_cons_self).encode]
    rw [List.map_cons, Sent.all, hfirst, ok_bind, hrest]
    rfl

namespace World

variable {rs : ReedSolomon} {config : Config} {reader : Reader} {w w' : World}

/-- The loop takes a prefix of what is queued, all at one time. -/
theorem exec_egress {queued rest : List Outbound} {now : ℕ}
    (hout : w.outbound = queued ++ rest) (hrun : w.loop.verdict = none) (hopen : w.loop.Unfinished) :
    Labelled.exec (system rs config reader) (queued.map fun _ => .egress now) w =
      some { w with
        outbound := rest
        loop := (w.loop.egressAll (queued.map fun message => (now, message))).1
        air := fun r => w.air r ++
          (w.loop.egressAll (queued.map fun message => (now, message))).2 } := by
  induction queued generalizing w with
  | nil =>
    rw [List.nil_append] at hout
    simp [SendLoop.egressAll, ← hout]
  | cons message queued ih =>
    have hrun' : (w.loop.egress now message).loop.verdict = none := by
      cases message <;> exact hrun
    have hopen' := hopen.egress now message
    have hquiet : (w.loop.egress now message).feedback = [] := by cases message <;> rfl
    have hnext : (system rs config reader).next (.egress now) w = some { w with
        outbound := queued ++ rest
        loop := (w.loop.egress now message).loop
        air := fun r => w.air r ++ (w.loop.egress now message).multicast } := by
      simp only [system, next, stepEgress, hout, List.cons_append, hrun, Option.isNone_none,
        if_true, afterLoop, SendLoop.settle_of_unfinished hrun' hopen', hquiet, List.append_nil]
    rw [List.map_cons, Labelled.exec_cons, hnext, Option.bind_some, ih rfl hrun' hopen']
    simp only [List.map_cons, SendLoop.egressAll, List.append_assoc]

/-- The loop takes up something else. -/
theorem exec_branch {gathered : List Message} {e : SendLoop.Event} {a : Action} {loop : SendLoop}
    (hnext : next rs a w = some (w.afterLoop (w.loop.branch e)))
    (hloop : (SendLoop.loops config gathered).next e w.loop = some loop) :
    Labelled.exec (system rs config reader) [a] w = some { w with
      loop := loop
      feedback := w.feedback ++ (SendLoop.output [e] w.loop).2
      air := fun r => w.air r ++ (SendLoop.output [e] w.loop).1 } := by
  obtain ⟨-, -, rfl⟩ := SendLoop.next_cases hloop
  obtain ⟨verdict, heq⟩ := (w.loop.branch e).settle_eq
  rw [Labelled.exec_cons, show (system rs config reader).next a w = _ from hnext, Option.bind_some,
    SendLoop.output_singleton]
  simp [afterLoop, heq]

end World

/-- The deployment's parties are those of the system; what is in flight is so there, or is noise. -/
structure Deployment.Stands (noise : Bytes → Prop) (sender : Sender) (d : Deployment) (w : World) :
    Prop where
  task : w.task = d.task
  outbound : w.outbound = d.outbound
  feedback : w.feedback = d.feedback
  loop : w.loop = d.sender.egress.loop
  peers : w.peers = d.peers
  staged : d.sender.egress.Staged []
  sent : d.sender.egress.sent = []
  told : d.sender.feedback = []
  typed : w.Typed sender.config
  air : ∀ r, ∀ datagram ∈ d.air r,
    (noise datagram ∧ Deployment.Stray sender.config.transferId datagram) ∨
      ∃ i ∈ w.air r, datagram = i.bytes
  uplink : ∀ datagram ∈ d.uplink, (noise (datagram.take maxControlSize) ∧
      Deployment.Stray sender.config.transferId (datagram.take maxControlSize)) ∨
      ∃ m ∈ w.uplink, m.Sendable ∧ datagram = m.bytes

namespace Deployment

variable {rs : ReedSolomon} {losing : Losing} {sender : Sender} {reader : Reader}
  {noise : Bytes → Prop}
  {d d' : Deployment} {w : World}

/-- What the sender hears of its receivers, one of them has sent. -/
theorem Stands.mem_uplink (h : d.Stands noise sender w) {heard : List Bytes} {message : Message}
    (hheard : ∀ datagram ∈ heard, datagram ∈ d.uplink)
    (hrecv : recvControl losing.sender (some sender.config.transferId) heard =
      .ok (some (.ok message))) : message ∈ w.uplink := by
  obtain ⟨hid, datagram, hmem, hread⟩ := mem_of_recvControl hrecv
  rcases h.uplink datagram (hheard datagram hmem) with ⟨-, hstray⟩ | ⟨m, hm, hsendable, rfl⟩
  · have hforeign := hstray _ hread
    simp [Incoming.belongsTo, hid _ rfl] at hforeign
  · rw [List.take_of_length_le hsendable.fits] at hread
    have hwritten := classify_control hsendable.range []
    rw [List.append_nil] at hwritten
    cases hread.symm.trans hwritten
    exact hm

/-- What a receiver takes in of the transfer, the sender has sent. -/
theorem Stands.mem_air (h : d.Stands noise sender w) {r : ℕ} {datagram : Bytes} {i : Incoming}
    (hair : datagram ∈ d.air r) (hread : classify datagram = .ok (.ok i))
    (hbelongs : i.belongsTo sender.config.transferId = true) : i ∈ w.air r := by
  rcases h.air r datagram hair with ⟨-, hstray⟩ | ⟨sent, hsent, rfl⟩
  · rw [hstray i hread] at hbelongs
    cases hbelongs
  · have hwritten := classify_written (h.typed.air r sent hsent).range
    cases hread.symm.trans hwritten
    exact hsent

/-- The messages of a round are ones that the slicer can queue. -/
theorem Stands.round_typed (h : d.Stands noise sender w)
    (hw : Labelled.Reachable (World.system rs sender.config reader) w) {r : Round}
    {heard : List Bytes} (hoffers : d.Offers losing sender.config.transferId r heard) :
    r.Typed sender.config.geometry := by
  obtain ⟨L, hs⟩ := World.sound_of_reachable hw
  rcases r with ⟨top, now, select⟩
  cases select with
  | taken waited queued left =>
    intro message hm
    have hqueued : message ∈ w.outbound := by
      rw [h.outbound]
      exact hoffers.1.subset hm
    exact hs.typed (hs.emitted message (hs.outbound message hqueued))
  | _ => trivial

/-- The loop, the pacer and what is shown, at the start of a round and after it. -/
theorem Stands.tracks (h : d.Stands noise sender w)
    (hw : Labelled.Reachable (World.system rs sender.config reader) w) {r : Round}
    {heard : List Bytes} {s : SendStream} (henabled : d.sender.Enabled r)
    (hoffers : d.Offers losing sender.config.transferId r heard)
    (hturn : d.sender.turn sender r = .ok s) :
    SendStream.Tracks sender [] d.sender s (d.sender.events sender r) [d.sender.paced r] := by
  obtain ⟨L, hs⟩ := World.sound_of_reachable hw
  have hconfig : d.sender.egress.loop.config = sender.config := h.loop ▸ hs.config
  have hconcluded : d.sender.egress.loop.Concluded := h.loop ▸ World.concluded_of_reachable hw
  have hstart : SendStream.Tracks sender [] d.sender d.sender [] [] :=
    ⟨rfl, h.sent ▸ .nil _, h.told, rfl, ⟨_, rfl, rfl, rfl, rfl⟩, h.staged⟩
  exact hstart.next hconfig hconcluded (h.round_typed hw hoffers)
    (SendStream.next_rounds.mpr ⟨henabled, hturn⟩)

/-- What the system does in a round. -/
def actions (d : Deployment) (sender : Sender) (r : Round) : List World.Action :=
  match r.select with
  | .taken _ queued _ => queued.map fun _ => .egress r.now
  | .closed => [.egressClosed]
  | .credit _ => []
  | .tick => [.tick r.now d.sender.idle (d.sender.wanted sender r.now)]
  | .deadline => [.deadline r.now]
  | .control _ message => [.control r.now message]

/-- A round is a run of the composed system, and what is sent in it is what the system multicasts. -/
theorem Stands.exec_round (h : d.Stands noise sender w)
    (hw : Labelled.Reachable (World.system rs sender.config reader) w) {r : Round}
    {heard : List Bytes} {s : SendStream} (henabled : d.sender.Enabled r)
    (hoffers : d.Offers losing sender.config.transferId r heard)
    (hturn : d.sender.turn sender r = .ok s) : ∃ multicast,
      Labelled.exec (World.system rs sender.config reader) (d.actions sender r) w = some { w with
        outbound := w.outbound.drop (taken r).length
        loop := s.egress.loop
        feedback := w.feedback ++ s.feedback
        air := fun r => w.air r ++ multicast } ∧
      Delivered sender.config s.egress.sent multicast ∧ s.egress.Staged [] := by
  have htracks := h.tracks hw henabled hoffers hturn
  refine ⟨(SendLoop.output ((d.sender.events sender r).map Prod.fst) d.sender.egress.loop).1, ?_,
    htracks.delivered, htracks.staged⟩
  have hloop := htracks.loop
  have hrun : w.loop.verdict = none := by
    rw [h.loop]
    exact Option.isNone_iff_eq_none.mp henabled.1
  rw [htracks.told, ← h.loop]
  rw [← h.loop] at hloop
  -- a round that takes up one event, no message off the queue
  have hsingle {e : SendLoop.Event} {a : World.Action}
      (hnext : World.next rs a w = some (w.afterLoop (w.loop.branch e)))
      (hloop : Labelled.exec (SendLoop.loops sender.config []) [e] w.loop = some s.egress.loop) :
      Labelled.exec (World.system rs sender.config reader) [a] w = some { w with
        outbound := w.outbound.drop 0
        loop := s.egress.loop
        feedback := w.feedback ++ (SendLoop.output [e] w.loop).2
        air := fun r => w.air r ++ (SendLoop.output [e] w.loop).1 } := by
    rw [Labelled.exec_cons, Option.bind_eq_some_iff] at hloop
    obtain ⟨loop, hstep, hloop⟩ := hloop
    cases hloop
    exact World.exec_branch hnext hstep
  rcases r with ⟨top, now, select⟩
  cases select with
  | taken waited queued left =>
    obtain ⟨⟨rest, hrest⟩, -⟩ := hoffers
    have hout : w.outbound = queued ++ rest := by rw [h.outbound, hrest]
    have hopen : w.loop.Unfinished := by
      have hconcluded := World.concluded_of_reachable hw
      rw [SendLoop.Concluded, hrun] at hconcluded
      exact hconcluded
    have hevents : (d.sender.events sender ⟨top, now, .taken waited queued left⟩).map Prod.fst =
        queued.map (.egress now) := by
      rw [SendStream.events, List.map_map]
      rfl
    obtain ⟨-, -, hexec, hsaid⟩ : _ ∧ _ ∧ Labelled.exec (SendLoop.loops sender.config []) _ _ = _ ∧ _ :=
      SendLoop.exec_egress hrun hopen now queued
    rw [hevents, hexec] at hloop
    have hsame := Option.some.inj hloop
    have hdrop : w.outbound.drop queued.length = rest := by rw [hout, List.drop_left]
    rw [hevents, hsaid, ← hsame, actions, taken, hdrop]
    simp only [World.exec_egress hout hrun hopen, List.append_nil]
  | closed =>
    obtain ⟨hempty, hended⟩ := hoffers
    refine hsingle (e := .egressClosed) (a := .egressClosed) ?_ hloop
    exact if_pos ⟨by rw [hrun]; rfl, h.outbound.trans hempty, by rw [h.task]; exact hended⟩
  | credit left =>
    have hsame : w.loop = s.egress.loop := Option.some.inj hloop
    simp [actions, taken, SendStream.events, SendLoop.output, ← hsame]
  | tick =>
    refine hsingle (e := .tick now d.sender.idle (d.sender.wanted sender now))
      (a := .tick now d.sender.idle (d.sender.wanted sender now)) ?_ hloop
    exact if_pos (by rw [hrun]; rfl)
  | deadline =>
    refine hsingle (e := .deadline now) (a := .deadline now) ?_ hloop
    have hdue : w.loop.drainDeadline.any (· ≤ now) := by
      rw [h.loop]
      exact henabled.2.2
    exact if_pos ⟨by rw [hrun]; rfl, hdue⟩
  | control alpha message =>
    refine hsingle (e := .control now message) (a := .control now message) ?_ hloop
    exact if_pos ⟨by rw [hrun]; rfl, h.mem_uplink hoffers.1 hoffers.2⟩

/-- Who is over, and what the writers do, is nothing to the system. -/
theorem Stands.beside (h : d.Stands noise sender w) (halted : Option Halt) (halts : ℕ → Option Halt)
    (pumps : ℕ → Pump) :
    Stands noise sender { d with halted := halted, halts := halts, pumps := pumps } w :=
  ⟨h.task, h.outbound, h.feedback, h.loop, h.peers, h.staged, h.sent, h.told, h.typed, h.air, h.uplink⟩

theorem Stands.stepRound (h : d.Stands noise sender w)
    (hw : Labelled.Reachable (World.system rs sender.config reader) w)
    (hhello : (Message.hello sender.config.hello).InRange) {r : Round} {heard : List Bytes}
    (hn : d.stepRound losing sender r heard = some d') :
    ∃ actions w', Labelled.exec (World.system rs sender.config reader) actions w = some w' ∧
      d'.Stands noise sender w' := by
  unfold Deployment.stepRound at hn
  split_ifs at hn with hguard
  obtain ⟨-, henabled, hoffers⟩ := hguard
  split at hn
  · cases hn
    exact Labelled.matched_by_none (h.beside _ d.halts d.pumps)
  · next s hturn =>
    split at hn
    · cases hn
      exact Labelled.matched_by_none (h.beside _ d.halts d.pumps)
    · next datagrams hall =>
      cases hn
      obtain ⟨multicast, hexec, hdelivered, hstaged⟩ := h.exec_round hw henabled hoffers hturn
      refine ⟨_, _, hexec, h.task, congrArg _ h.outbound, congrArg (· ++ _) h.feedback, rfl, h.peers,
        ⟨hstaged.holds, hstaged.size, hstaged.frames, hstaged.seq_lt⟩, rfl, rfl,
        h.typed.exec hhello hw hexec, fun r datagram hd => ?_, h.uplink⟩
      rcases List.mem_append.mp hd with hd | hd
      · rcases h.air r datagram hd with hnoise | ⟨i, hi, heq⟩
        · exact .inl hnoise
        · exact .inr ⟨i, List.mem_append_left _ hi, heq⟩
      · obtain ⟨i, hi, heq⟩ := hdelivered.mem_of_all hall hd
        exact .inr ⟨i, List.mem_append_right _ hi, heq⟩

/-- A branch a receiver wakes up in is one of the system's. -/
theorem Stands.delivers (h : d.Stands noise sender w) {r : ℕ} {woken : Woken}
    {branch : Session.Branch}
    (hwake : d.wake losing sender.config.transferId r woken = .ok (some branch)) :
    w.Delivers r branch := by
  cases branch with
  | packets arrivals =>
    intro arrival harrival
    obtain ⟨datagram, hair, hread, hkept⟩ := Listener.mem_of_wake hwake harrival
    simp only [Listener.keeps, Bool.and_eq_true] at hkept
    exact h.mem_air hair hread hkept.1
  | _ => trivial

theorem Stands.stepTurn (h : d.Stands noise sender w)
    (hw : Labelled.Reachable (World.system rs sender.config reader) w)
    (hhello : (Message.hello sender.config.hello).InRange) {r now : ℕ} {woken : Woken} {sink : Sink}
    (hn : d.stepTurn rs losing sender.config.transferId r now woken sink = some d') :
    ∃ actions w', Labelled.exec (World.system rs sender.config reader) actions w = some w' ∧
      d'.Stands noise sender w' := by
  unfold Deployment.stepTurn at hn
  split_ifs at hn with hguard
  obtain ⟨hr, -, hrun, -⟩ := hguard
  split at hn
  · cases hn
    exact Labelled.matched_by_none (h.beside d.halted _ d.pumps)
  · cases hn
  · next branch hwake =>
    split_ifs at hn with henabled
    cases hn
    have hdelivers := h.delivers hwake
    have hspeaks : Session.Speaks (d.peers r).session
        ((d.peers r).session.turn rs now branch sink) := by
      rw [← h.peers]
      exact (h.typed.peers r hr).turn (h.typed.heard hdelivers) now sink
    set o := (d.peers r).session.turn rs now branch sink with ho
    unfold afterTurn
    split_ifs with hcount
    · split
      · exact Labelled.matched_by_none (h.beside d.halted _ d.pumps)
      · next datagrams hall =>
        have hturn : (World.system rs sender.config reader).next (.turn r now branch sink) w =
            some (w.afterTurn r o) := by
          rw [ho, ← h.peers]
          rw [← h.peers] at hrun henabled
          exact if_pos ⟨hrun, henabled, hdelivers⟩
        refine Labelled.matched_by_one hturn ?_
        have hexec : Labelled.exec (World.system rs sender.config reader) [.turn r now branch sink] w =
            some (w.afterTurn r o) := by
          rw [Labelled.exec_cons, hturn]
          rfl
        have htyped := h.typed.exec hhello hw hexec
        refine ⟨h.task, h.outbound, h.feedback, h.loop, ?_, h.staged, h.sent, h.told, htyped, h.air, ?_⟩
        · rw [World.afterTurn, h.peers]
        · intro datagram hd
          rcases List.mem_append.mp hd with hd | hd
          · rcases h.uplink datagram hd with hnoise | ⟨m, hm, hsendable, heq⟩
            · exact .inl hnoise
            · exact .inr ⟨m, List.mem_append_left _ hm, hsendable, heq⟩
          · have hsent := hspeaks.sent hcount
            rw [Sent.all_controls hsent] at hall
            cases hall
            obtain ⟨m, hm, rfl⟩ := List.mem_map.mp hd
            exact .inr ⟨m, List.mem_append_right _ hm, hsent m hm, rfl⟩
    · exact Labelled.matched_by_none (h.beside d.halted _ d.pumps)

theorem mem_of_put {air : ℕ → List Bytes} {r r' : ℕ} {datagram other : Bytes}
    (h : datagram ∈ Function.update air r (air r ++ [other]) r') :
    datagram ∈ air r' ∨ datagram = other := by
  by_cases hr : r' = r
  · subst hr
    rw [Function.update_self, List.mem_append, List.mem_singleton] at h
    exact h
  · rw [Function.update_of_ne hr] at h
    exact .inl h

theorem mem_of_lost {air : ℕ → List Bytes} {r r' : ℕ} {datagram other : Bytes}
    (h : datagram ∈ Function.update air r ((air r).erase other) r') : datagram ∈ air r' := by
  by_cases hr : r' = r
  · subst hr
    rw [Function.update_self] at h
    exact List.mem_of_mem_erase h
  · rwa [Function.update_of_ne hr] at h

theorem Stands.step (h : d.Stands noise sender w)
    (hw : Labelled.Reachable (World.system rs sender.config reader) w)
    (hhello : (Message.hello sender.config.hello).InRange) {a : Action}
    (hnoise : ∀ datagram ∈ a.foreign, noise datagram)
    (hn : next rs losing sender a d = some d') :
    ∃ actions w', Labelled.exec (World.system rs sender.config reader) actions w = some w' ∧
      d'.Stands noise sender w' := by
  -- a step of the slicer task, which the system takes as well
  have hslicer {a : World.Action} {w' : World}
      (hnext : (World.system rs sender.config reader).next a w = some w')
      (hstands : w'.Typed sender.config → d'.Stands noise sender w') :
      ∃ actions w', Labelled.exec (World.system rs sender.config reader) actions w = some w' ∧
        d'.Stands noise sender w' := by
    have hexec : Labelled.exec (World.system rs sender.config reader) [a] w = some w' := by
      rw [Labelled.exec_cons, hnext]
      rfl
    exact Labelled.matched_by_one hnext (hstands (h.typed.exec hhello hw hexec))
  cases a with
  | read =>
    obtain ⟨task, hread, rfl⟩ := Option.map_eq_some_iff.mp hn
    have hnext : (World.system rs sender.config reader).next .read w =
        some { w with task := task } := by
      rw [← h.task] at hread
      exact Option.map_eq_some_iff.mpr ⟨task, hread, rfl⟩
    exact hslicer hnext fun htyped => ⟨rfl, h.outbound, h.feedback, h.loop, h.peers, h.staged, h.sent,
      h.told, htyped, h.air, h.uplink⟩
  | feedback =>
    simp only [next, stepFeedback] at hn
    split at hn
    · cases hn
    · next message rest hfeedback =>
      split_ifs at hn with hselect
      cases hn
      have hnext : (World.system rs sender.config reader).next .feedback w =
          some { w with task := d.task.recv message, feedback := rest } := by
        rw [← h.feedback] at hfeedback
        rw [← h.task] at hselect ⊢
        simp only [World.system, World.next, World.stepFeedback, hfeedback, if_pos hselect]
      exact hslicer hnext fun htyped => ⟨rfl, h.outbound, rfl, h.loop, h.peers, h.staged, h.sent,
        h.told, htyped, h.air, h.uplink⟩
  | queue =>
    simp only [next, stepQueue] at hn
    split at hn
    · cases hn
    · next message rest htodo =>
      split_ifs at hn with hroom
      cases hn
      have hnext : (World.system rs sender.config reader).next .queue w =
          some { w with
            task := { d.task with todo := rest }
            outbound := d.outbound ++ [message]
            emitted := w.emitted ++ [message] } := by
        rw [← h.task] at htodo hroom ⊢
        rw [← h.outbound] at hroom ⊢
        simp only [World.system, World.next, World.stepQueue, htodo, if_pos hroom]
      exact hslicer hnext fun htyped => ⟨rfl, rfl, h.feedback, h.loop, h.peers, h.staged, h.sent,
        h.told, htyped, h.air, h.uplink⟩
  | round r heard => exact h.stepRound hw hhello hn
  | refused heard =>
    simp only [next, stepRefused] at hn
    split_ifs at hn
    split at hn
    · cases hn
      exact Labelled.matched_by_none (h.beside _ d.halts d.pumps)
    · cases hn
      exact Labelled.matched_by_none (h.beside _ d.halts d.pumps)
    · cases hn
  | cut error =>
    simp only [next] at hn
    split_ifs at hn
    cases hn
    exact Labelled.matched_by_none (h.beside _ d.halts d.pumps)
  | turn r now woken sink => exact h.stepTurn hw hhello hn
  | cutReceiver r error =>
    simp only [next] at hn
    split_ifs at hn
    cases hn
    exact Labelled.matched_by_none (h.beside d.halted _ d.pumps)
  | write r n =>
    obtain ⟨pump, -, rfl⟩ := Option.map_eq_some_iff.mp hn
    exact Labelled.matched_by_none (h.beside d.halted d.halts _)
  | writerFails r error n =>
    obtain ⟨pump, -, rfl⟩ := Option.map_eq_some_iff.mp hn
    exact Labelled.matched_by_none (h.beside d.halted d.halts _)
  | flush r =>
    simp only [next] at hn
    split_ifs at hn
    obtain ⟨pump, -, rfl⟩ := Option.map_eq_some_iff.mp hn
    exact Labelled.matched_by_none (h.beside d.halted d.halts _)
  | strayDown r datagram =>
    simp only [next] at hn
    split_ifs at hn with hstray
    cases hn
    refine Labelled.matched_by_none ⟨h.task, h.outbound, h.feedback, h.loop, h.peers, h.staged,
      h.sent, h.told, h.typed, fun r' datagram' hd => ?_, h.uplink⟩
    rcases mem_of_put hd with hd | rfl
    · exact h.air r' datagram' hd
    · exact .inl ⟨hnoise datagram' rfl, hstray⟩
  | strayUp datagram =>
    simp only [next] at hn
    split_ifs at hn with hstray
    cases hn
    refine Labelled.matched_by_none ⟨h.task, h.outbound, h.feedback, h.loop, h.peers, h.staged,
      h.sent, h.told, h.typed, h.air, fun datagram' hd => ?_⟩
    rcases List.mem_append.mp hd with hd | hd
    · exact h.uplink datagram' hd
    · rw [List.mem_singleton.mp hd]
      exact .inl ⟨hnoise _ rfl, hstray⟩
  | loseDown r datagram =>
    cases hn
    refine Labelled.matched_by_none ⟨h.task, h.outbound, h.feedback, h.loop, h.peers, h.staged,
      h.sent, h.told, h.typed, fun r' datagram' hd => h.air r' datagram' (mem_of_lost hd), h.uplink⟩
  | loseUp datagram =>
    cases hn
    exact Labelled.matched_by_none ⟨h.task, h.outbound, h.feedback, h.loop, h.peers, h.staged,
      h.sent, h.told, h.typed, h.air, fun datagram' hd => h.uplink _ (List.mem_of_mem_erase hd)⟩

theorem stands_start {gathered : List Message} {now : ℕ}
    (hhello : (Message.hello sender.config.hello).InRange) (hgathered : ∀ m ∈ gathered, m.InRange)
    (h : start sender reader gathered now = .ok d) : ∃ w,
      World.start sender.config reader gathered now = .ok w ∧ d.Stands noise sender w := by
  obtain ⟨w, hw, h⟩ := bind_ok_iff.mp h
  cases h
  have htyped := World.Typed.start hhello hgathered hw
  obtain ⟨-, slicer, assembler, -, -, rfl⟩ := World.start_eq_ok hw
  have hholds := (FrameBatch.new_holds sender.config.geometry.blockSize_pos
    sender.maxBatchSegments).narrowTo (Batching.new.segments sender.maxBatchSegments)
  refine ⟨_, hw, rfl, rfl, rfl, rfl, rfl, ⟨hholds, rfl, by simp, ?_⟩, rfl, rfl, htyped, by simp,
    by simp⟩
  exact Nat.two_pow_pos 32

/-- What is deployed does what the composed system does, whatever else is on the wire. -/
theorem simulates (hhello : (Message.hello sender.config.hello).InRange) (noise : Bytes → Prop) :
    Labelled.Simulates (system rs losing sender reader) (World.system rs sender.config reader)
      (fun a _ => ∀ datagram ∈ a.foreign, noise datagram) (Stands noise sender) where
  init := by
    rintro d ⟨gathered, now, hgathered, hstart⟩
    obtain ⟨w, hw, hstands⟩ := stands_start hhello hgathered hstart
    exact ⟨w, ⟨gathered, now, hw⟩, hstands⟩
  step a d d' w hnoise hw h hn := h.step hw hhello hnoise hn

theorem stands_of_reachable (hhello : (Message.hello sender.config.hello).InRange)
    (h : Labelled.Reach (system rs losing sender reader)
      (fun a _ => ∀ datagram ∈ a.foreign, noise datagram) d) :
    ∃ w, Labelled.Reachable (World.system rs sender.config reader) w ∧ d.Stands noise sender w :=
  (simulates hhello noise).reachable h

end Deployment

namespace Pump

variable {p p' : Pump} {sunk : List Bytes} {stopped stopped' : Prop} {n : ℕ}

/-- What the writer has taken, against what the session has handed over. -/
structure Drains (p : Pump) (sunk : List Bytes) (stopped : Prop) : Prop where
  taken : p.written <+: sunk.flatten
  behind : p.result = none → sunk.flatten = p.written ++ (p.buffer ++ p.blocks.flatten)
  through : p.result = some (.ok ()) → stopped ∧ p.written = sunk.flatten

theorem empty_drains (stopped : Prop) : empty.Drains [] stopped :=
  ⟨List.prefix_rfl, fun _ => rfl, by simp [empty]⟩

theorem Drains.mono (h : p.Drains sunk stopped) (hstopped : stopped → stopped') : p.Drains sunk stopped' :=
  ⟨h.taken, h.behind, fun hresult => ⟨hstopped (h.through hresult).1, (h.through hresult).2⟩⟩

theorem Drains.queue (h : p.Drains sunk stopped) (hrun : ¬ stopped) (handed : List Bytes) :
    (p.queue handed).Drains (sunk ++ handed) stopped' := by
  refine ⟨?_, fun hresult => ?_, fun hresult => absurd (h.through hresult).1 hrun⟩
  · rw [List.flatten_append]
    exact h.taken.trans (List.prefix_append _ _)
  · simp only [Pump.queue, List.flatten_append, h.behind hresult, List.append_assoc]

/-- What is kept back and what is on the channel, with the next block in one piece with what is kept back. -/
theorem held_append (p : Pump) : p.held ++ p.blocks.tail.flatten = p.buffer ++ p.blocks.flatten := by
  cases hblocks : p.blocks <;> simp [held, hblocks]

theorem Drains.write (h : p.Drains sunk stopped) (hn : p.write n = some p') : p'.Drains sunk stopped := by
  unfold Pump.write at hn
  split_ifs at hn with hguard
  cases hn
  obtain ⟨hrun, -⟩ := hguard
  have hbehind := h.behind (Option.isNone_iff_eq_none.mp hrun)
  have hall : sunk.flatten =
      (p.written ++ p.held.take n) ++ (p.held.drop n ++ p.blocks.tail.flatten) := by
    rw [hbehind, ← held_append, List.append_assoc, ← List.append_assoc (p.held.take n),
      List.take_append_drop]
  refine ⟨⟨_, hall.symm⟩, fun _ => hall, fun hresult => ?_⟩
  rw [Option.isNone_iff_eq_none.mp hrun] at hresult
  cases hresult

theorem Drains.fail (h : p.Drains sunk stopped) {error : IoError} (hn : p.fail error n = some p') :
    p'.Drains sunk stopped := by
  unfold Pump.fail at hn
  split_ifs at hn with hrun
  cases hn
  refine ⟨?_, by simp, by simp⟩
  rw [h.behind (Option.isNone_iff_eq_none.mp hrun), ← held_append, ← List.append_assoc]
  exact ((List.prefix_append_right_inj _).mpr (List.take_prefix _ _)).trans (List.prefix_append _ _)

/-- Once the channel is drained and flushed, the writer has all of it. -/
theorem Drains.finish (h : p.Drains sunk stopped) (hstopped : stopped) (hn : p.finish = some p') :
    p'.Drains sunk stopped := by
  unfold Pump.finish at hn
  split_ifs at hn with hguard
  cases hn
  obtain ⟨hrun, hempty⟩ := hguard
  have hall : p.written ++ p.buffer = sunk.flatten := by
    rw [h.behind (Option.isNone_iff_eq_none.mp hrun), hempty]
    simp
  exact ⟨hall ▸ List.prefix_rfl, by simp, fun _ => ⟨hstopped, hall⟩⟩

end Pump

namespace Deployment

variable {rs : ReedSolomon} {losing : Losing} {sender : Sender} {reader : Reader}
  {d d' : Deployment} {w : World}

/-- Every pump drains what its session hands over. -/
def Pumping (d : Deployment) : Prop := ∀ r, (d.pumps r).Drains (d.peers r).sunk (d.Over r)

theorem over_halt {r r' : ℕ} (halt : Halt) (h : d.Over r') : (d.halt r halt).Over r' := by
  rcases h with hended | hhalted
  · exact .inl hended
  · refine .inr ?_
    by_cases hr : r' = r
    · simp [Deployment.halt, hr]
    · simpa [Deployment.halt, Function.update_of_ne hr] using hhalted

theorem Pumping.halt (h : d.Pumping) (r : ℕ) (halt : Halt) : (d.halt r halt).Pumping :=
  fun r' => (h r').mono (over_halt halt)

theorem Pumping.stepPump (h : d.Pumping) {r : ℕ} {pump : Option Pump}
    (hpump : ∀ p, pump = some p → p.Drains (d.peers r).sunk (d.Over r))
    (hn : d.stepPump r pump = some d') : d'.Pumping := by
  obtain ⟨p, rfl, rfl⟩ := Option.map_eq_some_iff.mp hn
  intro r'
  by_cases hr : r' = r
  · subst hr
    show (Function.update d.pumps r' p r').Drains _ _
    rw [Function.update_self]
    exact hpump p rfl
  · show (Function.update d.pumps r p r').Drains _ _
    rw [Function.update_of_ne hr]
    exact h r'

theorem Pumping.afterTurn (h : d.Pumping) {r : ℕ} (hrun : ¬ d.Over r) (o : Outcome) :
    (d.afterTurn r o).Pumping := by
  unfold Deployment.afterTurn
  split_ifs
  · split
    · exact h.halt r _
    · intro r'
      by_cases hr : r' = r
      · subst hr
        dsimp only
        rw [Function.update_self, Function.update_self]
        exact (h r').queue hrun o.handed
      · have hsame : Over { d with
            peers := Function.update d.peers r
              { session := o.session, sunk := (d.peers r).sunk ++ o.handed, ended := o.ended } } r' ↔
            d.Over r' := by
          dsimp only [Over]
          rw [Function.update_of_ne hr]
        dsimp only
        rw [Function.update_of_ne hr, Function.update_of_ne hr]
        exact (h r').mono hsame.mpr
  · exact h.halt r _

theorem Pumping.step (h : d.Pumping) {a : Action} (hn : next rs losing sender a d = some d') :
    d'.Pumping := by
  cases a with
  | read =>
    obtain ⟨task, -, rfl⟩ := Option.map_eq_some_iff.mp hn
    exact h
  | feedback =>
    simp only [next, stepFeedback] at hn
    split at hn
    · cases hn
    · split_ifs at hn
      cases hn
      exact h
  | queue =>
    simp only [next, stepQueue] at hn
    split at hn
    · cases hn
    · split_ifs at hn
      cases hn
      exact h
  | round r heard =>
    simp only [next, stepRound] at hn
    split_ifs at hn
    split at hn
    · cases hn
      exact h
    · split at hn <;> cases hn <;> exact h
  | refused heard =>
    simp only [next, stepRefused] at hn
    split_ifs at hn
    split at hn <;> cases hn <;> exact h
  | cut error =>
    simp only [next] at hn
    split_ifs at hn
    cases hn
    exact h
  | turn r now woken sink =>
    simp only [next, stepTurn] at hn
    split_ifs at hn with hguard
    obtain ⟨-, halive, hrun, -⟩ := hguard
    have hgoes : ¬ d.Over r := by
      rintro (hended | hhalted)
      · simp_all
      · simp_all
    split at hn
    · cases hn
      exact h.halt r _
    · cases hn
    · split_ifs at hn
      cases hn
      exact h.afterTurn hgoes _
  | cutReceiver r error =>
    simp only [next] at hn
    split_ifs at hn
    cases hn
    exact h.halt r _
  | write r n => exact h.stepPump (fun p hp => (h r).write hp) hn
  | writerFails r error n => exact h.stepPump (fun p hp => (h r).fail hp) hn
  | flush r =>
    simp only [next] at hn
    split_ifs at hn with hover
    exact h.stepPump (fun p hp => (h r).finish hover hp) hn
  | strayDown r datagram =>
    simp only [next] at hn
    split_ifs at hn
    cases hn
    exact h
  | strayUp datagram =>
    simp only [next] at hn
    split_ifs at hn
    cases hn
    exact h
  | loseDown r datagram =>
    cases hn
    exact h
  | loseUp datagram =>
    cases hn
    exact h

theorem pumping_of_reachable (h : Labelled.Reachable (system rs losing sender reader) d) :
    d.Pumping := by
  refine Labelled.Reach.invariant (I := Pumping) ?_ ?_ h
  · rintro d ⟨gathered, now, -, hstart⟩ r
    obtain ⟨w, hw, hd⟩ := bind_ok_iff.mp hstart
    cases hd
    obtain ⟨-, slicer, assembler, -, -, rfl⟩ := World.start_eq_ok hw
    exact Pump.empty_drains _
  · rintro a d d' - hpumping hn
    exact hpumping.step hn

theorem recvTo_eq_ok {r : ℕ} {summary : TransferSummary}
    (h : d.recvTo r = some (some summary)) : (d.pumps r).result = some (.ok ()) ∧
      (d.peers r).ended = some (.returned (.ok summary)) := by
  unfold recvTo at h
  split at h
  · cases h
  · cases h
  · next hresult =>
    split at h
    · cases h
    · next hended =>
      cases h
      exact ⟨hresult, hended⟩
    · cases h

theorem hello_inRange : (Message.hello Sender.tiny.config.hello).InRange :=
  ⟨by decide, by simp [Sender.tiny, Config.tiny, Config.hello]⟩

theorem join_inRange : ∀ m ∈ [Message.join 7 0], m.InRange := by simp [Message.InRange]

/-- A byte is read and sent; its shard and the end of the input come glued together, behind what
else is read. -/
def byteRun (r : ℕ) (before : List Read) : List Action :=
  [.read, .queue, .read, .queue, .round ⟨0, 5000000, .tick⟩ [],
    .round ⟨5000000, 6000000, .taken 3 [.shard 0 0 0 0 [1, 0], .eof 1 1] false⟩ [],
    .turn r 6000000 (.reads (before ++ [⟨[(Incoming.shard ⟨0, 0, 7, 0, 0, 0, [1, 0]⟩).bytes,
      (Message.done ⟨7, 1, 1⟩).bytes], some 22⟩]) [6000000, 6000000]) ⟨5, false⟩]

/-- The same with somebody else's message, and a writer that keeps the block back up to the flush. -/
def strayRun : List Action :=
  .strayDown 0 (Message.join 8 1).bytes ::
    byteRun 0 [⟨[(Message.join 8 1).bytes], none⟩] ++ [.write 0 0, .flush 0]

/-- Every state of a deployment stands for one of the composed system: same parties, same queues,
same loop, and every datagram in flight is a message in flight there, or nothing of the transfer. -/
theorem refines_system (hhello : (Message.hello sender.config.hello).InRange)
    (h : Labelled.Reachable (system rs losing sender reader) d) :
    ∃ w, Labelled.Reachable (World.system rs sender.config reader) w ∧
      d.Stands (fun _ => True) sender w :=
  stands_of_reachable hhello (h.mono fun a _ _ _ (_ : _ ∈ a.foreign) => trivial)

/-- Four datagrams in flight, one of them somebody else's. -/
theorem refines_system_stray : ∃ d w,
    Labelled.Reachable (system .interpolated .none .tiny (.single [1])) d ∧
      Labelled.Reachable (World.system .interpolated (.tiny 2) (.single [1])) w ∧
      (d.air 0).length = 4 ∧ d.Stands (fun _ => True) .tiny w := by
  obtain ⟨d₀, hstart, d, hexec, hair⟩ : ∃ d₀,
      start .tiny (.single [1]) [.join 7 0] 0 = .ok d₀ ∧ ∃ d,
      Labelled.exec (system .interpolated .none .tiny (.single [1])) strayRun d₀ = some d ∧
        (d.air 0).length = 4 := by
    refine ⟨_, rfl, ?_⟩
    apply Option.map_eq_some_iff.mp
    decide +kernel
  have hreach : Labelled.Reachable (system .interpolated .none .tiny (.single [1])) d :=
    .exec (.start ⟨_, _, join_inRange, hstart⟩) hexec
  obtain ⟨w, hw, hstands⟩ := refines_system hello_inRange hreach
  exact ⟨d, w, hreach, hw, hair, hstands⟩

/-- Whatever is lost, doubled, late or glued together on the way, and whatever else is on the wire:
where `recv_to` returns a summary the writer has been given the input, byte for byte. -/
theorem success_writes_the_input (hhello : (Message.hello sender.config.hello).InRange)
    (h : Labelled.Reachable (system rs losing sender reader) d) {r : ℕ} {summary : TransferSummary}
    (hreturned : d.recvTo r = some (some summary)) :
    (d.pumps r).written = reader.bytes ∧ summary.totalBytes = reader.bytes.length := by
  obtain ⟨hresult, hended⟩ := recvTo_eq_ok hreturned
  obtain ⟨w, hw, hstands⟩ : ∃ w, Labelled.Reachable (World.system rs sender.config reader) w ∧
      d.Stands (fun _ => True) sender w :=
    stands_of_reachable hhello (h.mono fun a _ _ _ (_ : _ ∈ a.foreign) => trivial)
  obtain ⟨L, hs⟩ := World.sound_of_reachable hw
  have hpeer : (d.peers r).Sound rs L reader := hstands.peers ▸ hs.peers r
  obtain ⟨hsunk, htotal⟩ := hpeer.success summary hended
  obtain ⟨-, hwritten⟩ := (pumping_of_reachable h r).through hresult
  exact ⟨hwritten.trans hsunk, htotal⟩

theorem success_writes_the_input_byte : ∃ d,
    Labelled.Reachable (system .interpolated .none .tiny (.single [1])) d ∧
      d.recvTo 0 = some (some ⟨1, 1, 1, 1, 0, 0, 0, 6000000⟩) ∧ (d.pumps 0).written = [1] := by
  obtain ⟨d₀, hstart, d, hexec, hreturned⟩ : ∃ d₀,
      start .tiny (.single [1]) [.join 7 0] 0 = .ok d₀ ∧ ∃ d,
      Labelled.exec (system .interpolated .none .tiny (.single [1])) strayRun d₀ = some d ∧
        d.recvTo 0 = some (some ⟨1, 1, 1, 1, 0, 0, 0, 6000000⟩) := by
    refine ⟨_, rfl, ?_⟩
    apply Option.map_eq_some_iff.mp
    decide +kernel
  have hreach : Labelled.Reachable (system .interpolated .none .tiny (.single [1])) d :=
    .exec (.start ⟨_, _, join_inRange, hstart⟩) hexec
  exact ⟨d, hreach, hreturned, (success_writes_the_input hello_inRange hreach hreturned).1⟩

end Deployment
end Scuttlecast
