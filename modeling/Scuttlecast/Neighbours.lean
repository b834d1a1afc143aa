import Scuttlecast.Deployed
import Scuttlecast.Endings

/-! Other transfers on the same group and port do no harm. As long as something can be made of every
datagram, nothing that anybody sends is refused by anybody else. -/
namespace Scuttlecast
namespace Deployment

variable {rs : ReedSolomon} {losing : Losing} {sender : Sender} {reader : Reader}
  {d d' : Deployment} {w : World}

/-- Other traffic is read as what it is. -/
def Action.Polite (a : Action) : Prop := ∀ datagram ∈ a.foreign, Accepted datagram

/-- Something can be made of whatever is in flight. -/
theorem Stands.accepted (h : d.Stands Accepted sender w) {r : ℕ} {datagram : Bytes}
    (hd : datagram ∈ d.air r) : Accepted datagram ∧ datagram ≠ [] := by
  have haccepted : Accepted datagram := by
    rcases h.air r datagram hd with ⟨hforeign, -⟩ | ⟨i, hi, rfl⟩
    · exact hforeign
    · exact ⟨i, classify_written (h.typed.air r i hi).range⟩
  refine ⟨haccepted, ?_⟩
  rintro rfl
  obtain ⟨i, hread⟩ := haccepted
  cases hread

theorem Stands.accepted_uplink (h : d.Stands Accepted sender w) {datagram : Bytes}
    (hd : datagram ∈ d.uplink) : Accepted (datagram.take maxControlSize) := by
  rcases h.uplink datagram hd with ⟨hforeign, -⟩ | ⟨m, -, hsendable, rfl⟩
  · exact hforeign
  · rw [List.take_of_length_le hsendable.fits]
    have hread := classify_control hsendable.range []
    rw [List.append_nil] at hread
    exact ⟨_, hread⟩

/-- A receiver makes something of whatever it reads. -/
theorem Stands.wake_ne_error (h : d.Stands Accepted sender w) (r : ℕ) (woken : Woken) (halt : Halt) :
    d.wake losing sender.config.transferId r woken ≠ .error halt := by
  cases woken with
  | reads reads times =>
    unfold wake Listener.wake
    dsimp only
    split_ifs with hreads
    · have haccepted : ∀ read ∈ reads.map Read.received, read.1 ≠ [] ∧ (∀ s ∈ read.2, 0 < s) ∧
          ∀ piece ∈ pieces read.1 read.2, Accepted piece := by
        intro received hreceived
        obtain ⟨read, hread, rfl⟩ := List.mem_map.mp hreceived
        obtain ⟨hglued, hair⟩ := hreads read hread
        obtain ⟨hne, hstride⟩ := Read.received_ne_nil hglued fun datagram hd =>
          (h.accepted (hair datagram hd)).2
        refine ⟨hne, hstride, fun piece hpiece => ?_⟩
        exact (h.accepted (hair piece (Read.mem_of_pieces hglued hpiece))).1
      obtain ⟨received, hrecv, herror⟩ := Listener.recvBatch_of_accepted
        (l := ⟨sender.config.transferId, losing.receivers r⟩) haccepted []
      rw [hrecv]
      rcases received with _ | error | arrivals
      · simp
      · exact absurd rfl (herror error)
      · simp
    · simp
  | _ => simp [wake, Listener.wake]

/-- Nobody is over for anything it was sent, or had to send. -/
structure Harmless (d : Deployment) : Prop where
  sender : ∀ error, d.halted ≠ some (.protocol error)
  receivers : ∀ r halt, d.halts r = some halt →
    (∃ error, halt = .socket error) ∨ halt = .panicked (.overflow 64)

theorem Harmless.halt (h : d.Harmless) (r : ℕ) {halt : Halt}
    (hhalt : (∃ error, halt = .socket error) ∨ halt = .panicked (.overflow 64)) :
    (d.halt r halt).Harmless := by
  refine ⟨h.sender, fun r' halt' hhalt' => ?_⟩
  by_cases hr : r' = r
  · simp only [Deployment.halt, hr, Function.update_self, Option.some.injEq] at hhalt'
    exact hhalt' ▸ hhalt
  · simp only [Deployment.halt, Function.update_of_ne hr] at hhalt'
    exact h.receivers r' halt' hhalt'

theorem Harmless.stepRound (h : d.Harmless) (hstands : d.Stands Accepted sender w)
    (hw : Labelled.Reachable (World.system rs sender.config reader) w)
    (hhello : (Message.hello sender.config.hello).InRange) {r : Round} {heard : List Bytes}
    (hn : d.stepRound losing sender r heard = some d') : d'.Harmless := by
  unfold Deployment.stepRound at hn
  split_ifs at hn with hguard
  obtain ⟨-, henabled, hoffers⟩ := hguard
  split at hn
  · cases hn
    exact ⟨by simp, h.receivers⟩
  · next s hturn =>
    split at hn
    · next halt hall =>
      cases hn
      obtain ⟨multicast, hexec, hdelivered, -⟩ := hstands.exec_round hw henabled hoffers hturn
      have htyped := hstands.typed.exec hhello hw hexec
      refine ⟨fun error hhalt => ?_, h.receivers⟩
      cases hhalt
      exact hdelivered.all_ne_protocol (fun i hi => htyped.air 0 i (List.mem_append_right _ hi)) error
        hall
    · cases hn
      exact ⟨h.sender, h.receivers⟩

theorem Harmless.stepTurn (h : d.Harmless) (hstands : d.Stands Accepted sender w) {r now : ℕ}
    {woken : Woken} {sink : Sink}
    (hn : d.stepTurn rs losing sender.config.transferId r now woken sink = some d') :
    d'.Harmless := by
  unfold Deployment.stepTurn at hn
  split_ifs at hn with hguard
  obtain ⟨hr, -, hrun, -⟩ := hguard
  split at hn
  · next halt hwake => exact absurd hwake (hstands.wake_ne_error r woken halt)
  · cases hn
  · next branch hwake =>
    split_ifs at hn
    cases hn
    have hspeaks : Session.Speaks (d.peers r).session
        ((d.peers r).session.turn rs now branch sink) := by
      rw [← hstands.peers]
      exact (hstands.typed.peers r hr).turn (hstands.typed.heard (hstands.delivers hwake)) now sink
    unfold Deployment.afterTurn
    split_ifs with hcount
    · rw [Sent.all_controls (hspeaks.sent hcount)]
      exact ⟨h.sender, h.receivers⟩
    · exact h.halt r (.inr rfl)

theorem Harmless.step (h : d.Harmless) (hstands : d.Stands Accepted sender w)
    (hw : Labelled.Reachable (World.system rs sender.config reader) w)
    (hhello : (Message.hello sender.config.hello).InRange) {a : Action}
    (hn : next rs losing sender a d = some d') : d'.Harmless := by
  have hbeside {d' : Deployment} (hhalted : d'.halted = d.halted) (hhalts : d'.halts = d.halts) :
      d'.Harmless := ⟨hhalted ▸ h.sender, hhalts ▸ h.receivers⟩
  cases a with
  | read =>
    obtain ⟨task, -, rfl⟩ := Option.map_eq_some_iff.mp hn
    exact hbeside rfl rfl
  | feedback =>
    simp only [next, stepFeedback] at hn
    split at hn
    · cases hn
    · split_ifs at hn
      cases hn
      exact hbeside rfl rfl
  | queue =>
    simp only [next, stepQueue] at hn
    split at hn
    · cases hn
    · split_ifs at hn
      cases hn
      exact hbeside rfl rfl
  | round r heard => exact h.stepRound hstands hw hhello hn
  | refused heard =>
    simp only [next, stepRefused] at hn
    split_ifs at hn with hguard
    obtain ⟨received, hrecv, herror⟩ : ∃ received,
        recvControl losing.sender (some sender.config.transferId) heard = .ok received ∧
          ∀ e, received ≠ some (.error e) :=
      recvControl_of_accepted fun datagram hd => hstands.accepted_uplink (hguard.2 datagram hd)
    rw [hrecv] at hn
    rcases received with _ | error | message
    · cases hn
    · exact absurd rfl (herror error)
    · cases hn
  | cut error =>
    simp only [next] at hn
    split_ifs at hn
    cases hn
    exact ⟨by simp, h.receivers⟩
  | turn r now woken sink => exact h.stepTurn hstands hn
  | cutReceiver r error =>
    simp only [next] at hn
    split_ifs at hn
    cases hn
    exact h.halt r (.inl ⟨error, rfl⟩)
  | write r n =>
    obtain ⟨pump, -, rfl⟩ := Option.map_eq_some_iff.mp hn
    exact hbeside rfl rfl
  | writerFails r error n =>
    obtain ⟨pump, -, rfl⟩ := Option.map_eq_some_iff.mp hn
    exact hbeside rfl rfl
  | flush r =>
    simp only [next] at hn
    split_ifs at hn
    obtain ⟨pump, -, rfl⟩ := Option.map_eq_some_iff.mp hn
    exact hbeside rfl rfl
  | strayDown r datagram =>
    simp only [next] at hn
    split_ifs at hn
    cases hn
    exact hbeside rfl rfl
  | strayUp datagram =>
    simp only [next] at hn
    split_ifs at hn
    cases hn
    exact hbeside rfl rfl
  | loseDown r datagram =>
    cases hn
    exact hbeside rfl rfl
  | loseUp datagram =>
    cases hn
    exact hbeside rfl rfl

theorem harmless_of_reach (hhello : (Message.hello sender.config.hello).InRange)
    (h : Labelled.Reach (system rs losing sender reader) (fun a _ => a.Polite) d) :
    d.Harmless ∧ ∃ w, Labelled.Reachable (World.system rs sender.config reader) w ∧
      d.Stands Accepted sender w := by
  refine Labelled.Reach.invariant (I := fun d => d.Harmless ∧ ∃ w,
    Labelled.Reachable (World.system rs sender.config reader) w ∧ d.Stands Accepted sender w) ?_ ?_ h
  · rintro d hinit
    refine ⟨?_, (simulates hhello Accepted).reachable (.start hinit)⟩
    obtain ⟨gathered, now, -, hstart⟩ := hinit
    obtain ⟨w, -, hd⟩ := bind_ok_iff.mp hstart
    cases hd
    exact ⟨by simp, by simp⟩
  · rintro a d d' hforeign ⟨hharmless, w, hw, hstands⟩ hn
    refine ⟨hharmless.step hstands hw hhello hn, ?_⟩
    obtain ⟨actions, w', hexec, hstands'⟩ := hstands.step hw hhello hforeign hn
    exact ⟨w', hw.exec hexec, hstands'⟩

/-- Whatever other transfers send, nobody is over for what it is sent. The sender never stops at a
datagram; a receiver is over before its session only for its socket, or for having counted all the
shards it can; and its session ends only in the ways its code foresees, with a request too long for
its datagram only where a slice has more than 840 blocks. -/
theorem neighbours_do_no_harm (hhello : (Message.hello sender.config.hello).InRange)
    (h : Labelled.Reach (system rs losing sender reader) (fun a _ => a.Polite) d) :
    (∀ error, d.halted ≠ some (.protocol error)) ∧
      ∀ r, (∀ halt, d.halts r = some halt →
          (∃ error, halt = .socket error) ∨ halt = .panicked (.overflow 64)) ∧
        ∀ e, (d.peers r).ended = some e → e.Foreseen ∧
          (r < 2 ^ 64 → sender.config.geometry.blocksPerSlice ≤ 840 → e ≠ Session.unsendable) := by
  obtain ⟨hharmless, w, hw, hstands⟩ := harmless_of_reach hhello h
  refine ⟨hharmless.sender, fun r => ⟨hharmless.receivers r, fun e he => ?_⟩⟩
  have hends := World.endsWell_of_reachable hhello.1 hw r
  rw [hstands.peers] at hends
  refine ⟨hends.foreseen e he, fun hr hblocks hunsendable => ?_⟩
  exact (hends.shaped hr hblocks).2 (hunsendable ▸ he)

/-- The neighbour joins a transfer of its own. -/
theorem neighbours_do_no_harm_join : ∃ d e,
    Labelled.Reach (system .interpolated .none .tiny (.single [1])) (fun a _ => a.Polite) d ∧
      (d.peers 0).ended = some e ∧ e.Foreseen := by
  obtain ⟨d₀, hstart, d, hexec, hended⟩ : ∃ d₀,
      start .tiny (.single [1]) [.join 7 0] 0 = .ok d₀ ∧ ∃ d,
      Labelled.exec (system .interpolated .none .tiny (.single [1])) strayRun d₀ = some d ∧
        (d.peers 0).ended.isSome = true := by
    refine ⟨_, rfl, ?_⟩
    apply Option.map_eq_some_iff.mp
    decide +kernel
  obtain ⟨e, he⟩ := Option.isSome_iff_exists.mp hended
  have hjoin : Accepted (Message.join 8 1).bytes := ⟨_, rfl⟩
  have hpolite : ∀ a ∈ strayRun, a.Polite := by
    simp [strayRun, byteRun, Action.Polite, Action.foreign, hjoin]
  have hreach : Labelled.Reach (system .interpolated .none .tiny (.single [1]))
      (fun a _ => a.Polite) d :=
    .exec_of_ok (.start ⟨_, _, join_inRange, hstart⟩) (fun a ha _ => hpolite a ha) hexec
  have hends := (neighbours_do_no_harm hello_inRange hreach).2 0
  exact ⟨d, e, hreach, he, (hends.2 e he).1⟩

end Deployment
end Scuttlecast
