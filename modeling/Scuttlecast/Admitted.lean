import Scuttlecast.Admission
import Scuttlecast.Deployed
import Scuttlecast.Receiver.Idle

/-! Who is admitted, and in what state. Whoever is in the group has joined this transfer and no other,
and by the time the group is complete nothing has happened to its session. -/
namespace Scuttlecast

namespace Candidate

/-- It has answered the `Hello` of this transfer. -/
def HasJoined : Candidate → Prop
  | .joined .. | .refused _ => True
  | _ => False

/-- It waits for a `Hello`, or it has joined, and its session is not over. -/
def Waits : Candidate → Prop
  | .listening _ => True
  | .joined peer none => peer.ended = none
  | _ => False

instance (c : Candidate) : Decidable c.HasJoined :=
  match c with
  | .joined .. | .refused _ => .isTrue trivial
  | .listening _ | .timedOut | .deaf _ | .elsewhere => .isFalse id

instance (c : Candidate) : Decidable c.Waits :=
  match c with
  | .listening _ => .isTrue trivial
  | .joined peer none => decidable_of_iff (peer.ended.isNone = true) Option.isNone_iff_eq_none
  | .joined _ (some _) | .timedOut | .deaf _ | .elsewhere | .refused _ => .isFalse id

/-- A session that is still as new, and at worst over because it never heard of the sender again.
It need not have got that far: the `Hello` may ask for what `Session::new` refuses, and the task may
have been stopped by its socket, or by a datagram that it cannot read, before its loop was over. -/
def Sound (config : Config) (r : ℕ) : Candidate → Prop
  | .joined peer _ => r < 2 ^ 64 ∧ (∃ assembler started handover packet,
      Assembler.new config.geometry = .ok assembler ∧
        peer.session = .idle config.hello assembler r started handover packet) ∧
      peer.sunk = [] ∧ (peer.ended = none ∨ peer.ended = some Session.unheard)
  | .refused error => r < 2 ^ 64 ∧ Assembler.new config.geometry = .error error
  | _ => True

theorem Sound.lt {config : Config} {r : ℕ} {c : Candidate} (h : c.Sound config r)
    (hjoined : c.HasJoined) : r < 2 ^ 64 := by
  cases c with
  | joined => exact h.1
  | refused => exact h.1
  | _ => cases hjoined

end Candidate

namespace Admission

variable {rs : ReedSolomon} {losing : Losing} {config : Config} {minReceivers : ℕ}
  {a a' : Admission}

theorem join_sendable {transferId r : ℕ} (htransfer : transferId < 2 ^ 64) (hr : r < 2 ^ 64) :
    (Message.join transferId r).Sendable :=
  .of_plain ⟨htransfer, hr⟩ (by simp) (by simp)

theorem nothing_sendable {transferId r : ℕ} (htransfer : transferId < 2 ^ 64) (hr : r < 2 ^ 64) :
    (Session.nothing transferId r).Sendable :=
  .of_plain ⟨htransfer, hr, by simp, by simp, by simp, by simp⟩ (by simp [Session.nothing])
    (by simp [Session.nothing])

theorem hello_sendable (hhello : (Message.hello config.hello).InRange) :
    (Message.hello config.hello).Sendable :=
  .of_plain hhello (by simp) (by simp)

theorem datagrams_of_sendable {m : Message} (h : m.Sendable) :
    Sent.datagrams (.control m) = .ok [m.bytes] := by
  rw [Sent.datagrams, h.encode]

/-- A message that can be sent is read as what it is, in as much of it as is taken. -/
theorem classify_take {m : Message} (h : m.Sendable) :
    classify (m.bytes.take maxControlSize) = .ok (.ok (.control m)) := by
  rw [List.take_of_length_le h.fits]
  have hread := classify_control h.range []
  rwa [List.append_nil] at hread

/-- The group is made of who has joined, and everything in flight that is of the transfer was sent
before there was anything to send. -/
structure Gathers (config : Config) (a : Admission) : Prop where
  group : a.group = SendLoop.gather a.heard
  range : ∀ m ∈ a.heard, m.InRange
  members : ∀ r ∈ a.group.participants, (a.candidates r).HasJoined
  air : ∀ r, ∀ datagram ∈ a.air r, Foreign config.transferId datagram ∨
    datagram = (Message.hello config.hello).bytes
  uplink : ∀ datagram ∈ a.uplink, Deployment.Stray config.transferId (datagram.take maxControlSize) ∨
    ∃ r, (a.candidates r).HasJoined ∧ (datagram = (Message.join config.transferId r).bytes ∨
      datagram = (Session.nothing config.transferId r).bytes)
  candidates : ∀ r, (a.candidates r).Sound config r
  finite : ∃ joined : List ℕ, ∀ r, (a.candidates r).HasJoined → r ∈ joined

theorem gathers_start (config : Config) (now : ℕ) (deadlines : ℕ → ℕ) :
    (start config now deadlines).Gathers config := by
  refine ⟨rfl, by simp [start], by simp [start, Group.empty], by simp [start], by simp [start],
    fun _ => trivial, [], fun r h => h.elim⟩

theorem gather_concat (heard : List Message) (message : Message) :
    SendLoop.gather (heard ++ [message]) = (SendLoop.gather heard).welcome message := by
  rw [SendLoop.gather, List.foldl_append]
  rfl

/-- What the sender makes of a message: somebody is in, or out, or nothing. -/
theorem settle_gathers (h : a.Gathers config) : (a.settle minReceivers).Gathers config := by
  unfold settle
  split_ifs
  · exact ⟨h.group, h.range, h.members, h.air, h.uplink, h.candidates, h.finite⟩
  · exact h

theorem Gathers.ended (h : a.Gathers config) (ended : Option (Except Halt Unit)) :
    Gathers config { a with ended := ended } :=
  ⟨h.group, h.range, h.members, h.air, h.uplink, h.candidates, h.finite⟩

theorem Gathers.hello (h : a.Gathers config) (hhello : (Message.hello config.hello).InRange) :
    (a.stepHello config minReceivers).Gathers config := by
  unfold stepHello
  rw [datagrams_of_sendable (hello_sendable hhello)]
  refine settle_gathers ⟨h.group, h.range, h.members, fun r datagram hd => ?_, h.uplink, h.candidates,
    h.finite⟩
  rcases List.mem_append.mp hd with hd | hd
  · exact h.air r datagram hd
  · exact .inr (List.mem_singleton.mp hd)

/-- Whatever the sender takes in, a receiver that has joined has sent. -/
theorem Gathers.heard (h : a.Gathers config) (htransfer : config.transferId < 2 ^ 64)
    {heard : List Bytes} {message : Message} (hheard : heard ⊆ a.uplink)
    (hrecv : recvControl losing.sender (some config.transferId) heard = .ok (some (.ok message))) :
    ∃ r, (a.candidates r).HasJoined ∧ (message = .join config.transferId r ∨
      message = Session.nothing config.transferId r) := by
  obtain ⟨hid, datagram, hmem, hread⟩ := mem_of_recvControl hrecv
  rcases h.uplink datagram (hheard hmem) with hstray | ⟨r, hjoined, hsent⟩
  · have hforeign := hstray _ hread
    simp [Incoming.belongsTo, hid _ rfl] at hforeign
  · have hr := (h.candidates r).lt hjoined
    refine ⟨r, hjoined, ?_⟩
    rcases hsent with rfl | rfl
    · rw [classify_take (join_sendable htransfer hr)] at hread
      cases hread
      exact .inl rfl
    · rw [classify_take (nothing_sendable htransfer hr)] at hread
      cases hread
      exact .inr rfl

theorem Gathers.stepHear (h : a.Gathers config) (htransfer : config.transferId < 2 ^ 64)
    {heard : List Bytes}
    (hn : a.stepHear losing config.transferId minReceivers heard = some a') : a'.Gathers config := by
  unfold Admission.stepHear at hn
  split_ifs at hn with hheard
  split at hn
  · cases hn
    exact h.ended _
  · cases hn
  · cases hn
    exact h.ended _
  · next message hrecv =>
    cases hn
    obtain ⟨r, hjoined, hsent⟩ := h.heard htransfer hheard hrecv
    have hr := (h.candidates r).lt hjoined
    refine settle_gathers ⟨?_, fun m hm => ?_, fun member hmember => ?_, h.air, h.uplink, h.candidates,
      h.finite⟩
    · rw [gather_concat, ← h.group]
    · rcases List.mem_append.mp hm with hm | hm
      · exact h.range m hm
      · rw [List.mem_singleton.mp hm]
        rcases hsent with rfl | rfl
        · exact (join_sendable htransfer hr).range
        · exact (nothing_sendable htransfer hr).range
    · rcases hsent with rfl | rfl
      · rcases (AList.mem_insert _).mp hmember with rfl | hmember
        · exact hjoined
        · exact h.members member hmember
      · exact h.members member hmember

/-- A receiver goes on to something else; if it has joined, it stays so. -/
theorem Gathers.become (h : a.Gathers config) {r : ℕ} {candidate : Candidate}
    {datagrams : List Bytes} (hsound : candidate.Sound config r)
    (hkeeps : (a.candidates r).HasJoined → candidate.HasJoined)
    (hsent : ∀ datagram ∈ datagrams, candidate.HasJoined ∧
      (datagram = (Message.join config.transferId r).bytes ∨
        datagram = (Session.nothing config.transferId r).bytes)) :
    (a.become r candidate datagrams).Gathers config := by
  have hmono (r' : ℕ) (hjoined : (a.candidates r').HasJoined) :
      ((a.become r candidate datagrams).candidates r').HasJoined := by
    by_cases hr : r' = r
    · subst hr
      simp only [Admission.become, Function.update_self]
      exact hkeeps hjoined
    · simpa only [Admission.become, Function.update_of_ne hr] using hjoined
  refine ⟨h.group, h.range, fun r' hr' => hmono r' (h.members r' hr'), h.air, fun datagram hd => ?_,
    fun r' => ?_, ?_⟩
  · rcases List.mem_append.mp hd with hd | hd
    · rcases h.uplink datagram hd with hstray | ⟨r', hjoined, heq⟩
      · exact .inl hstray
      · exact .inr ⟨r', hmono r' hjoined, heq⟩
    · obtain ⟨hjoined, heq⟩ := hsent datagram hd
      refine .inr ⟨r, ?_, heq⟩
      simpa only [Admission.become, Function.update_self] using hjoined
  · by_cases hr : r' = r
    · subst hr
      simpa only [Admission.become, Function.update_self] using hsound
    · simpa only [Admission.become, Function.update_of_ne hr] using h.candidates r'
  · obtain ⟨joined, hall⟩ := h.finite
    refine ⟨r :: joined, fun r' hjoined => ?_⟩
    by_cases hr : r' = r
    · exact hr ▸ List.mem_cons_self
    · simp only [Admission.become, Function.update_of_ne hr] at hjoined
      exact List.mem_cons_of_mem _ (hall r' hjoined)

/-- The only `Hello` of the transfer is the sender's. -/
theorem Gathers.hello_of_read (h : a.Gathers config)
    (hhello : (Message.hello config.hello).InRange) {r : ℕ} {datagram : Bytes} {hello : Hello}
    (hair : datagram ∈ a.air r)
    (hread : classify (datagram.take maxControlSize) = .ok (.ok (.control (.hello hello))))
    (hid : hello.transferId = config.transferId) : hello = config.hello := by
  rcases h.air r datagram hair with ⟨-, hstray⟩ | rfl
  · have hforeign := hstray _ hread
    simp [Incoming.belongsTo, Message.transferId, hid] at hforeign
  · rw [classify_take (hello_sendable hhello)] at hread
    cases hread
    rfl

/-- What a session takes up before there is a shard is the `Hello` once more. -/
theorem Gathers.hello_of_wake (h : a.Gathers config)
    (hhello : (Message.hello config.hello).InRange) {swallows : Incoming → Bool} {r : ℕ}
    {woken : Woken} {arrivals : List (ℕ × Incoming)}
    (hwake : (⟨config.transferId, swallows⟩ : Listener).wake (a.air r) woken =
      .ok (some (.packets arrivals))) {arrival : ℕ × Incoming} (harrival : arrival ∈ arrivals) :
    arrival.2 = .control (.hello config.hello) := by
  obtain ⟨datagram, hair, hread, hkept⟩ := Listener.mem_of_wake hwake harrival
  simp only [Listener.keeps, Bool.and_eq_true] at hkept
  rcases h.air r datagram hair with ⟨hstray, -⟩ | rfl
  · rw [hstray _ hread] at hkept
    cases hkept.1
  · have hwritten := classify_control (hello_sendable hhello).range []
    rw [List.append_nil, hread] at hwritten
    exact Except.ok.inj (Except.ok.inj hwritten)

theorem joinSession_cases {swallows : Incoming → Bool} {transferId r now : ℕ} {heard : List Bytes}
    {candidate : Candidate} {datagrams : List Bytes}
    (h : joinSession swallows transferId r now heard = some (candidate, datagrams)) :
    (¬ candidate.HasJoined ∧ datagrams = []) ∨ ∃ hello, hello.transferId = transferId ∧
      recvControl swallows none heard = .ok (some (.ok (.hello hello))) ∧
      Sent.datagrams (.control (.join transferId r)) = .ok datagrams ∧
      ((∃ session, Session.new hello r now = .ok session ∧
          candidate = .joined { session := session, sunk := [], ended := none } none) ∨
        ∃ error, Session.new hello r now = .error error ∧ candidate = .refused error) := by
  unfold joinSession at h
  split at h
  · cases h
    exact .inl ⟨id, rfl⟩
  · cases h
  · cases h
    exact .inl ⟨id, rfl⟩
  · next hello hrecv =>
    split at h
    · cases h
      exact .inl ⟨id, rfl⟩
    · next datagrams' hjoin =>
      split_ifs at h with hid
      · refine .inr ⟨hello, hid, hrecv, ?_⟩
        subst hid
        split at h
        · next session hnew =>
          cases h
          exact ⟨hjoin, .inl ⟨session, hnew, rfl⟩⟩
        · next error hnew =>
          cases h
          exact ⟨hjoin, .inr ⟨error, hnew, rfl⟩⟩
      · cases h
        exact .inl ⟨id, rfl⟩
  · cases h

theorem sound_of_new {r now : ℕ} (hr : r < 2 ^ 64) {session : Session}
    (h : Session.new config.hello r now = .ok session) :
    (Candidate.joined { session := session, sunk := [], ended := none } none).Sound config r := by
  obtain ⟨assembler, hassembler, h⟩ := bind_ok_iff.mp h
  cases h
  exact ⟨hr, ⟨assembler, now, now, now, hassembler, rfl⟩, rfl, .inl rfl⟩

theorem Gathers.stepListen (h : a.Gathers config) (hhello : (Message.hello config.hello).InRange)
    {r now : ℕ} {heard : List Bytes}
    (hn : a.stepListen losing config.transferId r now heard = some a') : a'.Gathers config := by
  unfold Admission.stepListen at hn
  split at hn
  · next deadline hlistening =>
    split_ifs at hn with hguard
    obtain ⟨hr, hheard⟩ := hguard
    obtain ⟨⟨candidate, datagrams⟩, hjoin, rfl⟩ := Option.map_eq_some_iff.mp hn
    rcases joinSession_cases hjoin with ⟨hnot, rfl⟩ | ⟨hello, hid, hrecv, hsent, hsession⟩
    · refine h.become ?_ (by simp [hlistening, Candidate.HasJoined]) (by simp)
      cases candidate <;> first | trivial | exact absurd trivial hnot
    · obtain ⟨-, datagram, hmem, hread⟩ := mem_of_recvControl hrecv
      obtain rfl := h.hello_of_read hhello (hheard hmem) hread hid
      have htransfer : config.transferId < 2 ^ 64 := hhello.1
      rw [datagrams_of_sendable (join_sendable htransfer hr)] at hsent
      cases hsent
      rcases hsession with ⟨session, hnew, rfl⟩ | ⟨error, hnew, rfl⟩
      · exact h.become (sound_of_new hr hnew) (fun _ => trivial) (by simp [Candidate.HasJoined])
      · refine h.become ⟨hr, ?_⟩ (fun _ => trivial) (by simp [Candidate.HasJoined])
        unfold Session.new at hnew
        cases hassembler : Assembler.new config.hello.geometry with
        | error e =>
          rw [hassembler] at hnew
          cases hnew
          exact hassembler
        | ok assembler =>
          rw [hassembler] at hnew
          cases hnew
  · cases hn

/-- A turn whose messages can be sent. -/
theorem afterTurn_of_sendable {r : ℕ} (peer : Peer) {o : Outcome}
    (hcount : o.session.received < 2 ^ 64) (h : ∀ m ∈ o.sent, m.Sendable) :
    a.afterTurn r peer o = a.become r (.joined
      { session := o.session, sunk := peer.sunk ++ o.handed, ended := o.ended } none)
      (o.sent.map Message.bytes) := by
  rw [afterTurn, if_pos hcount, Sent.all_controls h]

theorem Gathers.stepTurn (h : a.Gathers config) (hhello : (Message.hello config.hello).InRange)
    {r now : ℕ} {woken : Woken} {sink : Sink}
    (hn : a.stepTurn rs losing config.transferId r now woken sink = some a') : a'.Gathers config := by
  unfold Admission.stepTurn at hn
  split at hn
  · next peer hcandidate =>
    have hsound := h.candidates r
    rw [hcandidate] at hsound
    have hover (halt : Halt) : (a.become r (.joined peer (some halt)) []).Gathers config :=
      h.become hsound (fun _ => trivial) (by simp)
    obtain ⟨hr, ⟨assembler, started, handover, packet, hassembler, hsession⟩, hsunk, -⟩ := hsound
    split_ifs at hn
    split at hn
    · cases hn
      exact hover _
    · cases hn
    · next branch hwake =>
      split_ifs at hn with henabled
      cases hn
      rw [hsession] at henabled
      obtain ⟨handover', packet', sent, ended, hturn, hsent, hended⟩ :=
        Session.turn_idle rs (show Assembler.new config.hello.geometry = _ from hassembler) henabled
          (fun arrivals hb arrival harrival =>
            ⟨_, h.hello_of_wake hhello (hb ▸ hwake) harrival⟩) sink
      rw [hsession, hturn]
      have hsendable : ∀ m ∈ sent, m.Sendable := by
        intro m hm
        rcases hsent m hm with rfl | rfl
        · exact join_sendable hhello.1 hr
        · exact nothing_sendable hhello.1 hr
      rw [afterTurn_of_sendable _ (Nat.two_pow_pos 64) hsendable]
      refine h.become ⟨hr, ⟨assembler, started, handover', packet', hassembler, rfl⟩, ?_, hended⟩
        (fun _ => trivial) fun datagram hd => ⟨trivial, ?_⟩
      · simp [hsunk]
      · obtain ⟨m, hm, rfl⟩ := List.mem_map.mp hd
        rcases hsent m hm with rfl | rfl
        · exact .inl rfl
        · exact .inr rfl
  · cases hn

theorem Gathers.step (h : a.Gathers config) (hhello : (Message.hello config.hello).InRange)
    {act : Action} (hn : next rs losing config minReceivers act a = some a') : a'.Gathers config := by
  cases act with
  | helloTick =>
    simp only [next] at hn
    split_ifs at hn
    cases hn
    exact h.hello hhello
  | hear heard =>
    simp only [next] at hn
    split_ifs at hn
    exact h.stepHear hhello.1 hn
  | deadline now =>
    simp only [next] at hn
    split_ifs at hn
    cases hn
    exact h.ended _
  | cut error =>
    simp only [next] at hn
    split_ifs at hn
    cases hn
    exact h.ended _
  | listen r now heard => exact h.stepListen hhello hn
  | timeOut r now =>
    simp only [next, stepTimeOut] at hn
    split at hn
    · next deadline hlistening =>
      split_ifs at hn
      cases hn
      exact h.become trivial (by simp [hlistening, Candidate.HasJoined]) (by simp)
    · cases hn
  | turn r now woken sink => exact h.stepTurn hhello hn
  | cutReceiver r error =>
    simp only [next, stepCut] at hn
    split at hn
    · next deadline hlistening =>
      cases hn
      exact h.become trivial (by simp [hlistening, Candidate.HasJoined]) (by simp)
    · next peer hjoined =>
      cases hn
      have hsound := h.candidates r
      rw [hjoined] at hsound
      exact h.become hsound (fun _ => trivial) (by simp)
    · cases hn
  | strayDown r datagram =>
    simp only [next] at hn
    split_ifs at hn with hforeign
    cases hn
    refine ⟨h.group, h.range, h.members, fun r' other hd => ?_, h.uplink, h.candidates, h.finite⟩
    rcases Deployment.mem_of_put hd with hd | rfl
    · exact h.air r' other hd
    · exact .inl hforeign
  | strayUp datagram =>
    simp only [next] at hn
    split_ifs at hn with hforeign
    cases hn
    refine ⟨h.group, h.range, h.members, h.air, fun other hd => ?_, h.candidates, h.finite⟩
    rcases List.mem_append.mp hd with hd | hd
    · exact h.uplink other hd
    · rw [List.mem_singleton.mp hd]
      exact .inl hforeign
  | loseDown r datagram =>
    cases hn
    exact ⟨h.group, h.range, h.members, fun r' other hd => h.air r' other (Deployment.mem_of_lost hd),
      h.uplink, h.candidates, h.finite⟩
  | loseUp datagram =>
    cases hn
    exact ⟨h.group, h.range, h.members, h.air, fun other hd => h.uplink other (List.mem_of_mem_erase hd),
      h.candidates, h.finite⟩

theorem gathers_of_reachable (hhello : (Message.hello config.hello).InRange)
    (h : Labelled.Reachable (system rs losing config minReceivers) a) : a.Gathers config := by
  refine Labelled.Reach.invariant (I := Gathers config) ?_ ?_ h
  · rintro a ⟨now, deadlines, rfl⟩
    exact gathers_start config now deadlines
  · rintro act a a' - hgathers hn
    exact hgathers.step hhello hn

/-- The group is complete as soon as it is large enough. -/
structure Short (minReceivers : ℕ) (a : Admission) : Prop where
  atMost : a.group.len ≤ max minReceivers 1
  fewer : a.ended = none → a.group.len < max minReceivers 1

theorem len_welcome_le (g : Group) (message : Message) : (g.welcome message).len ≤ g.len + 1 := by
  have hlen (g : Group) : g.len = g.participants.keys.length := by
    rw [Group.len, Table.values, AList.keys, List.keys, List.length_map, List.length_map]
  have herase (id : ℕ) : (g.participants.keys.erase id).length ≤ g.participants.keys.length :=
    List.length_erase_le
  cases message with
  | join transferId receiverId =>
    rw [hlen, hlen]
    simp only [Group.welcome, Group.join, AList.keys_insert, List.length_cons]
    exact Nat.succ_le_succ (herase receiverId)
  | leave transferId receiverId =>
    rw [hlen, hlen]
    simp only [Group.welcome, Group.leave, AList.keys_erase]
    exact (herase receiverId).trans (Nat.le_succ _)
  | _ => exact Nat.le_succ _

theorem settle_short {a : Admission} (hle : a.group.len ≤ max minReceivers 1) :
    (a.settle minReceivers).Short minReceivers := by
  unfold settle
  split_ifs with hlarge
  · exact ⟨hle, by simp⟩
  · exact ⟨hle, fun _ => lt_max_of_lt_left (not_le.mp hlarge)⟩

theorem Short.over (h : a.Short minReceivers) (result : Except Halt Unit) :
    Short minReceivers { a with ended := some result } := ⟨h.atMost, by simp⟩

theorem Short.step (h : a.Short minReceivers) {act : Action}
    (hn : next rs losing config minReceivers act a = some a') : a'.Short minReceivers := by
  have hbecome (r : ℕ) (candidate : Candidate) (datagrams : List Bytes) :
      (a.become r candidate datagrams).Short minReceivers := ⟨h.atMost, h.fewer⟩
  cases act with
  | helloTick =>
    simp only [next, stepHello] at hn
    split_ifs at hn
    split at hn
    · cases hn
      exact h.over _
    · cases hn
      exact settle_short h.atMost
  | hear heard =>
    simp only [next, stepHear] at hn
    split_ifs at hn with hopen
    split at hn
    · cases hn
      exact h.over _
    · cases hn
    · cases hn
      exact h.over _
    · next message _ =>
      cases hn
      have hfewer := h.fewer (Option.isNone_iff_eq_none.mp hopen)
      exact settle_short ((len_welcome_le a.group message).trans hfewer)
  | deadline now =>
    simp only [next] at hn
    split_ifs at hn
    cases hn
    exact h.over _
  | cut error =>
    simp only [next] at hn
    split_ifs at hn
    cases hn
    exact h.over _
  | listen r now heard =>
    simp only [next, stepListen] at hn
    split at hn
    · split_ifs at hn
      obtain ⟨⟨candidate, datagrams⟩, -, rfl⟩ := Option.map_eq_some_iff.mp hn
      exact hbecome r candidate datagrams
    · cases hn
  | timeOut r now =>
    simp only [next, stepTimeOut] at hn
    split at hn
    · split_ifs at hn
      cases hn
      exact hbecome r _ _
    · cases hn
  | turn r now woken sink =>
    simp only [next, stepTurn] at hn
    split at hn
    · split_ifs at hn
      split at hn
      · cases hn
        exact hbecome r _ _
      · cases hn
      · split_ifs at hn
        cases hn
        unfold afterTurn
        split_ifs
        · split
          · exact hbecome r _ _
          · exact hbecome r _ _
        · exact hbecome r _ _
    · cases hn
  | cutReceiver r error =>
    simp only [next, stepCut] at hn
    split at hn
    · cases hn
      exact hbecome r _ _
    · cases hn
      exact hbecome r _ _
    · cases hn
  | strayDown r datagram =>
    simp only [next] at hn
    split_ifs at hn
    cases hn
    exact ⟨h.atMost, h.fewer⟩
  | strayUp datagram =>
    simp only [next] at hn
    split_ifs at hn
    cases hn
    exact ⟨h.atMost, h.fewer⟩
  | loseDown r datagram =>
    cases hn
    exact ⟨h.atMost, h.fewer⟩
  | loseUp datagram =>
    cases hn
    exact ⟨h.atMost, h.fewer⟩

theorem short_of_reachable (h : Labelled.Reachable (system rs losing config minReceivers) a) :
    a.Short minReceivers := by
  refine Labelled.Reach.invariant (I := Short minReceivers) ?_ ?_ h
  · rintro a ⟨now, deadlines, rfl⟩
    have hempty : (start config now deadlines).group.len = 0 := rfl
    exact ⟨by omega, fun _ => by omega⟩
  · rintro act a a' - hshort hn
    exact hshort.step hn

/-- A datagram read by itself, of which something can be made that the listener keeps. -/
theorem wake_single {l : Listener} {air : List Bytes} {datagram : Bytes} {i : Incoming}
    (hair : datagram ∈ air) (hread : classify datagram = .ok (.ok i)) (hkeeps : l.keeps i = true)
    (now : ℕ) : l.wake air (.reads [⟨[datagram], none⟩] [now]) =
      .ok (some (.packets [(now, i)])) := by
  have hne : datagram ≠ [] := by
    rintro rfl
    cases hread
  have hpos := List.length_pos_iff.mpr hne
  have hone : Chunks.divCeil datagram.length datagram.length = 1 := by
    simpa using Chunks.divCeil_mul hpos 1
  have hrecv : l.recvBatch [(datagram, none)] [] = .ok (some (.ok [i])) := by
    have hpiece : classifyBy Message.bincode datagram = .ok (.ok i) := hread
    simp [Listener.recvBatch, Listener.readOne, Listener.readOneBy, stepBy_of_pos hpos, hone,
      ok_bind, Listener.readPiecesBy, hpiece, hkeeps]
  simp [Listener.wake, Read.Glued, Read.received, recvCoalesced, hair, hrecv]

theorem canReach_of_sent {r : ℕ} (hr : r < 2 ^ 64) (htransfer : config.transferId < 2 ^ 64)
    (hlosing : losing.sender (.control (.join config.transferId r)) = false)
    (hopen : a.ended = none) (hsent : (Message.join config.transferId r).bytes ∈ a.uplink) :
    Labelled.CanReach (system rs losing config minReceivers)
      (fun a => r ∈ a.group.participants) a := by
  have hrecv : recvControl losing.sender (some config.transferId)
      [(Message.join config.transferId r).bytes] = .ok (some (.ok (.join config.transferId r))) := by
    rw [recvControl, classify_take (join_sendable htransfer hr), ok_bind]
    simp [hlosing, Message.transferId]
  have hn : (system rs losing config minReceivers).next
      (.hear [(Message.join config.transferId r).bytes]) a =
      some (settle minReceivers { a with
        group := a.group.welcome (.join config.transferId r)
        heard := a.heard ++ [.join config.transferId r] }) := by
    simp [system, next, stepHear, hopen, hsent, hrecv]
  refine .step hn (.here ?_)
  have hin : r ∈ (a.group.welcome (.join config.transferId r)).participants :=
    (AList.mem_insert _).mpr (.inl rfl)
  unfold settle
  split_ifs <;> exact hin

/-- A receiver that waits, or whose answer got lost while its session runs, can always be admitted
yet. -/
theorem can_be_admitted (hhello : (Message.hello config.hello).InRange) (hmin : 0 < minReceivers)
    (h : Labelled.Reachable (system rs losing config minReceivers) a) (hopen : a.ended = none)
    {r : ℕ} (hr : r < 2 ^ 64) (hwaits : (a.candidates r).Waits)
    (hdown : losing.receivers r (.control (.hello config.hello)) = false)
    (hup : losing.sender (.control (.join config.transferId r)) = false) :
    Labelled.CanReach (system rs losing config minReceivers)
      (fun a => r ∈ a.group.participants) a := by
  have hgathers := gathers_of_reachable hhello h
  have hfew : a.group.len < minReceivers := by
    have hfewer := (short_of_reachable h).fewer hopen
    rwa [max_eq_left hmin] at hfewer
  -- the next tick multicasts another `Hello`, and the group is still not complete
  set hello := (Message.hello config.hello).bytes with hbytes
  have htick : (system rs losing config minReceivers).next .helloTick a =
      some { a with air := fun r => a.air r ++ [hello] } := by
    have hsent := datagrams_of_sendable (hello_sendable hhello)
    simp only [system, next, hopen, Option.isNone_none, if_true, stepHello, hsent, settle]
    rw [if_neg (not_le.mpr hfew)]
  refine .step htick ?_
  have hair : hello ∈ a.air r ++ [hello] := by simp
  have htransfer : config.transferId < 2 ^ 64 := hhello.1
  have hjoin := datagrams_of_sendable (join_sendable htransfer hr)
  -- whatever it is by then, the receiver answers it
  suffices hanswers : ∃ act candidate, (system rs losing config minReceivers).next act
      { a with air := fun r => a.air r ++ [hello] } = some (Admission.become
        { a with air := fun r => a.air r ++ [hello] } r candidate
        [(Message.join config.transferId r).bytes]) by
    obtain ⟨act, candidate, hn⟩ := hanswers
    exact .step hn (canReach_of_sent hr hhello.1 hup hopen (by simp [Admission.become]))
  cases hcandidate : a.candidates r with
  | listening deadline =>
    have hrecv : recvControl (losing.receivers r) none [hello] =
        .ok (some (.ok (.hello config.hello))) := by
      rw [recvControl, hbytes, classify_take (hello_sendable hhello), ok_bind]
      simp [hdown]
    have hid : config.hello.transferId = config.transferId := rfl
    refine ⟨.listen r 0 [hello], ?_⟩
    simp only [system, next, stepListen, hcandidate]
    rw [if_pos ⟨hr, by simp⟩]
    simp only [joinSession, hrecv, hid, hjoin, if_true]
    cases Session.new config.hello r 0 with
    | ok session => exact ⟨_, rfl⟩
    | error e => exact ⟨_, rfl⟩
  | joined peer halt =>
    have hsound := hgathers.candidates r
    rw [hcandidate] at hsound hwaits
    obtain ⟨-, ⟨assembler, started, handover, packet, hassembler, hsession⟩, -, -⟩ := hsound
    obtain rfl : halt = none := by
      cases halt
      · rfl
      · exact hwaits.elim
    have hrun : peer.ended = none := hwaits
    have hread := classify_control (hello_sendable hhello).range []
    rw [List.append_nil] at hread
    have hkeeps : (⟨config.transferId, losing.receivers r⟩ : Listener).keeps
        (.control (.hello config.hello)) = true := by
      have hbelongs : (Incoming.control (.hello config.hello)).belongsTo config.transferId = true :=
        decide_eq_true rfl
      simp only [Listener.keeps, hbelongs, hdown, Bool.not_false, Bool.and_self]
    have hturn : (Session.idle config.hello assembler r started handover packet).turn rs 0
        (.packets [(0, .control (.hello config.hello))]) ⟨0, false⟩ =
          { session := .idle config.hello assembler r started 0 0
            sent := [.join config.transferId r] } :=
      Session.turn_packets rs hassembler (by simp) ⟨0, false⟩
    refine ⟨.turn r 0 (.reads [⟨[hello], none⟩] [0]) ⟨0, false⟩, ?_⟩
    have hsendable : ∀ m ∈ [Message.join config.transferId r], m.Sendable := by
      simpa using join_sendable htransfer hr
    simp only [system, next, stepTurn, hcandidate, hrun, Option.isNone_none, if_true,
      wake_single hair hread hkeeps, hsession, hturn, Session.Enabled]
    rw [afterTurn_of_sendable _ (Nat.two_pow_pos 64) hsendable]
    exact ⟨_, rfl⟩
  | _ => exact absurd hwaits (by simp [hcandidate, Candidate.Waits])

/-- A receiver joins that somebody else's `Hello` has reached as well, and its answer is lost. -/
def lostAnswer : List Action :=
  [.helloTick, .strayDown 0 (Message.hello { Sender.tiny.config.hello with transferId := 8 }).bytes,
    .listen 0 5 [(Message.hello Sender.tiny.config.hello).bytes], .loseUp (Message.join 7 0).bytes]

theorem can_be_admitted_again : ∃ a,
    Labelled.exec (system .interpolated .none (.tiny 2) 1) lostAnswer (start (.tiny 2) 0 fun _ => 9) =
      some a ∧ a.uplink = [] ∧ 0 ∉ a.group.participants ∧
      Labelled.CanReach (system .interpolated .none (.tiny 2) 1)
        (fun a => 0 ∈ a.group.participants) a := by
  obtain ⟨a, hexec, hstate⟩ : ∃ a,
      Labelled.exec (system .interpolated .none (.tiny 2) 1) lostAnswer
        (start (.tiny 2) 0 fun _ => 9) = some a ∧
        (a.uplink, a.group.participants.keys, a.ended.isNone, decide (a.candidates 0).Waits) =
          ([], [], true, true) := by
    apply Option.map_eq_some_iff.mp
    decide +kernel
  have hreach : Labelled.Reachable (system .interpolated .none (.tiny 2) 1) a :=
    .exec (.start ⟨0, _, rfl⟩) hexec
  simp only [Prod.mk.injEq, Option.isNone_iff_eq_none, decide_eq_true_eq] at hstate
  obtain ⟨huplink, hkeys, hopen, hwaits⟩ := hstate
  refine ⟨a, hexec, huplink, fun hmember => ?_, ?_⟩
  · have hkey := AList.mem_keys.mp hmember
    rw [hkeys] at hkey
    cases hkey
  · exact can_be_admitted ⟨by decide, by simp [Config.tiny, Config.hello]⟩ Nat.zero_lt_one hreach
      hopen (Nat.two_pow_pos 64) hwaits rfl rfl

/-- Whoever is in the group has answered this transfer's `Hello`, whatever else is on the wire. It
has been refused a session, or its session is as new, whether its task goes on or was stopped by an
error. There are never more than were asked for, and fewer as long as somebody is waited for. -/
theorem members_have_joined (hhello : (Message.hello config.hello).InRange)
    (h : Labelled.Reachable (system rs losing config minReceivers) a) :
    (∀ r ∈ a.group.participants, (a.candidates r).HasJoined ∧ (a.candidates r).Sound config r) ∧
      a.group.len ≤ max minReceivers 1 ∧ (a.ended = none → a.group.len < max minReceivers 1) := by
  have hgathers := gathers_of_reachable hhello h
  have hshort := short_of_reachable h
  exact ⟨fun r hr => ⟨hgathers.members r hr, hgathers.candidates r⟩, hshort.atMost, hshort.fewer⟩

/-- One receiver has joined this transfer, another one somebody else's. -/
def twoHellos : List Action :=
  [.helloTick, .listen 0 5 [(Message.hello Sender.tiny.config.hello).bytes],
    .strayDown 1 (Message.hello { Sender.tiny.config.hello with transferId := 8 }).bytes,
    .listen 1 5 [(Message.hello { Sender.tiny.config.hello with transferId := 8 }).bytes],
    .hear [(Message.join 7 0).bytes]]

theorem members_have_joined_one : ∃ a,
    Labelled.exec (system .interpolated .none (.tiny 2) 2) twoHellos (start (.tiny 2) 0 fun _ => 9) =
      some a ∧ a.group.participants.keys = [0] ∧ ¬ (a.candidates 1).HasJoined ∧
      (a.candidates 0).Sound (.tiny 2) 0 := by
  obtain ⟨a, hexec, hstate⟩ : ∃ a,
      Labelled.exec (system .interpolated .none (.tiny 2) 2) twoHellos
        (start (.tiny 2) 0 fun _ => 9) = some a ∧
        (a.group.participants.keys, decide (a.candidates 1).HasJoined) = ([0], false) := by
    apply Option.map_eq_some_iff.mp
    decide +kernel
  have hreach : Labelled.Reachable (system .interpolated .none (.tiny 2) 2) a :=
    .exec (.start ⟨0, _, rfl⟩) hexec
  simp only [Prod.mk.injEq, decide_eq_false_iff_not] at hstate
  obtain ⟨hkeys, hnot⟩ := hstate
  have hmember : 0 ∈ a.group.participants := AList.mem_keys.mpr (by rw [hkeys]; simp)
  obtain ⟨hall, -, -⟩ := members_have_joined ⟨by decide, by simp [Config.tiny, Config.hello]⟩ hreach
  exact ⟨a, hexec, hkeys, hnot, (hall 0 hmember).2⟩

end Admission
end Scuttlecast
