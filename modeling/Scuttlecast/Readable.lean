import Scuttlecast.Roster
import Scuttlecast.Sender.Egress
import Scuttlecast.Receiver.Wording

/-! Nothing is in flight that cannot be read: in every state of every run each message, whichever
way it goes, fits its datagram and is read back as itself. -/
namespace Scuttlecast

/-- Four bytes hold any character. -/
theorem utf8ByteSize_ofList_le (cs : List Char) : (String.ofList cs).utf8ByteSize ≤ 4 * cs.length := by
  induction cs with
  | nil => decide
  | cons c cs ih =>
    have hc := c.utf8Size_le_four
    rw [← List.singleton_append, String.ofList_append, String.utf8ByteSize_append,
      ← String.singleton_eq_ofList, String.utf8ByteSize_singleton, List.singleton_append,
      List.length_cons]
    omega

theorem Wire.length_writeString (s : String) : (Wire.writeString s).length =
    (Varint.encode s.utf8ByteSize).length + s.utf8ByteSize := by
  have hsize : s.toByteArray.data.toList.length = s.utf8ByteSize := by
    rw [Array.length_toList]
    rfl
  rw [Wire.writeString, Varint.length_encodeList, hsize]
  simp [hsize]

namespace Message

/-- A reason names a slice, and is short. -/
theorem evicted_sendable {m : Evicted} (htransfer : m.transferId < 2 ^ 64)
    (htarget : m.target < 2 ^ 64) {stuckAt : ℕ} (hstuck : stuckAt < 2 ^ 32)
    (hreason : m.reason = "silent for 10s while stuck at slice " ++ toString stuckAt) :
    (evicted m).Sendable := by
  have hdigits : (Nat.toDigits 10 stuckAt).length ≤ 10 :=
    (Nat.length_toDigits_le_iff (by decide) (by decide)).mpr (by omega)
  have hsize : m.reason.utf8ByteSize ≤ 80 := by
    have hprefix : ("silent for 10s while stuck at slice ").utf8ByteSize = 36 := by decide
    have hnumber := utf8ByteSize_ofList_le (Nat.toDigits 10 stuckAt)
    rw [hreason, String.utf8ByteSize_append, Nat.toString_eq_ofList_toDigits, hprefix]
    omega
  refine ⟨⟨htransfer, htarget, by omega⟩, ?_⟩
  have hvariant := Varint.length_encode_le 5
  have := Varint.length_encode_le m.transferId
  have := Varint.length_encode_le m.target
  have := Varint.length_encode_le m.reason.utf8ByteSize
  simp only [bytes, encodeBody, Wire.length_writeString, List.length_cons, List.length_append,
    maxControlSize]
  omega

/-- The receiver that sends the message. -/
def receiver : Message → Option ℕ
  | .join _ receiverId => some receiverId
  | .leave _ receiverId => some receiverId
  | .stats m => some m.receiverId
  | .nak m => some m.receiverId
  | _ => none

/-- What a session says is of its transfer, and from itself. -/
theorem source_of_says {s : Session} {m : Message} (h : s.Says m) :
    m.receiver = some s.receiverId ∧ m.transferId = s.transferId := by
  cases m with
  | join t id => exact ⟨congrArg some h.2, h.1⟩
  | stats stats => exact ⟨congrArg some h.2.1, h.1⟩
  | nak nak => exact ⟨congrArg some h.2, h.1⟩
  | _ => exact h.elim

end Message

/-- The totals of the message are numbers of their type. -/
def Outbound.Counted : Outbound → Prop
  | .shard .. => True
  | .eof totalBytes totalBlocks => totalBytes < 2 ^ 64 ∧ totalBlocks < 2 ^ 64

/-- What goes to the group can be sent, and is of the transfer. -/
structure Incoming.Sendable (config : Config) (i : Incoming) : Prop where
  range : i.InRange
  fits : ∀ m, i = .control m → m.Sendable
  belongs : i.belongsTo config.transferId

namespace Slicer

variable {rs : ReedSolomon} {s s' : Slicer} {messages : List Outbound}

/-- The totals of the slicer and of its messages are numbers of their type. -/
structure Counted (s : Slicer) (messages : List Outbound) : Prop where
  totalBytes : s.totalBytes < 2 ^ 64
  totalBlocks : s.totalBlocks < 2 ^ 64
  messages : ∀ m ∈ messages, m.Counted

theorem parityShards_counted {g : Geometry} {sliceNo sliceParity emitFloor index : ℕ}
    {payloads : List Bytes}
    (h : parityShards g sliceNo sliceParity emitFloor index payloads = .ok messages) :
    ∀ m ∈ messages, m.Counted := by
  induction payloads generalizing index messages with
  | nil =>
    cases h
    simp
  | cons payload payloads ih =>
    obtain ⟨slot, -, h⟩ := bind_ok_iff.mp h
    obtain ⟨shards, hshards, h⟩ := bind_ok_iff.mp h
    cases h
    exact List.forall_mem_cons.mpr ⟨trivial, ih hshards⟩

theorem queueSealed_counted {sealedSlice : Option Window.Sealed}
    (h : s.queueSealed sealedSlice = .ok (s', messages)) :
    s'.totalBytes = s.totalBytes ∧ s'.totalBlocks = s.totalBlocks ∧ ∀ m ∈ messages, m.Counted := by
  cases sealedSlice with
  | none =>
    cases h
    exact ⟨rfl, rfl, by simp⟩
  | some sealedSlice =>
    obtain ⟨shards, hshards, h⟩ := bind_ok_iff.mp h
    obtain ⟨emitFloor, -, h⟩ := bind_ok_iff.mp h
    cases h
    exact ⟨rfl, rfl, parityShards_counted hshards⟩

theorem push_counted {block : Bytes} (h : s.push rs block = .ok (s', messages)) :
    s'.Counted messages := by
  obtain ⟨totalBytes, hbytes, h⟩ := bind_ok_iff.mp h
  obtain ⟨totalBlocks, hblocks, h⟩ := bind_ok_iff.mp h
  obtain ⟨⟨pushed, window⟩, -, h⟩ := bind_ok_iff.mp h
  obtain ⟨⟨s₁, shards⟩, hshards, h⟩ := bind_ok_iff.mp h
  cases h
  obtain ⟨hsame, hsame', hcounted⟩ := queueSealed_counted hshards
  obtain ⟨hbytesLt, rfl⟩ := addChecked_eq_ok.mp hbytes
  obtain ⟨hblocksLt, rfl⟩ := addChecked_eq_ok.mp hblocks
  exact ⟨hsame ▸ hbytesLt, hsame' ▸ hblocksLt, List.forall_mem_cons.mpr ⟨trivial, hcounted⟩⟩

theorem endInput_counted (hbytes : s.totalBytes < 2 ^ 64) (hblocks : s.totalBlocks < 2 ^ 64)
    (h : s.endInput rs = .ok (s', messages)) : s'.Counted messages := by
  obtain ⟨⟨sealedSlice, window⟩, -, h⟩ := bind_ok_iff.mp h
  obtain ⟨⟨s₁, shards⟩, hshards, h⟩ := bind_ok_iff.mp h
  cases h
  obtain ⟨hsame, hsame', hcounted⟩ := queueSealed_counted hshards
  rw [← hsame] at hbytes
  rw [← hsame'] at hblocks
  refine ⟨hbytes, hblocks, fun m hm => ?_⟩
  rcases List.mem_append.mp hm with hm | hm
  · exact hcounted m hm
  · rw [List.mem_singleton.mp hm]
    exact ⟨hbytes, hblocks⟩

theorem resend_counted (s : Slicer) (sliceNo : ℕ) (slots : List ℕ) :
    ∀ m ∈ s.resend sliceNo slots, m.Counted := by
  intro m hm
  unfold resend at hm
  split at hm
  · cases hm
  · obtain ⟨slot, -, hshard⟩ := List.mem_filterMap.mp hm
    obtain ⟨payload, -, rfl⟩ := Option.map_eq_some_iff.mp hshard
    trivial

end Slicer

namespace SlicerTask

variable {rs : ReedSolomon} {t t' : SlicerTask}

theorem begin_counted {r : Except Panic (Slicer × List Outbound)}
    (h : t.slicer.Counted t.todo) (hr : ∀ s messages, r = .ok (s, messages) → s.Counted messages) :
    (t.begin r).slicer.Counted (t.begin r).todo := by
  rcases r with p | ⟨s, messages⟩
  · exact h
  · exact hr s messages rfl

theorem read_counted (h : t.slicer.Counted t.todo) (hread : t.read rs = some t') :
    t'.slicer.Counted t'.todo := by
  unfold read at hread
  split_ifs at hread
  split at hread
  · cases hread
    exact begin_counted h fun _ _ => Slicer.push_counted
  · cases hread
    exact h
  · cases hread
    exact begin_counted h fun _ _ => Slicer.endInput_counted h.totalBytes h.totalBlocks

theorem recv_counted (h : t.slicer.Counted t.todo) (message : Feedback) :
    (t.recv message).slicer.Counted (t.recv message).todo := by
  cases message with
  | resend sliceNo blocks =>
    exact ⟨h.totalBytes, h.totalBlocks, Slicer.resend_counted _ _ _⟩
  | _ => exact ⟨h.totalBytes, h.totalBlocks, h.messages⟩

end SlicerTask

/-- Whoever is gathered has asked to join. -/
theorem SendLoop.join_of_contains {messages : List Message} {id : ℕ}
    (h : (gather messages).contains id = true) : ∃ t, .join t id ∈ messages := by
  induction messages using List.reverseRecOn with
  | nil => simp [gather, Group.contains_iff, Group.empty] at h
  | append_singleton messages message ih =>
    have hbefore (hin : (gather messages).contains id = true) :
        ∃ t, .join t id ∈ messages ++ [message] := by
      obtain ⟨t, ht⟩ := ih hin
      exact ⟨t, List.mem_append_left _ ht⟩
    rw [gather, List.foldl_append, ← gather, List.foldl_cons, List.foldl_nil] at h
    cases message with
    | join t k =>
      by_cases hid : id = k
      · exact ⟨t, by simp [hid]⟩
      · apply hbefore
        have hin : id ∈ (gather messages).participants.insert k .new := Group.contains_iff.mp h
        exact Group.contains_iff.mpr ((AList.mem_insert _).mp hin |>.resolve_left hid)
    | leave t k =>
      apply hbefore
      have hin : id ∈ (gather messages).participants.erase k := Group.contains_iff.mp h
      exact Group.contains_iff.mpr (AList.mem_erase.mp hin).2
    | _ => exact hbefore h

namespace World

variable {rs : ReedSolomon} {config : Config} {reader : Reader} {L : Ledger} {w w' w₀ : World}
  {gathered : List Message} {now : ℕ}

/-- A shard of the ledger is one of the wire. -/
theorem Sound.typed (h : w.Sound rs config reader L) {m : Outbound}
    (hm : Slicer.Honest rs L reader m) : m.Typed config.geometry := by
  cases m with
  | eof totalBytes totalBlocks => trivial
  | shard k slot width floor payload =>
    obtain ⟨hshard, hwidth, hk, hfloor⟩ := hm
    obtain ⟨p, hslicer, -⟩ := h.task.slicer
    have hbound := hslicer.bound
    rw [hslicer.floor] at hbound
    have hwidths := hslicer.window.widths
    have hle := L.width_le _ (List.mem_of_getElem? hwidth)
    have hparity := L.geometry.parityPerSlice_lt
    have hblocks := L.geometry.blocksPerSlice_lt
    have hslot : slot < 2 ^ 16 := by
      rcases Nat.lt_or_ge slot L.geometry.blocksPerSlice with hdata | hdata
      · exact hdata.trans hblocks
      · obtain ⟨width', hwidth', hlt⟩ := Ledger.width_of_shard hshard hdata
        have hfit := (Ledger.supported hwidth' (Nat.zero_lt_of_lt hlt)).shards_le
        omega
    refine ⟨by omega, hslot, by omega, by omega, ?_⟩
    rw [← h.geometry]
    exact Ledger.size_of_shard hshard

/-- Every number that goes into a message is one of its field's type, and every message in flight
can be sent. -/
structure Typed (config : Config) (w : World) : Prop where
  task : w.task.slicer.Counted w.task.todo
  emitted : ∀ m ∈ w.emitted, m.Counted
  totals : w.loop.totalBytes < 2 ^ 64 ∧ w.loop.totalBlocks < 2 ^ 64
  seq : w.loop.seq < 2 ^ 32
  members : ∀ id, w.loop.group.contains id = true → id < 2 ^ 64
  air : ∀ r, ∀ i ∈ w.air r, i.Sendable config
  peers : ∀ r < 2 ^ 64, (w.peers r).session.Typed
  transfers : ∀ r, (w.peers r).session.transferId = config.transferId
  uplink : ∀ m ∈ w.uplink, m.transferId = config.transferId ∧ ∃ r, m.receiver = some r ∧
    (r < 2 ^ 64 → (w.peers r).session.received < 2 ^ 64 → m.Sendable)

/-- Whoever is taken out for silence is somebody, and stuck at some slice. -/
theorem Typed.evicted (h : w.Typed config) (hs : w.Sound rs config reader L) (hf : w.Floors)
    (htransfer : config.transferId < 2 ^ 64) {timeout : ℕ} {e : ℕ × ℕ}
    (he : e ∈ w.loop.group.stale now timeout) :
    (w.loop.evictedMessage e.1 e.2).Sendable config := by
  obtain ⟨entry, hentry, rfl⟩ := List.mem_map.mp he
  have hlookup : w.loop.group.participants.lookup entry.1 = some entry.2 :=
    Table.lookup_eq_some_iff.mpr (List.mem_of_mem_filter hentry)
  have hmember : w.loop.group.contains entry.1 = true :=
    Group.contains_iff.mpr (Table.mem_iff_lookup.mpr ⟨_, hlookup⟩)
  have hid := h.members entry.1 hmember
  have hstuck : entry.2.nextNeeded < 2 ^ 32 :=
    (hf.behind entry.1 entry.2 hlookup).1.trans_lt (h.peers entry.1 hid).next
  rw [SendLoop.evictedMessage, hs.config]
  have hsendable (m : Evicted) (hm : m = ⟨config.transferId, entry.1,
      "silent for 10s while stuck at slice " ++ toString entry.2.nextNeeded⟩) :
      (Message.evicted m).Sendable := by
    subst hm
    exact Message.evicted_sendable htransfer hid hstuck rfl
  refine ⟨(hsendable _ rfl).range, fun m hm => ?_, decide_eq_true rfl⟩
  cases hm
  exact hsendable _ rfl

/-- What is a number in range stays one as the loop goes on. -/
theorem Typed.afterLoop (h : w.Typed config) (hs : w.Sound rs config reader L) (hf : w.Floors)
    (hhello : (Message.hello config.hello).InRange) (e : SendLoop.Event)
    (htaken : ∀ now message, e = .egress now message →
      message.Counted ∧ message.Typed config.geometry) :
    (w.afterLoop (w.loop.branch e)).Typed config := by
  have htransfer : config.transferId < 2 ^ 64 := hhello.1
  have hconfig := hs.config
  have hdone {totalBytes totalBlocks : ℕ} (hbytes : totalBytes < 2 ^ 64)
      (hblocks : totalBlocks < 2 ^ 64) :
      (Incoming.control (.done ⟨config.transferId, totalBytes, totalBlocks⟩)).Sendable config :=
    ⟨⟨htransfer, hbytes, hblocks⟩, fun m hm => by
      cases hm
      exact .of_plain ⟨htransfer, hbytes, hblocks⟩ (by simp) (by simp), decide_eq_true rfl⟩
  -- what the branch makes of the totals and the numbering, and what it sends
  obtain ⟨htotals, hseq, hmulticast⟩ : ((w.loop.branch e).loop.totalBytes < 2 ^ 64 ∧
      (w.loop.branch e).loop.totalBlocks < 2 ^ 64) ∧ (w.loop.branch e).loop.seq < 2 ^ 32 ∧
      ∀ i ∈ (w.loop.branch e).multicast, i.Sendable config := by
    cases e with
    | egress now message =>
      obtain ⟨hcounted, htyped⟩ := htaken now message rfl
      cases message with
      | shard k slot width floor payload =>
        refine ⟨h.totals, Nat.mod_lt _ (by decide), fun i hi => ?_⟩
        rw [List.mem_singleton.mp hi]
        obtain ⟨hk, hslot, hwidth, hfloor, hpayload⟩ := htyped
        refine ⟨⟨⟨hslot, hwidth, Nat.mod_lt _ (by decide), h.seq, hk, hfloor⟩, ?_⟩, by simp, ?_⟩
        · apply List.ne_nil_of_length_pos
          rw [hpayload]
          exact config.geometry.blockSize_pos
        · simp [Incoming.belongsTo, hconfig]
      | eof totalBytes totalBlocks =>
        refine ⟨hcounted, h.seq, fun i hi => ?_⟩
        rw [List.mem_singleton.mp hi]
        simp only [SendLoop.doneMessage, hconfig]
        exact hdone hcounted.1 hcounted.2
    | tick now idle wanted =>
      refine ⟨h.totals, h.seq, fun i hi => ?_⟩
      simp only [SendLoop.branch, SendLoop.tick, List.mem_append] at hi
      rcases hi with (hi | hi) | hi
      · obtain ⟨evicted, hevicted, rfl⟩ := List.mem_map.mp hi
        exact h.evicted hs hf htransfer hevicted
      · split_ifs at hi with hdraining
        · rw [List.mem_singleton.mp hi, SendLoop.doneMessage, hconfig]
          exact hdone h.totals.1 h.totals.2
        · cases hi
      · split_ifs at hi
        · rw [List.mem_singleton.mp hi, hconfig]
          refine ⟨hhello, fun m hm => ?_, decide_eq_true rfl⟩
          cases hm
          exact .of_plain hhello (by simp) (by simp)
        · cases hi
    | control now message =>
      obtain ⟨group, feedback, heq⟩ := control_cases w.loop now message
      rw [SendLoop.branch, heq]
      exact ⟨h.totals, h.seq, by simp⟩
    | egressClosed => exact ⟨h.totals, h.seq, fun _ hi => by cases hi⟩
    | deadline now => exact ⟨h.totals, h.seq, fun _ hi => by cases hi⟩
  obtain ⟨verdict, heq⟩ := (w.loop.branch e).settle_eq
  refine ⟨h.task, h.emitted, ?_, ?_, fun id hid => ?_, fun r i hi => ?_, h.peers, h.transfers,
    h.uplink⟩
  · simp only [World.afterLoop, heq]
    exact htotals
  · simp only [World.afterLoop, heq]
    exact hseq
  · exact h.members id (SendLoop.contains_branch e hid)
  · rcases List.mem_append.mp hi with hi | hi
    · exact h.air r i hi
    · rw [heq] at hi
      exact hmulticast i hi

theorem Typed.heard (h : w.Typed config) {r : ℕ} {b : Session.Branch} (hdelivers : w.Delivers r b)
    (arrivals : List (ℕ × Incoming)) (hb : b = .packets arrivals) :
    ∀ arrival ∈ arrivals, arrival.2.InRange := by
  subst hb
  exact fun arrival harrival => (h.air r arrival.2 (hdelivers arrival harrival)).range

theorem Typed.turn (h : w.Typed config) (hf : w.Floors) {r : ℕ} {b : Session.Branch}
    (hrun : (w.peers r).ended = none) (hdelivers : w.Delivers r b) (now : ℕ) (sink : Sink) :
    (w.afterTurn r ((w.peers r).session.turn rs now b sink)).Typed config := by
  have hheard := h.heard hdelivers
  have hspeaks : r < 2 ^ 64 →
      Session.Speaks (w.peers r).session ((w.peers r).session.turn rs now b sink) :=
    fun hr => (h.peers r hr).turn hheard now sink
  have hsent := Session.turn_sent rs (w.peers r).session now b sink
  have hfollows := Session.turn_follows rs (w.peers r).session now b sink
  generalize (w.peers r).session.turn rs now b sink = o at hspeaks hsent hfollows
  refine ⟨h.task, h.emitted, h.totals, h.seq, h.members, h.air, ?_, ?_, fun m hm => ?_⟩
  · exact forall_peers_afterTurn (P := fun r' p => r' < 2 ^ 64 → p.session.Typed)
      (fun hr => (hspeaks hr).typed) fun r' _ => h.peers r'
  · exact forall_peers_afterTurn (P := fun _ p => p.session.transferId = config.transferId)
      (hfollows.transferId.trans (h.transfers r)) fun r' _ => h.transfers r'
  · rcases List.mem_append.mp hm with hm | hm
    · obtain ⟨htransfer, r', hr', hsendable⟩ := h.uplink m hm
      refine ⟨htransfer, r', hr', fun hlt hcount => hsendable hlt ?_⟩
      by_cases heq : r' = r
      · subst heq
        rw [peers_afterTurn_self] at hcount
        exact (hspeaks hlt).counted.trans_lt hcount
      · rwa [peers_afterTurn_of_ne w heq] at hcount
    · have hsource : m.receiver = some r ∧ m.transferId = config.transferId := by
        rcases hsent m hm with hspoken | ⟨rfl, -⟩
        · obtain ⟨hid, htransfer⟩ := Message.source_of_says hspoken
          rw [hfollows.receiverId, hf.ids] at hid
          rw [hfollows.transferId, h.transfers] at htransfer
          exact ⟨hid, htransfer⟩
        · exact ⟨congrArg some (hf.ids r), h.transfers r⟩
      refine ⟨hsource.2, r, hsource.1, fun hr hcount => ?_⟩
      rw [peers_afterTurn_self] at hcount
      exact (hspeaks hr).sent hcount m hm

theorem Typed.step (h : w.Typed config) (hs : w.Sound rs config reader L) (hf : w.Floors)
    (hhello : (Message.hello config.hello).InRange) {a : Action} (hstep : Step rs a w w') :
    w'.Typed config := by
  cases hstep with
  | read hread =>
    exact ⟨SlicerTask.read_counted h.task hread, h.emitted, h.totals, h.seq, h.members, h.air, h.peers,
      h.transfers, h.uplink⟩
  | feedback hselect hfeedback =>
    exact ⟨SlicerTask.recv_counted h.task _, h.emitted, h.totals, h.seq, h.members, h.air, h.peers,
      h.transfers, h.uplink⟩
  | queue hrun htodo hroom =>
    refine ⟨⟨h.task.totalBytes, h.task.totalBlocks, fun m hm => ?_⟩, fun m hm => ?_, h.totals, h.seq,
      h.members, h.air, h.peers, h.transfers, h.uplink⟩
    · exact h.task.messages m (htodo ▸ List.mem_cons_of_mem _ hm)
    · rcases List.mem_append.mp hm with hm | hm
      · exact h.emitted m hm
      · rw [List.mem_singleton.mp hm]
        exact h.task.messages _ (htodo ▸ List.mem_cons_self)
  | @egress _ message rest now hrun hout =>
    have hmem := hs.outbound message (hout ▸ List.mem_cons_self)
    have hrest : Typed config { w with outbound := rest } :=
      ⟨h.task, h.emitted, h.totals, h.seq, h.members, h.air, h.peers, h.transfers, h.uplink⟩
    have hsrest : Sound rs config reader L { w with outbound := rest } :=
      ⟨hs.geometry, hs.config, hs.task, hs.emitted,
        fun m hm => hs.outbound m (hout ▸ List.mem_cons_of_mem _ hm), hs.totals, hs.air, hs.peers⟩
    have hfrest : Floors { w with outbound := rest } :=
      ⟨hf.base, hf.feedback, hf.todo, hf.emitted, hf.air, hf.ids, hf.behind, hf.uplink⟩
    refine hrest.afterLoop hsrest hfrest hhello (.egress now message) fun _ _ heq => ?_
    cases heq
    exact ⟨h.emitted message hmem, hs.typed (hs.emitted message hmem)⟩
  | egressClosed hrun hempty hended => exact h.afterLoop hs hf hhello .egressClosed (by simp)
  | tick now idle wanted hrun => exact h.afterLoop hs hf hhello (.tick now idle wanted) (by simp)
  | deadline now hrun hdue => exact h.afterLoop hs hf hhello (.deadline now) (by simp)
  | control now message hrun hmem => exact h.afterLoop hs hf hhello (.control now message) (by simp)
  | turn r now branch sink hrun henabled hdelivers =>
    exact h.turn hf (by simpa using hrun) hdelivers now sink
  | loseDown _ r arrival =>
    exact ⟨h.task, h.emitted, h.totals, h.seq, h.members,
      fun r' i hi => h.air r' i (mem_air_of_lost hi), h.peers, h.transfers, h.uplink⟩
  | loseUp _ message =>
    exact ⟨h.task, h.emitted, h.totals, h.seq, h.members, h.air, h.peers, h.transfers,
      fun m hm => h.uplink m (List.mem_of_mem_erase hm)⟩

theorem Typed.start (hhello : (Message.hello config.hello).InRange)
    (hgathered : ∀ m ∈ gathered, m.InRange) (h : World.start config reader gathered now = .ok w) :
    w.Typed config := by
  obtain ⟨_, slicer, assembler, hslicer, hassembler, rfl⟩ := start_eq_ok h
  obtain ⟨window, hwindow, hs⟩ := bind_ok_iff.mp hslicer
  cases hs
  obtain ⟨-, -, -, hnext, -⟩ := Assembler.new_wf hassembler
  have hzero := Nat.two_pow_pos 64
  refine ⟨⟨hzero, hzero, by simp⟩, by simp, ⟨hzero, hzero⟩, Nat.two_pow_pos 32, fun id hid => ?_,
    by simp, fun r hr => ?_, fun r => rfl, by simp⟩
  · have hmember : (SendLoop.gather gathered).contains id = true := by
      rwa [SendLoop.new, Group.contains_eq, Group.standing_markAllSeen, ← Group.contains_eq] at hid
    obtain ⟨t, hjoin⟩ := SendLoop.join_of_contains hmember
    exact (hgathered _ hjoin).2
  · exact ⟨hhello.1, hr, Nat.two_pow_pos 32, by simp [Session.fresh], by simp [Session.fresh, hnext]⟩

theorem Typed.exec (h : w₀.Typed config) (hhello : (Message.hello config.hello).InRange)
    (hreach : Labelled.Reachable (system rs config reader) w₀) {run : List Action}
    (hexec : Labelled.exec (system rs config reader) run w₀ = some w) : w.Typed config := by
  refine Labelled.exec_induction (I := fun _ w => w.Typed config) h ?_ hexec
  intro run a t t' hrun ht hn
  obtain ⟨L, hs⟩ := sound_of_reachable (hreach.exec hrun)
  exact ht.step hs (floors_of_reachable (hreach.exec hrun)) hhello (step_of_next hn)

/-- In every state of every run, what is in flight to a receiver is of the transfer, fits its
datagram and is read from it as itself. What comes from a receiver is of the transfer and says from
whom, and fits and is read as itself as long as that id and its count of shards are numbers of their
types. -/
theorem messages_are_readable (hhello : (Message.hello config.hello).InRange)
    (hgathered : ∀ m ∈ gathered, m.InRange)
    (hstart : World.start config reader gathered now = .ok w₀) {run : List Action}
    (hexec : Labelled.exec (system rs config reader) run w₀ = some w) :
    (∀ r, ∀ i ∈ w.air r, i.belongsTo config.transferId ∧ classify i.bytes = .ok (.ok i) ∧
      ∀ m, i = .control m → m.encode = .ok i.bytes) ∧
    ∀ m ∈ w.uplink, m.transferId = config.transferId ∧ ∃ r, m.receiver = some r ∧
      (r < 2 ^ 64 → (w.peers r).session.received < 2 ^ 64 → m.Readable) := by
  have h : w.Typed config :=
    (Typed.start hhello hgathered hstart).exec hhello (.start ⟨gathered, now, hstart⟩) hexec
  constructor
  · intro r i hi
    have hsendable := h.air r i hi
    refine ⟨hsendable.belongs, classify_written hsendable.range, ?_⟩
    rintro m rfl
    exact (hsendable.fits m rfl).encode
  · intro m hm
    obtain ⟨htransfer, r, hr, hsendable⟩ := h.uplink m hm
    refine ⟨htransfer, r, hr, fun hlt hcount => ?_⟩
    have hm := hsendable hlt hcount
    exact ⟨m.bytes, hm.encode, Message.decode_of_encodeInto hm.range hm.encode⟩

/-- A receiver that is told why it is out. -/
theorem messages_are_readable_evicted : ∃ w evicted,
    Labelled.Reachable (system .interpolated (.tiny 2) (.single [1])) w ∧
      .control (.evicted evicted) ∈ w.air 0 ∧
      (Message.evicted evicted).encode = .ok (Message.evicted evicted).bytes ∧
      classify (Message.evicted evicted).bytes = .ok (.ok (.control (.evicted evicted))) := by
  obtain ⟨w₀, hstart, w, hexec, evicted, hair⟩ : ∃ w₀,
      start (.tiny 2) (.single [1]) [.join 7 0] 0 = .ok w₀ ∧ ∃ w,
      Labelled.exec (system .interpolated (.tiny 2) (.single [1]))
        [.tick (silenceTimeout + 1) false 0] w₀ = some w ∧
        ∃ evicted, .control (.evicted evicted) ∈ w.air 0 :=
    ⟨_, rfl, _, rfl, _, List.mem_singleton_self _⟩
  have hgathered : ∀ m ∈ [Message.join 7 0], m.InRange := by simp [Message.InRange]
  have hhello : (Message.hello (Config.tiny 2).hello).InRange := ⟨by decide, by simp [Config.tiny, Config.hello]⟩
  have hall := messages_are_readable hhello hgathered hstart hexec
  obtain ⟨-, hread, hwritten⟩ := hall.1 0 _ hair
  exact ⟨w, evicted, .exec (.start ⟨_, _, hstart⟩) hexec, hair, hwritten _ rfl, hread⟩

end World
end Scuttlecast
