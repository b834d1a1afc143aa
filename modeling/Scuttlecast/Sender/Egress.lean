import Scuttlecast.Sender.Loop
import Scuttlecast.Transport

/-! The egress branch of the send loop with its batches: shards are staged, a full batch is sent,
and what a turn leaves staged is sent at its end. What reaches a receiver that loses nothing is
what the loop sends one message at a time. -/
namespace Scuttlecast

/-- What goes on the wire: a buffer in segments of one size, or a control message. -/
inductive Sent where
  | batch (body : Bytes) (segmentSize : ℕ)
  | control (message : Message)

structure Egress where
  loop : SendLoop
  batch : FrameBatch
  sent : List Sent

/-- Between the turns of the loop a tick may narrow the batch, or widen it again. -/
inductive EgressEvent where
  | narrow (segments : ℕ)
  | turn (now : ℕ) (queued : List Outbound)

/-- What the event takes from the outbound channel, and when. -/
def EgressEvent.taken : EgressEvent → List (ℕ × Outbound)
  | .narrow _ => []
  | .turn now queued => queued.map fun message => (now, message)

namespace Egress

def start (loop : SendLoop) (maxSegments : ℕ) : Egress :=
  ⟨loop, .new loop.config.geometry.blockSize maxSegments, []⟩

def sendBatch (e : Egress) : Egress :=
  if e.batch.isEmpty then e
  else { e with
    batch := e.batch.clear
    sent := e.sent ++ [.batch e.batch.filled e.batch.segmentSize] }

/-- One of the messages that `recv_many` took. -/
def take (e : Egress) (now : ℕ) : Outbound → Except Panic Egress
  | .shard sliceNo slot sliceParity emitFloor payload => do
    let batch ← e.batch.push
      { slot := slot
        sliceParity := sliceParity
        transferId := e.loop.config.transferId % 2 ^ 32
        seq := e.loop.seq
        sliceNo := sliceNo
        emitFloor := emitFloor
        payload := payload }
    let loop := { e.loop with
      seq := (e.loop.seq + 1) % 2 ^ 32
      group := e.loop.group.onEmitted emitFloor }
    let e := { e with loop := loop, batch := batch }
    .ok (if e.batch.isFull then e.sendBatch else e)
  | .eof totalBytes totalBlocks =>
    let e := e.sendBatch
    .ok { e with
      loop := (e.loop.egress now (.eof totalBytes totalBlocks)).loop
      sent := e.sent ++ [.control (.done ⟨e.loop.config.transferId, totalBytes, totalBlocks⟩)] }

def turn (e : Egress) (now : ℕ) (queued : List Outbound) : Except Panic Egress := do
  let e ← queued.foldlM (fun e message => e.take now message) e
  .ok e.sendBatch

def event (e : Egress) : EgressEvent → Except Panic Egress
  | .narrow segments => .ok { e with batch := e.batch.narrowTo segments }
  | .turn now queued => e.turn now queued

def run (e : Egress) (events : List EgressEvent) : Except Panic Egress := events.foldlM event e

end Egress

/-- The loop that sends every message by itself, and all it sends. -/
def SendLoop.egressAll (s : SendLoop) : List (ℕ × Outbound) → SendLoop × List Incoming
  | [] => (s, [])
  | (now, message) :: rest =>
    let outcome := s.egress now message
    let after := outcome.loop.egressAll rest
    (after.1, outcome.multicast ++ after.2)

theorem SendLoop.egress_config (s : SendLoop) (now : ℕ) (message : Outbound) :
    (s.egress now message).loop.config = s.config := by
  cases message <;> rfl

theorem SendLoop.egressAll_config (s : SendLoop) (messages : List (ℕ × Outbound)) :
    (s.egressAll messages).1.config = s.config := by
  induction messages generalizing s with
  | nil => rfl
  | cons message rest ih => exact (ih _).trans (s.egress_config message.1 message.2)

theorem SendLoop.egressAll_append (s : SendLoop) (xs ys : List (ℕ × Outbound)) :
    s.egressAll (xs ++ ys) = (((s.egressAll xs).1.egressAll ys).1,
      (s.egressAll xs).2 ++ ((s.egressAll xs).1.egressAll ys).2) := by
  induction xs generalizing s with
  | nil => rfl
  | cons message xs ih => simp [egressAll, ih]

/-- The numbers of the message are of their types, and the payload is a block. -/
def Outbound.Typed (g : Geometry) : Outbound → Prop
  | .shard sliceNo slot sliceParity emitFloor payload => sliceNo < 2 ^ 32 ∧ slot < 2 ^ 16 ∧
      sliceParity < 2 ^ 8 ∧ emitFloor < 2 ^ 32 ∧ payload.length = g.blockSize
  | .eof _ _ => True

/-- A socket of the transfer on which nothing is dropped. -/
def Config.listener (c : Config) : Listener := ⟨c.transferId, fun _ => false⟩

/-- What `recv_batch` makes of a buffer sent with segments for its stride. -/
def Sent.Reaches (c : Config) : Sent → List Incoming → Prop
  | .batch body segmentSize, incoming => segmentSize = headerSize + c.geometry.blockSize ∧
      ∃ frames, incoming = List.map .shard frames ∧ body = frames.flatMap Frame.bytes ∧
        c.listener.readOne body (some segmentSize) [] = .ok ⟨frames.map Frame.bytes, .ok incoming⟩
  | .control message, incoming => incoming = [.control message]

/-- What reaches the receivers of all that was sent. -/
def Delivered (c : Config) (sent : List Sent) (incoming : List Incoming) : Prop :=
  ∃ parts, List.Forall₂ (Sent.Reaches c) sent parts ∧ parts.flatten = incoming

theorem Delivered.nil (c : Config) : Delivered c [] [] := ⟨[], .nil, rfl⟩

theorem Delivered.append {c : Config} {sent sent' : List Sent} {incoming incoming' : List Incoming}
    (h : Delivered c sent incoming) (h' : Delivered c sent' incoming') :
    Delivered c (sent ++ sent') (incoming ++ incoming') := by
  obtain ⟨parts, hparts, rfl⟩ := h
  obtain ⟨parts', hparts', rfl⟩ := h'
  exact ⟨parts ++ parts', List.rel_append hparts hparts', List.flatten_append⟩

theorem Delivered.single {c : Config} {sent : Sent} {incoming : List Incoming}
    (h : sent.Reaches c incoming) : Delivered c [sent] incoming :=
  ⟨[incoming], .cons h .nil, by simp⟩

theorem Delivered.control (c : Config) (message : Message) :
    Delivered c [.control message] [.control message] :=
  ⟨[[.control message]], .cons rfl .nil, rfl⟩

namespace Egress

/-- The frames staged are whole frames of the transfer. -/
structure Staged (e : Egress) (pending : List Frame) : Prop where
  holds : e.batch.Holds pending
  size : e.batch.segmentSize = headerSize + e.loop.config.geometry.blockSize
  frames : ∀ frame ∈ pending, frame.InRange ∧ frame.payload ≠ [] ∧
    e.loop.config.listener.keeps (.shard frame)
  seq_lt : e.loop.seq < 2 ^ 32

theorem start_staged {loop : SendLoop} (hseq : loop.seq < 2 ^ 32) (maxSegments : ℕ) :
    (start loop maxSegments).Staged [] :=
  ⟨FrameBatch.new_holds loop.config.geometry.blockSize_pos maxSegments, rfl, by simp, hseq⟩

variable {e : Egress} {pending : List Frame}

/-- Sending the batch delivers what is staged, and leaves nothing behind. -/
theorem Staged.sendBatch (h : e.Staged pending) : ∃ newly,
    e.sendBatch = { e with batch := e.batch.clear, sent := e.sent ++ newly } ∧
      e.sendBatch.Staged [] ∧ Delivered e.loop.config newly (pending.map .shard) := by
  by_cases hempty : pending = []
  · subst hempty
    have hzero : e.batch.segments = 0 := h.holds.segments_eq
    have hclear : e.batch.clear = e.batch := by rw [FrameBatch.clear, ← hzero]
    have hsame : e.sendBatch = e := if_pos (by simp [FrameBatch.isEmpty, hzero])
    refine ⟨[], ?_, by rwa [hsame], Delivered.nil _⟩
    rw [hsame, hclear, List.append_nil]
  · have hsegments : e.batch.segments ≠ 0 := by
      rw [h.holds.segments_eq]
      exact fun hzero => hempty (List.length_eq_zero_iff.mp hzero)
    have hsent : e.sendBatch = { e with
        batch := e.batch.clear
        sent := e.sent ++ [.batch e.batch.filled e.batch.segmentSize] } :=
      if_neg (by simp [FrameBatch.isEmpty, hsegments])
    refine ⟨_, hsent, ?_, ?_⟩
    · rw [hsent]
      exact ⟨h.holds.clear, h.size, by simp, h.seq_lt⟩
    · apply Delivered.single
      refine ⟨h.size, pending, rfl, h.holds.filled_eq, ?_⟩
      rw [h.holds.filled_eq]
      exact Listener.readOne_frames hempty h.holds.sized h.frames

/-- What one message, or several, make of the state: the loop and its messages are those of the
unbatched loop, but for the frames still staged. -/
structure Simulates (e e' : Egress) (pending pending' : List Frame) (loop : SendLoop)
    (multicast : List Incoming) : Prop where
  loop_eq : e'.loop = loop
  staged : e'.Staged pending'
  room : pending'.length < e'.batch.limit
  delivered : ∃ newly arrived, e'.sent = e.sent ++ newly ∧
    Delivered e.loop.config newly arrived ∧
      arrived ++ pending'.map .shard = pending.map .shard ++ multicast

theorem Staged.room_of_empty (h : e.Staged []) : ([] : List Frame).length < e.batch.limit :=
  h.holds.limit_pos

/-- A shard is staged, and the batch is sent once it is full. -/
theorem Staged.take_shard (h : e.Staged pending) (hroom : pending.length < e.batch.limit)
    {now sliceNo slot sliceParity emitFloor : ℕ} {payload : Bytes}
    (htyped : (Outbound.shard sliceNo slot sliceParity emitFloor payload).Typed
      e.loop.config.geometry) :
    ∃ e' pending', e.take now (.shard sliceNo slot sliceParity emitFloor payload) = .ok e' ∧
      Simulates e e' pending pending'
        (e.loop.egress now (.shard sliceNo slot sliceParity emitFloor payload)).loop
        (e.loop.egress now (.shard sliceNo slot sliceParity emitFloor payload)).multicast := by
  obtain ⟨hslice, hslot, hparity, hfloor, hpayload⟩ := htyped
  set frame : Frame :=
    { slot := slot
      sliceParity := sliceParity
      transferId := e.loop.config.transferId % 2 ^ 32
      seq := e.loop.seq
      sliceNo := sliceNo
      emitFloor := emitFloor
      payload := payload } with hframe
  have hsize : frame.bytes.length = e.batch.segmentSize := by
    rw [Frame.length_bytes, h.size, ← hpayload]
  have hne : payload ≠ [] := by
    apply List.ne_nil_of_length_pos
    rw [hpayload]
    exact e.loop.config.geometry.blockSize_pos
  have hgood : frame.InRange ∧ frame.payload ≠ [] ∧
      e.loop.config.listener.keeps (.shard frame) = true :=
    ⟨⟨hslot, hparity, Nat.mod_lt _ (by decide), h.seq_lt, hslice, hfloor⟩, hne,
      by simp [Listener.keeps, Incoming.belongsTo, Config.listener, hframe]⟩
  have hfits : e.batch.segments < e.batch.capacity := by
    rw [h.holds.segments_eq]
    exact hroom.trans_le h.holds.limit_le
  obtain ⟨batch, hpush, hholds, hsegment, hlimit⟩ := h.holds.push hfits hsize
  have hstaged : Staged ⟨(e.loop.egress now (.shard sliceNo slot sliceParity emitFloor payload)).loop,
      batch, e.sent⟩ (pending ++ [frame]) := by
    constructor
    · exact hholds
    · exact hsegment.trans h.size
    · intro f hf
      rcases List.mem_append.mp hf with hf | hf
      · exact h.frames f hf
      · rw [List.mem_singleton.mp hf]
        exact hgood
    · exact Nat.mod_lt _ (by decide)
  rw [take, hpush, ok_bind]
  dsimp only
  by_cases hfull : batch.isFull = true
  · obtain ⟨newly, hsent, hafter, hdelivered⟩ := hstaged.sendBatch
    refine ⟨_, [], congrArg Except.ok (if_pos hfull), ?_, hafter, hafter.room_of_empty, ?_⟩
    · exact congrArg Egress.loop hsent
    · refine ⟨newly, _, congrArg Egress.sent hsent, hdelivered, ?_⟩
      simp [SendLoop.egress, hframe]
  · refine ⟨_, pending ++ [frame], congrArg Except.ok (if_neg hfull), rfl, hstaged, ?_, ?_⟩
    · show (pending ++ [frame]).length < batch.limit
      rw [← hholds.segments_eq]
      simpa [FrameBatch.isFull] using hfull
    · exact ⟨[], [], by simp, Delivered.nil _, by simp [SendLoop.egress, hframe]⟩

/-- At the end of the input what is staged goes out before `Done`. -/
theorem Staged.take_eof (h : e.Staged pending) (now totalBytes totalBlocks : ℕ) :
    ∃ e' pending', e.take now (.eof totalBytes totalBlocks) = .ok e' ∧
      Simulates e e' pending pending' (e.loop.egress now (.eof totalBytes totalBlocks)).loop
        (e.loop.egress now (.eof totalBytes totalBlocks)).multicast := by
  obtain ⟨newly, hsent, hafter, hdelivered⟩ := h.sendBatch
  have hloop : e.sendBatch.loop = e.loop := by rw [hsent]
  refine ⟨_, [], rfl, ?_, ⟨hafter.holds, hafter.size, by simp, hafter.seq_lt⟩,
    hafter.room_of_empty, ?_⟩
  · dsimp only
    rw [hloop]
  · refine ⟨newly ++ [.control (.done ⟨e.loop.config.transferId, totalBytes, totalBlocks⟩)], _, ?_,
      hdelivered.append (.control _ _), ?_⟩
    · dsimp only
      rw [hloop, hsent, List.append_assoc]
    · simp [SendLoop.egress, SendLoop.doneMessage]

theorem Staged.take (h : e.Staged pending) (hroom : pending.length < e.batch.limit) (now : ℕ)
    {message : Outbound} (htyped : message.Typed e.loop.config.geometry) :
    ∃ e' pending', e.take now message = .ok e' ∧
      Simulates e e' pending pending' (e.loop.egress now message).loop
        (e.loop.egress now message).multicast := by
  cases message with
  | shard sliceNo slot sliceParity emitFloor payload => exact h.take_shard hroom htyped
  | eof totalBytes totalBlocks => exact h.take_eof now totalBytes totalBlocks

theorem Simulates.refl (h : e.Staged pending) (hroom : pending.length < e.batch.limit) :
    Simulates e e pending pending e.loop [] :=
  ⟨rfl, h, hroom, [], [], (List.append_nil _).symm, Delivered.nil _, by simp⟩

theorem Simulates.trans {e' e'' : Egress} {pending' pending'' : List Frame} {loop loop' : SendLoop}
    {multicast multicast' : List Incoming}
    (h : Simulates e e' pending pending' loop multicast)
    (h' : Simulates e' e'' pending' pending'' loop' multicast')
    (hconfig : e'.loop.config = e.loop.config) :
    Simulates e e'' pending pending'' loop' (multicast ++ multicast') := by
  obtain ⟨newly, arrived, hsent, hdelivered, hmulticast⟩ := h.delivered
  obtain ⟨newly', arrived', hsent', hdelivered', hmulticast'⟩ := h'.delivered
  refine ⟨h'.loop_eq, h'.staged, h'.room, newly ++ newly', arrived ++ arrived', ?_, ?_, ?_⟩
  · rw [hsent', hsent, List.append_assoc]
  · rw [hconfig] at hdelivered'
    exact hdelivered.append hdelivered'
  · rw [List.append_assoc, hmulticast', ← List.append_assoc, hmulticast, List.append_assoc]

theorem Staged.takeAll {queued : List Outbound} (h : e.Staged pending)
    (hroom : pending.length < e.batch.limit) (now : ℕ)
    (htyped : ∀ message ∈ queued, message.Typed e.loop.config.geometry) :
    ∃ e' pending', queued.foldlM (fun e message => e.take now message) e = .ok e' ∧
      Simulates e e' pending pending'
        (e.loop.egressAll (queued.map fun message => (now, message))).1
        (e.loop.egressAll (queued.map fun message => (now, message))).2 := by
  induction queued generalizing e pending with
  | nil => exact ⟨e, pending, rfl, .refl h hroom⟩
  | cons message queued ih =>
    obtain ⟨e', pending', htake, hsim⟩ := h.take hroom now (htyped message List.mem_cons_self)
    have hconfig : e'.loop.config = e.loop.config := by
      rw [hsim.loop_eq]
      exact e.loop.egress_config now message
    have hrest := ih hsim.staged hsim.room fun m hm => by
      rw [hconfig]
      exact htyped m (List.mem_cons_of_mem message hm)
    rw [hsim.loop_eq] at hrest
    obtain ⟨e'', pending'', hfold, hsim'⟩ := hrest
    refine ⟨e'', pending'', ?_, hsim.trans hsim' hconfig⟩
    rw [List.foldlM_cons, htake]
    exact hfold

/-- A turn of the loop leaves no frame staged. -/
theorem Staged.turn {queued : List Outbound} (h : e.Staged []) (now : ℕ)
    (htyped : ∀ message ∈ queued, message.Typed e.loop.config.geometry) :
    ∃ e', e.turn now queued = .ok e' ∧
      Simulates e e' [] [] (e.loop.egressAll (queued.map fun message => (now, message))).1
        (e.loop.egressAll (queued.map fun message => (now, message))).2 := by
  obtain ⟨e', pending, hfold, hsim⟩ := h.takeAll h.room_of_empty now htyped
  obtain ⟨newly, hsent, hafter, hdelivered⟩ := hsim.staged.sendBatch
  have hconfig : e'.loop.config = e.loop.config := by
    rw [hsim.loop_eq]
    exact e.loop.egressAll_config _
  have hflush : Simulates e' e'.sendBatch pending []
      (e.loop.egressAll (queued.map fun message => (now, message))).1 [] := by
    refine ⟨?_, hafter, hafter.room_of_empty, newly, _, ?_, hdelivered, by simp⟩
    · rw [hsent, ← hsim.loop_eq]
    · rw [hsent]
  refine ⟨e'.sendBatch, ?_, ?_⟩
  · rw [Egress.turn, hfold]
    rfl
  · simpa using hsim.trans hflush hconfig

theorem Staged.event {event : EgressEvent} (h : e.Staged [])
    (htyped : ∀ taken ∈ event.taken, taken.2.Typed e.loop.config.geometry) :
    ∃ e', e.event event = .ok e' ∧
      Simulates e e' [] [] (e.loop.egressAll event.taken).1 (e.loop.egressAll event.taken).2 := by
  cases event with
  | narrow segments =>
    have hnarrow : Staged { e with batch := e.batch.narrowTo segments } [] :=
      ⟨h.holds.narrowTo segments, h.size, h.frames, h.seq_lt⟩
    exact ⟨_, rfl, rfl, hnarrow, hnarrow.room_of_empty, [], [], (List.append_nil _).symm,
      Delivered.nil _, rfl⟩
  | turn now queued =>
    exact h.turn now fun message hm => htyped _ (List.mem_map_of_mem hm)

/-- However the messages are taken and the batches narrowed, nothing panics, nothing stays
staged, and a receiver that loses nothing gets what the loop sends one message at a time. -/
theorem Staged.run {events : List EgressEvent} (h : e.Staged [])
    (htyped : ∀ taken ∈ events.flatMap EgressEvent.taken, taken.2.Typed e.loop.config.geometry) :
    ∃ e', e.run events = .ok e' ∧
      Simulates e e' [] [] (e.loop.egressAll (events.flatMap EgressEvent.taken)).1
        (e.loop.egressAll (events.flatMap EgressEvent.taken)).2 := by
  induction events generalizing e with
  | nil => exact ⟨e, rfl, .refl h h.room_of_empty⟩
  | cons event events ih =>
    rw [List.flatMap_cons, List.forall_mem_append] at htyped
    obtain ⟨e', hevent, hsim⟩ := h.event htyped.1
    have hconfig : e'.loop.config = e.loop.config := by
      rw [hsim.loop_eq]
      exact e.loop.egressAll_config _
    have hrest := ih hsim.staged fun taken hm => by
      rw [hconfig]
      exact htyped.2 taken hm
    rw [hsim.loop_eq] at hrest
    obtain ⟨e'', hrun, hsim'⟩ := hrest
    refine ⟨e'', ?_, ?_⟩
    · rw [Egress.run, List.foldlM_cons, hevent]
      exact hrun
    · rw [List.flatMap_cons, SendLoop.egressAll_append]
      exact hsim.trans hsim' hconfig

end Egress

/-- A batch whose segments are the frames, cut and classified as a receiver does it. -/
def Sent.Carries (c : Config) : Sent → List Frame → Prop
  | .batch body segmentSize, frames => segmentSize = headerSize + c.geometry.blockSize ∧
      ∃ reading, c.listener.readOne body (some segmentSize) [] = .ok reading ∧
        reading.handed.flatten = body ∧ reading.result = .ok (frames.map .shard)
  | .control _, _ => False

/-- Where only shards arrive, only batches were sent. -/
theorem Delivered.carries {c : Config} {sent : List Sent} {frames : List Frame}
    (h : Delivered c sent (frames.map .shard)) :
    ∃ parts, List.Forall₂ (Sent.Carries c) sent parts ∧ parts.flatten = frames := by
  obtain ⟨parts, hparts, hflatten⟩ := h
  induction hparts generalizing frames with
  | nil =>
    have hnone : frames = [] := List.map_eq_nil_iff.mp hflatten.symm
    exact ⟨[], .nil, hnone.symm⟩
  | @cons first incoming sent parts hreach _ ih =>
    rw [List.flatten_cons] at hflatten
    obtain ⟨front, back, rfl, hfront, hback⟩ := List.map_eq_append_iff.mp hflatten.symm
    obtain ⟨rest, hrest, rfl⟩ := ih hback.symm
    cases first with
    | batch body segmentSize =>
      obtain ⟨hsize, fs, hincoming, hbody, hread⟩ := hreach
      refine ⟨front :: rest, .cons ⟨hsize, _, hread, ?_, ?_⟩ hrest, rfl⟩
      · rw [hbody, List.flatMap_def]
      · rw [hfront]
    | control message =>
      have hcontrol : Incoming.control message ∈ front.map Incoming.shard := by
        rw [hfront, hreach]
        exact List.mem_singleton_self _
      obtain ⟨frame, -, hframe⟩ := List.mem_map.mp hcontrol
      cases hframe

/-- The frames of the shards of a sequence, numbered from `seq` on. -/
def numbered (transferId : ℕ) : ℕ → List Outbound → List Frame
  | _, [] => []
  | seq, .shard sliceNo slot sliceParity emitFloor payload :: rest =>
    { slot := slot
      sliceParity := sliceParity
      transferId := transferId % 2 ^ 32
      seq := seq
      sliceNo := sliceNo
      emitFloor := emitFloor
      payload := payload } :: numbered transferId ((seq + 1) % 2 ^ 32) rest
  | seq, .eof _ _ :: rest => numbered transferId seq rest

def Outbound.IsShard : Outbound → Prop
  | .shard _ _ _ _ _ => True
  | .eof _ _ => False

theorem SendLoop.egressAll_shards {s : SendLoop} {messages : List (ℕ × Outbound)}
    (h : ∀ m ∈ messages, m.2.IsShard) : (s.egressAll messages).2 =
      (numbered s.config.transferId s.seq (messages.map Prod.snd)).map .shard := by
  induction messages generalizing s with
  | nil => rfl
  | cons message rest ih =>
    obtain ⟨now, message⟩ := message
    have hmessage := h _ List.mem_cons_self
    have hrest := fun s => @ih s fun m hm => h m (List.mem_cons_of_mem _ hm)
    cases message with
    | shard sliceNo slot sliceParity emitFloor payload =>
      simp only [egressAll, egress, List.map_cons, numbered, hrest, List.singleton_append]
    | eof totalBytes totalBlocks => exact hmessage.elim

namespace Egress

/-- Shards taken in any turns, under any limits between them, are staged without a panic, nothing
is left staged, and what was flushed gives a receiver the frames, once each, in order and
numbered one after the other; and a frame writes back the datagram it was read from. -/
theorem batches_are_lossless (config : Config) (group : Group) (started maxSegments : ℕ)
    (events : List EgressEvent) (hshards : ∀ taken ∈ events.flatMap EgressEvent.taken,
      taken.2.IsShard ∧ taken.2.Typed config.geometry) :
    (∃ e parts, (start (.new config group started) maxSegments).run events = .ok e ∧
      e.batch.isEmpty = true ∧ List.Forall₂ (Sent.Carries config) e.sent parts ∧
        parts.flatten = numbered config.transferId 0
          ((events.flatMap EgressEvent.taken).map Prod.snd)) ∧
      ∀ datagram frame, Frame.parse datagram = .ok (.ok frame) →
        frame.header ++ frame.payload = datagram := by
  refine ⟨?_, fun datagram frame hparse => Frame.bytes_of_parse hparse⟩
  have hstart : (start (.new config group started) maxSegments).Staged [] :=
    start_staged (by simp [SendLoop.new]) maxSegments
  obtain ⟨e, hrun, hsim⟩ := hstart.run fun taken hm => (hshards taken hm).2
  obtain ⟨newly, arrived, hsent, hdelivered, harrived⟩ := hsim.delivered
  simp only [List.map_nil, List.append_nil, List.nil_append] at harrived
  rw [harrived] at hdelivered
  have hframes := SendLoop.egressAll_shards (s := (start (.new config group started) maxSegments).loop)
    fun m hm => (hshards m hm).1
  rw [hframes] at hdelivered
  obtain ⟨parts, hparts, hflatten⟩ := hdelivered.carries
  refine ⟨e, parts, hrun, ?_, ?_, hflatten⟩
  · simp [FrameBatch.isEmpty, hsim.staged.holds.segments_eq]
  · rw [hsent]
    exact hparts

/-- Two shards in one turn under a limit of two, then one more under a limit of one. -/
theorem batches_are_lossless_narrowed :
    ∃ c : Config, ∃ e parts, (start (.new c .empty 0) 4).run
        [.narrow 2, .turn 0 [.shard 0 0 0 0 [7, 8], .shard 0 1 0 0 [9, 0]], .narrow 1,
          .turn 1 [.shard 1 0 0 1 [1, 2]]] = .ok e ∧
      e.batch.isEmpty = true ∧ List.Forall₂ (Sent.Carries c) e.sent parts ∧
        parts.flatten = [⟨0, 0, 3, 0, 0, 0, [7, 8]⟩, ⟨1, 0, 3, 1, 0, 0, [9, 0]⟩,
          ⟨0, 0, 3, 2, 1, 1, [1, 2]⟩] := by
  refine ⟨⟨3, none, .of 2 2 0 1, 0⟩, ?_⟩
  exact (batches_are_lossless _ .empty 0 4 [.narrow 2, .turn 0 [.shard 0 0 0 0 [7, 8],
    .shard 0 1 0 0 [9, 0]], .narrow 1, .turn 1 [.shard 1 0 0 1 [1, 2]]]
    (by simp [EgressEvent.taken, Outbound.IsShard, Outbound.Typed])).1

end Egress
end Scuttlecast
