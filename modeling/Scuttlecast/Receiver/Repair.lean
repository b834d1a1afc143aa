import Scuttlecast.Receiver.Progress
import Scuttlecast.Interpolated
import Scuttlecast.Library.Labelled

/-! Repair requests and the buffer they are encoded into. The list of missing slots grows with the
slice, the buffer does not: 840 data blocks a slice are as many as every request has room for. -/
namespace Scuttlecast

namespace Message

/-- The message can be sent, and is read back as it is. -/
def Readable (m : Message) : Prop := ∃ bytes, m.encode = .ok bytes ∧ decode bytes = .ok m

theorem length_encodeBody_nak (m : Nak) : (encodeBody (.nak m)).length =
    1 + (Varint.encode m.transferId).length + (Varint.encode m.receiverId).length +
      (Varint.encode m.sliceNo).length + (Varint.encodeList Varint.encode m.missing).length := by
  simp [encodeBody, Varint.length_encode 4]
  omega

theorem readable_of_length {m : Message} (h : m.InRange)
    (hlen : m.encodeBody.length < maxControlSize) : m.Readable :=
  have hfits : m.encode = .ok (controlTag :: m.encodeBody) := if_pos hlen
  ⟨_, hfits, decode_of_encodeInto h hfits⟩

theorem encode_of_long {m : Message} (hlen : maxControlSize ≤ m.encodeBody.length) :
    m.encode = .error .encode := if_neg (by omega)

/-- A request for some of the first 840 slots fits, whatever its numbers. -/
theorem nak_readable {m : Nak} (h : InRange (.nak m)) {n : ℕ} (hn : n ≤ 840)
    (hmissing : m.missing.Sublist (List.range n)) : (nak m).Readable := by
  obtain ⟨-, -, hslice, -, -⟩ := id h
  apply readable_of_length h
  have hlist : (Varint.encodeList Varint.encode m.missing).length ≤ _ :=
    Varint.length_encodeList_le hmissing
  rw [Varint.length_encodeList_range (by omega)] at hlist
  have htransfer := Varint.length_encode_le m.transferId
  have hreceiver := Varint.length_encode_le m.receiverId
  have hsliceNo := Varint.length_encode_le_five hslice
  have hcount : (Varint.encode n).length ≤ 3 := by
    rw [Varint.length_encode]
    split_ifs <;> omega
  rw [length_encodeBody_nak, maxControlSize]
  omega

/-- A request for all of more slots than that does not, where its numbers are long. -/
theorem nak_too_long {m : Nak} {n : ℕ} (hn : 840 < n) (hlt : n < 2 ^ 16)
    (hmissing : m.missing = List.range n) (htransfer : 2 ^ 32 ≤ m.transferId)
    (hreceiver : 2 ^ 32 ≤ m.receiverId) (hslice : 2 ^ 16 ≤ m.sliceNo) :
    (nak m).encode = .error .encode := by
  have hlong {v : ℕ} (hv : 2 ^ 32 ≤ v) : (Varint.encode v).length = 9 := by
    rw [Varint.length_encode, if_neg (by omega), if_neg (by omega), if_neg (by omega)]
  have hsliceNo : 5 ≤ (Varint.encode m.sliceNo).length := by
    rw [Varint.length_encode]
    split_ifs <;> omega
  have hcount : (Varint.encode n).length = 3 := by
    rw [Varint.length_encode, if_neg (by omega), if_pos (by omega)]
  apply encode_of_long
  rw [length_encodeBody_nak, hmissing, Varint.length_encodeList_range hlt.le, hlong htransfer,
    hlong hreceiver, hcount, maxControlSize]
  omega

end Message

namespace Assembler

variable {a : Assembler} {floor : ℕ} {gap : ℕ × List ℕ}

theorem Slice.wanted_sublist (s : Slice) {target : ℕ} (h : target ≤ 2 ^ 16) :
    (s.wanted target).Sublist (List.range target) := by
  have htaken : (s.slots.zipIdx.take target).map (fun e => e.2 % 2 ^ 16) =
      List.range (min target s.slots.length) := by
    have hsnd : (s.slots.zipIdx.take target).map Prod.snd =
        List.range (min target s.slots.length) := by
      rw [List.map_take, List.zipIdx_map_snd, ← List.range_eq_range', List.take_range]
    rw [← Function.comp_def (· % 2 ^ 16) Prod.snd, ← List.map_map, hsnd]
    refine (List.map_congr_left fun i hi => ?_).trans (List.map_id _)
    have := List.mem_range.mp hi
    exact Nat.mod_eq_of_lt (by omega)
  have hrange : (List.range (min target s.slots.length)).Sublist (List.range target) :=
    List.range_sublist.mpr (Nat.min_le_left ..)
  exact (List.take_sublist ..).trans (((List.filter_sublist).map _).trans (htaken ▸ hrange))

/-- What a gap names: a slice below the floor, and data slots of it. -/
theorem mem_gaps (h : gap ∈ a.gaps floor) : gap.1 < a.totalSlices.getD floor ∧
    gap.2.Sublist (List.range a.geometry.blocksPerSlice) := by
  obtain ⟨k, hk, rfl⟩ := List.mem_map.mp h
  have hlt := List.mem_range'_1.mp (List.mem_filter.mp hk).1
  refine ⟨by simp only; omega, ?_⟩
  have htarget := a.target_le k
  have hgeometry := a.geometry.blocksPerSlice_lt
  have hrange : (List.range (a.target k)).Sublist (List.range a.geometry.blocksPerSlice) :=
    List.range_sublist.mpr htarget
  simp only
  split
  · exact (Slice.wanted_sublist _ (by omega)).trans hrange
  · exact hrange

theorem totalSlices_lt (h : floor < 2 ^ 32) : a.totalSlices.getD floor < 2 ^ 32 := by
  unfold totalSlices
  cases a.totalBlocks with
  | none => exact h
  | some total => exact Nat.mod_lt _ (by decide)

end Assembler

/-- The floor of a shard is a slice number. -/
def Incoming.Typed : Incoming → Prop
  | .shard frame => frame.emitFloor < 2 ^ 32
  | .control _ => True

namespace Session

variable {rs : ReedSolomon} {hello : Hello} {receiverId : ℕ} {s : Session} {o : Outcome}
variable {gap : ℕ × List ℕ} {gaps : List (ℕ × List ℕ)}

def Branch.Typed : Branch → Prop
  | .packets arrivals => ∀ arrival ∈ arrivals, arrival.2.Typed
  | _ => True

/-- All runs of a session for this `Hello`, turn after turn, on whatever arrives. -/
def runs (rs : ReedSolomon) (hello : Hello) (receiverId : ℕ) :
    Labelled.System Session (ℕ × Branch × Sink) where
  init s := ∃ now, new hello receiverId now = .ok s
  next := fun (now, b, sink) s =>
    let o := s.turn rs now b sink
    if s.Enabled now b ∧ o.ended.isNone then some o.session else none

/-- The end that a message without room in its buffer puts to a session. -/
abbrev unsendable : SessionEnd := .returned (.error (.protocol .encode))

/-- The request for a gap. -/
def repair (s : Session) (gap : ℕ × List ℕ) : Message :=
  .nak ⟨s.transferId, s.receiverId, gap.1, gap.2⟩

/-- Every repair request that is due can be sent, and so can all those of any turn. -/
structure CanAsk (rs : ReedSolomon) (s : Session) : Prop where
  due : ∀ now, ∀ gap ∈ (s.naks.due (s.assembler.gaps s.emitFloor) now).1, (s.repair gap).Readable
  sent : ∀ now b sink, b.Typed → ∀ nak, .nak nak ∈ (s.turn rs now b sink).sent →
    (Message.nak nak).Readable
  ended : ∀ now b sink, b.Typed → (s.turn rs now b sink).ended ≠ some unsendable

theorem sendNaks_of_readable (h : ∀ gap ∈ gaps, (s.repair gap).Readable) :
    s.sendNaks gaps = { session := s, sent := gaps.map s.repair } := by
  induction gaps with
  | nil => rfl
  | cons gap rest ih =>
    obtain ⟨bytes, hbytes, -⟩ := h gap List.mem_cons_self
    have hrest := ih fun gap hgap => h gap (List.mem_cons_of_mem _ hgap)
    have hfits : (Message.nak ⟨s.transferId, s.receiverId, gap.1, gap.2⟩).encodeInto
        maxControlSize = .ok bytes := hbytes
    rw [sendNaks]
    simp only [hfits, Outcome.andThen, hrest]
    rfl

/-- One request without room ends the session. -/
theorem sendNaks_of_error (hgap : gap ∈ gaps) (h : (s.repair gap).encode = .error .encode) :
    (s.sendNaks gaps).ended = some unsendable := by
  induction gaps with
  | nil => simp at hgap
  | cons head rest ih =>
    rw [sendNaks]
    split
    · next e he =>
      unfold Message.encodeInto at he
      split_ifs at he
      rw [← Except.error.inj he]
      rfl
    · next bytes hbytes =>
      rcases List.mem_cons.mp hgap with rfl | hrest
      · exact absurd (h.symm.trans hbytes) (by simp)
      · rw [Outcome.andThen_of_running rfl]
        exact ih hrest

/-- The session has its ids and its shape, and its floor is a slice number. -/
structure Shaped (hello : Hello) (receiverId : ℕ) (s : Session) : Prop where
  transferId : s.transferId = hello.transferId
  receiverId : s.receiverId = receiverId
  geometry : s.assembler.geometry = hello.geometry
  floor : s.emitFloor < 2 ^ 32

/-- A part of a turn that could send all it had to ask for. -/
structure Asked (hello : Hello) (receiverId : ℕ) (o : Outcome) : Prop where
  session : Shaped hello receiverId o.session
  sent : ∀ nak, .nak nak ∈ o.sent → (Message.nak nak).Readable
  ended : o.ended ≠ some unsendable

theorem Shaped.silent (h : Shaped hello receiverId s) : Asked hello receiverId { session := s } :=
  ⟨h, by simp, by simp⟩

theorem Asked.andThen {f : Session → Outcome} (h : Asked hello receiverId o)
    (hf : ∀ s, Shaped hello receiverId s → Asked hello receiverId (f s)) :
    Asked hello receiverId (o.andThen f) := by
  rcases o.andThen_cases f with ⟨_, _, heq⟩ | ⟨_, heq⟩ <;> rw [heq]
  · exact h
  · have hnext := hf _ h.session
    refine ⟨hnext.session, fun nak hnak => ?_, hnext.ended⟩
    rcases List.mem_append.mp hnak with hnak | hnak
    · exact h.sent nak hnak
    · exact hnext.sent nak hnak

theorem Shaped.handOver (h : Shaped hello receiverId s) (sink : Sink) (now : ℕ) :
    Asked hello receiverId (s.handOver rs sink now) := by
  unfold Session.handOver
  dsimp only
  split
  · exact ⟨⟨h.transferId, h.receiverId, h.geometry, h.floor⟩, by simp [Outcome.panic],
      by simp [Outcome.panic]⟩
  · next s₁ hr =>
    have h₁ : Shaped hello receiverId s₁ := by
      rcases refill_cases hr with ⟨_, rfl⟩ | ⟨_, ready, assembler, htake, _, rfl, _⟩
      · exact ⟨h.transferId, h.receiverId, h.geometry, h.floor⟩
      · have hgeometry := (Assembler.takeReady_eq_ok.mp htake).1.frame.2.2.1
        exact ⟨h.transferId, h.receiverId, hgeometry.trans h.geometry, h.floor⟩
    split_ifs <;>
      exact ⟨⟨h₁.transferId, h₁.receiverId, h₁.geometry, h₁.floor⟩, by simp, by simp⟩

theorem Shaped.sendStats (h : Shaped hello receiverId s) :
    Asked hello receiverId s.sendStats :=
  ⟨⟨h.transferId, h.receiverId, h.geometry, h.floor⟩, by simp [Session.sendStats],
    by simp [Session.sendStats]⟩

theorem Shaped.conclude (h : Shaped hello receiverId s) (now : ℕ) :
    Asked hello receiverId (s.conclude now) := by
  rcases hcheck : s.checkByteTotal with e | _
  · rw [Session.conclude, hcheck]
    refine ⟨h, by simp [Outcome.fail], ?_⟩
    unfold checkByteTotal at hcheck
    split at hcheck
    · split_ifs at hcheck
      simp [Outcome.fail, ← Except.error.inj hcheck]
    · simp at hcheck
  · rw [conclude_of_check hcheck]
    exact ⟨⟨h.transferId, h.receiverId, h.geometry, h.floor⟩, by simp [Session.sendStats],
      by simp⟩

theorem checkShard_ne_encode {frame : Frame} :
    s.checkShard frame ≠ .ok (.error .encode) := by
  unfold checkShard
  intro h
  obtain ⟨_, _, h⟩ := bind_ok_iff.mp h
  rw [Except.ok.injEq] at h
  split_ifs at h <;> simp at h

section Room

variable (htransfer : hello.transferId < 2 ^ 64) (hreceiver : receiverId < 2 ^ 64)
  (hblocks : hello.geometry.blocksPerSlice ≤ 840)

include htransfer hreceiver hblocks

theorem Shaped.readable (h : Shaped hello receiverId s)
    (hgap : gap ∈ s.assembler.gaps s.emitFloor) : (s.repair gap).Readable := by
  obtain ⟨hslice, hmissing⟩ := Assembler.mem_gaps hgap
  rw [h.geometry] at hmissing
  have hlen := hmissing.length_le
  rw [List.length_range] at hlen
  refine Message.nak_readable ⟨?_, ?_, ?_, ?_, fun slot hslot => ?_⟩ hblocks hmissing
  · rwa [h.transferId]
  · rwa [h.receiverId]
  · exact hslice.trans (Assembler.totalSlices_lt h.floor)
  · exact lt_of_le_of_lt hlen (by omega)
  · have := List.mem_range.mp (hmissing.subset hslot)
    omega

theorem Shaped.due_readable (h : Shaped hello receiverId s) (now : ℕ) :
    ∀ gap ∈ (s.naks.due (s.assembler.gaps s.emitFloor) now).1, (s.repair gap).Readable :=
  fun _ hgap => h.readable htransfer hreceiver hblocks (List.mem_of_mem_filter hgap)

theorem Shaped.requestGaps (h : Shaped hello receiverId s) (now : ℕ) :
    Asked hello receiverId (s.requestGaps now) := by
  have hdue := h.due_readable htransfer hreceiver hblocks now
  have hnaks : s.requestGaps now = _ :=
    sendNaks_of_readable (s := { s with
      naks := (s.naks.due (s.assembler.gaps s.emitFloor) now).2 }) hdue
  rw [hnaks]
  refine ⟨⟨h.transferId, h.receiverId, h.geometry, h.floor⟩, fun nak hnak => ?_, by simp⟩
  obtain ⟨gap, hgap, heq⟩ := List.mem_map.mp hnak
  exact heq ▸ hdue gap hgap

theorem Shaped.requestGaps_if (h : Shaped hello receiverId s) (now : ℕ) (c : Prop)
    [Decidable c] :
    Asked hello receiverId (if c then s.requestGaps now else { session := s }) := by
  split_ifs
  · exact h.requestGaps htransfer hreceiver hblocks now
  · exact h.silent

theorem Shaped.takeShard (h : Shaped hello receiverId s) {frame : Frame}
    (hfloor : frame.emitFloor < 2 ^ 32) (now : ℕ) :
    Asked hello receiverId (s.takeShard frame now) := by
  have hmax : max s.emitFloor frame.emitFloor < 2 ^ 32 := Nat.max_lt.mpr ⟨h.floor, hfloor⟩
  unfold Session.takeShard
  dsimp only
  split
  · exact ⟨⟨h.transferId, h.receiverId, h.geometry, hmax⟩, by simp [Outcome.panic],
      by simp [Outcome.panic]⟩
  · next taken assembler hi =>
    have hgeometry : assembler.geometry = hello.geometry := by
      rcases Assembler.insert_eq_ok hi with ⟨_, rfl, _⟩ | ⟨_, _, _, _, rfl⟩ <;> exact h.geometry
    have hnoted (late duplicates : ℕ) : Shaped hello receiverId { s with
        received := s.received + 1
        highestSeq := some (max (s.highestSeq.getD 0) frame.seq)
        emitFloor := max s.emitFloor frame.emitFloor
        assembler := assembler, late := late, duplicates := duplicates } :=
      ⟨h.transferId, h.receiverId, hgeometry, hmax⟩
    apply Shaped.requestGaps_if htransfer hreceiver hblocks
    cases taken with
    | true => exact hnoted s.late s.duplicates
    | false =>
      rw [if_neg (by simp)]
      obtain ⟨late, duplicates, heq⟩ := refused_eq _ frame.sliceNo
      rw [heq]
      exact hnoted late duplicates

theorem Shaped.onArrival (h : Shaped hello receiverId s) {arrival : Incoming}
    (htyped : arrival.Typed) (now : ℕ) : Asked hello receiverId (s.onArrival now arrival) := by
  unfold Session.onArrival
  split
  · next frame =>
    unfold onShard
    split
    · exact ⟨h, by simp [Outcome.panic], by simp [Outcome.panic]⟩
    · next e he =>
      refine ⟨h, by simp [Outcome.fail], ?_⟩
      simp only [Outcome.fail, ne_eq, Option.some.injEq, SessionEnd.returned.injEq,
        Except.error.injEq, ProtoError.protocol.injEq]
      rintro rfl
      exact checkShard_ne_encode he
    · exact h.takeShard htransfer hreceiver hblocks htyped now
  · next done =>
    exact Shaped.requestGaps htransfer hreceiver hblocks
      (s := { s with totalBytes := some done.totalBytes
                     assembler := s.assembler.onDone done.totalBlocks })
      ⟨h.transferId, h.receiverId, h.geometry, h.floor⟩ now
  · split_ifs
    · exact ⟨h, by simp, by simp⟩
    · exact h.silent
  · split_ifs
    · exact ⟨h, by simp [Outcome.fail], by simp [Outcome.fail]⟩
    · exact h.silent
  · exact h.silent

theorem Shaped.onArrivals (h : Shaped hello receiverId s) {arrivals : List (ℕ × Incoming)}
    (htyped : ∀ arrival ∈ arrivals, arrival.2.Typed) :
    Asked hello receiverId (s.onArrivals arrivals) := by
  induction arrivals generalizing s with
  | nil => exact h.silent
  | cons arrival rest ih =>
    have harrival := h.onArrival htransfer hreceiver hblocks (htyped _ List.mem_cons_self) arrival.1
    exact harrival.andThen fun s hs => ih hs fun x hx => htyped x (List.mem_cons_of_mem _ hx)

theorem Shaped.branch (h : Shaped hello receiverId s) {b : Branch} (htyped : b.Typed) (now : ℕ) :
    Asked hello receiverId (s.branch now b) := by
  cases b with
  | packets arrivals =>
    exact Shaped.onArrivals htransfer hreceiver hblocks (s := { s with lastPacket := now })
      ⟨h.transferId, h.receiverId, h.geometry, h.floor⟩ htyped
  | sinkReady => exact h.silent
  | statsTick => exact h.sendStats
  | renakTick => exact h.requestGaps htransfer hreceiver hblocks now
  | silence => exact ⟨h, by simp [Session.branch, Outcome.fail],
      by simp [Session.branch, Outcome.fail, wentSilent]⟩

/-- A turn keeps the session's shape, and whatever it asks for can be sent. -/
theorem Shaped.turn (h : Shaped hello receiverId s) {b : Branch} (htyped : b.Typed) (now : ℕ)
    (sink : Sink) : Asked hello receiverId (s.turn rs now b sink) := by
  refine ((h.branch htransfer hreceiver hblocks htyped now).andThen
    fun s hs => hs.handOver sink now).andThen fun s hs => ?_
  split_ifs
  · exact hs.silent
  · exact hs.conclude now

end Room

theorem exists_fresh {now : ℕ} (h : new hello receiverId now = .ok s) :
    ∃ a, Assembler.new hello.geometry = .ok a ∧ s = fresh hello a receiverId now := by
  obtain ⟨a, ha, hs⟩ := bind_ok_iff.mp h
  exact ⟨a, ha, (Except.ok.inj hs).symm⟩

theorem shaped_of_reachable
    (h : Labelled.Reach (runs rs hello receiverId) (fun turn _ => turn.2.1.Typed) s)
    (htransfer : hello.transferId < 2 ^ 64) (hreceiver : receiverId < 2 ^ 64)
    (hblocks : hello.geometry.blocksPerSlice ≤ 840) : Shaped hello receiverId s := by
  refine Labelled.Reach.invariant ?_ ?_ h
  · rintro s ⟨now, hnew⟩
    obtain ⟨a, ha, rfl⟩ := exists_fresh hnew
    exact ⟨rfl, rfl, (Assembler.new_wf ha).2.1, by simp [fresh]⟩
  · rintro ⟨now, b, sink⟩ s s' htyped hs hn
    simp only [runs] at hn
    split_ifs at hn
    rw [← Option.some.inj hn]
    exact (hs.turn htransfer hreceiver hblocks htyped now sink).session

/-- A session that hears of the total before any shard asks for every slice in full, and ends
when one of the requests is too long. -/
theorem turn_on_done_of_error {a : Assembler} {k : ℕ}
    (h : (Message.nak ⟨hello.transferId, receiverId, k,
      List.range hello.geometry.blocksPerSlice⟩).encode = .error .encode)
    (ha : Assembler.new hello.geometry = .ok a) (now total : ℕ) (sink : Sink)
    (hk : (k + 1) * hello.geometry.blocksPerSlice ≤ total) (hsmall : total < 2 ^ 32) :
    ((fresh hello a receiverId now).turn rs now
      (.packets [(now, .control (.done ⟨hello.transferId, total, total⟩))]) sink).ended =
        some unsendable := by
  obtain ⟨_, hgeometry, hslices, hnext, _, _⟩ := Assembler.new_wf ha
  have hpos := hello.geometry.blocksPerSlice_pos
  have hgap : (k, List.range hello.geometry.blocksPerSlice) ∈ (a.onDone total).gaps 0 := by
    refine List.mem_map.mpr ⟨k, List.mem_filter.mpr ⟨List.mem_range'_1.mpr ?_, ?_⟩, ?_⟩
    · have hlt : k < Chunks.divCeil total hello.geometry.blocksPerSlice :=
        (Chunks.lt_divCeil_iff hpos).mpr (by rw [Nat.add_mul] at hk; omega)
      have hle : Chunks.divCeil total hello.geometry.blocksPerSlice ≤ total :=
        (Chunks.divCeil_le_iff hpos).mpr (Nat.le_mul_of_pos_right total hpos)
      simp only [Assembler.onDone, Assembler.totalSlices, Option.map_some, Option.getD_some,
        hgeometry, hnext, Nat.mod_eq_of_lt (hle.trans_lt hsmall)]
      omega
    · simp [Assembler.onDone, Assembler.isComplete, hslices]
    · have htarget : (a.onDone total).target k = hello.geometry.blocksPerSlice := by
        rw [Nat.add_mul, Nat.one_mul] at hk
        simp only [Assembler.target, Assembler.onDone, hgeometry]
        rw [if_pos (by omega), if_neg (by omega)]
      have hnone : (a.onDone total).slices.lookup k = none := by
        simp [Assembler.onDone, hslices]
      simp only [htarget, hnone]
  have hdue : (k, List.range hello.geometry.blocksPerSlice) ∈
      (Naks.empty.due ((a.onDone total).gaps 0) now).1 := by
    refine List.mem_filter.mpr ⟨hgap, ?_⟩
    have hne : List.range hello.geometry.blocksPerSlice ≠ [] := by
      simp only [ne_eq, List.range_eq_nil]
      omega
    simp [hne, Naks.empty, Naks.isDue]
  have hend : ((fresh hello a receiverId now).onArrival now
      (.control (.done ⟨hello.transferId, total, total⟩))).ended = some unsendable :=
    sendNaks_of_error hdue h
  have hbranch : (fresh hello a receiverId now).branch now (.packets
      [(now, .control (.done ⟨hello.transferId, total, total⟩))]) =
        ((fresh hello a receiverId now).onArrival now
          (.control (.done ⟨hello.transferId, total, total⟩))).andThen (·.onArrivals []) := rfl
  rw [turn, hbranch, Outcome.andThen_of_ended hend, Outcome.andThen_of_ended hend,
    Outcome.andThen_of_ended hend, hend]

theorem canAsk_of_reachable
    (h : Labelled.Reach (runs rs hello receiverId) (fun turn _ => turn.2.1.Typed) s)
    (htransfer : hello.transferId < 2 ^ 64) (hreceiver : receiverId < 2 ^ 64)
    (hblocks : hello.geometry.blocksPerSlice ≤ 840) : s.CanAsk rs := by
  have hs := shaped_of_reachable h htransfer hreceiver hblocks
  refine ⟨hs.due_readable htransfer hreceiver hblocks, ?_, ?_⟩
  · exact fun now b sink htyped => (hs.turn htransfer hreceiver hblocks htyped now sink).sent
  · exact fun now b sink htyped => (hs.turn htransfer hreceiver hblocks htyped now sink).ended

/-- Whatever arrives, in whatever order and under whatever ids, every repair request can be sent
and is read back as it was meant exactly where a slice has at most 840 data blocks. -/
theorem repairs_can_be_sent_iff {now : ℕ} {s₀ : Session}
    (hnew : new hello receiverId now = .ok s₀) :
    (∀ transferId < 2 ^ 64, ∀ receiverId < 2 ^ 64, ∀ s,
      Labelled.Reach (runs rs { hello with transferId := transferId } receiverId)
        (fun turn _ => turn.2.1.Typed) s → s.CanAsk rs) ↔
      hello.geometry.blocksPerSlice ≤ 840 := by
  constructor
  · intro hall
    by_contra hblocks
    obtain ⟨a, ha, -⟩ := exists_fresh hnew
    have hlt := hello.geometry.blocksPerSlice_lt
    let long : Hello := { hello with transferId := 2 ^ 32 }
    have hlong : (Message.nak ⟨long.transferId, 2 ^ 32, 2 ^ 16,
        List.range long.geometry.blocksPerSlice⟩).encode = .error .encode :=
      Message.nak_too_long (Nat.lt_of_not_le hblocks) hlt rfl le_rfl le_rfl le_rfl
    have hfresh := hall (2 ^ 32) (by decide) (2 ^ 32) (by decide) _
      (.start ⟨0, by rw [new, ha]; rfl⟩)
    have hsmall : 65537 * hello.geometry.blocksPerSlice < 2 ^ 32 := by omega
    exact hfresh.ended 0 _ ⟨0, false⟩ (by simp [Branch.Typed, Incoming.Typed])
      (turn_on_done_of_error hlong ha 0 _ ⟨0, false⟩ le_rfl hsmall)
  · intro hblocks transferId htransfer receiverId hreceiver s h
    exact canAsk_of_reachable h htransfer hreceiver hblocks

/-- Some number of blocks a slice, of two bytes each, and no parity. -/
def unprotected (n : ℕ) (hpos : 0 < n) (hlt : n < 2 ^ 16) : Hello where
  transferId := 7
  geometry := .of 2 n 0 1 ⟨by decide, by decide, hpos, hlt, by decide, by decide, by decide⟩
  totalBytes := none

/-- A slice of 1024 blocks is lost, and the `Done` that follows ends the session. -/
theorem wide_slice_cannot_be_asked_for :
    ∃ s, Labelled.Reachable (runs .interpolated (unprotected 1024 (by decide) (by decide)) 0) s ∧
      (s.turn .interpolated 0 (.packets [(0, .control (.done ⟨7, 1024, 1024⟩))])
        ⟨0, false⟩).ended = some unsendable := by
  let wide := unprotected 1024 (by decide) (by decide)
  obtain ⟨a, ha⟩ : ∃ a, Assembler.new wide.geometry = .ok a := ⟨_, rfl⟩
  have hlong : (Message.nak ⟨wide.transferId, 0, 0,
      List.range wide.geometry.blocksPerSlice⟩).encode = .error .encode := by
    apply Message.encode_of_long
    rw [Message.length_encodeBody_nak, Varint.length_encodeList_range (by decide)]
    decide
  exact ⟨fresh wide a 0 0, .start ⟨0, by rw [new, ha]; rfl⟩,
    turn_on_done_of_error hlong ha 0 1024 ⟨0, false⟩ (by decide) (by decide)⟩

theorem repairs_can_be_sent_iff_widest :
    ∃ s₀, new (unprotected 840 (by decide) (by decide)) 0 0 = .ok s₀ ∧
      ∀ transferId < 2 ^ 64, ∀ receiverId < 2 ^ 64, ∀ s,
        Labelled.Reach (runs .interpolated { unprotected 840 (by decide) (by decide) with
          transferId := transferId } receiverId) (fun turn _ => turn.2.1.Typed) s →
            s.CanAsk .interpolated := by
  obtain ⟨s₀, hnew⟩ : ∃ s₀, new (unprotected 840 (by decide) (by decide)) 0 0 = .ok s₀ := ⟨_, rfl⟩
  exact ⟨s₀, hnew, (repairs_can_be_sent_iff hnew).mpr (by decide)⟩

end Session
end Scuttlecast
