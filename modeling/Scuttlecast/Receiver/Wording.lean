import Scuttlecast.Receiver.Repair
import Scuttlecast.Proto.Codec

/-! The wording of a session: whatever it hears, every message it sends has its numbers in range
and fits its datagram, as long as the count of shards does not leave its type. -/
namespace Scuttlecast

open Wire

namespace Message

/-- The message can be sent: its numbers are of their types, and it fits a control datagram. -/
structure Sendable (m : Message) : Prop where
  range : m.InRange
  fits : m.bytes.length ≤ maxControlSize

theorem Sendable.encode {m : Message} (h : m.Sendable) : m.encode = .ok m.bytes :=
  encodeInto_eq_ok.mpr ⟨h.fits, rfl⟩

/-- Only a repair request or an eviction grows with what it names. -/
theorem length_bytes_le {m : Message} (hnak : ∀ n, m ≠ .nak n) (hevicted : ∀ e, m ≠ .evicted e) :
    m.bytes.length ≤ maxControlSize := by
  have hnumber := Varint.length_encode_le
  cases m with
  | hello m =>
    have := hnumber 0
    have htotal : (writeOption m.totalBytes).length ≤ 10 := by
      cases m.totalBytes with
      | none => decide
      | some total =>
        have := hnumber total
        simp only [writeOption, writeU8, List.length_append, List.length_singleton]
        omega
    have := hnumber m.transferId
    have := hnumber m.geometry.blockSize
    have := hnumber m.geometry.blocksPerSlice
    have := hnumber m.geometry.maxLiveSlices
    simp only [bytes, encodeBody, writeU8, List.length_cons, List.length_append, List.length_nil, maxControlSize]
    omega
  | join transferId receiverId =>
    have := hnumber 1
    have := hnumber transferId
    have := hnumber receiverId
    simp only [bytes, encodeBody, List.length_cons, List.length_append, maxControlSize]
    omega
  | leave transferId receiverId =>
    have := hnumber 2
    have := hnumber transferId
    have := hnumber receiverId
    simp only [bytes, encodeBody, List.length_cons, List.length_append, maxControlSize]
    omega
  | stats m =>
    have := hnumber 3
    have := hnumber m.transferId
    have := hnumber m.receiverId
    have := hnumber m.totalReceived
    have := hnumber m.totalExpected
    have := hnumber m.nextNeededSlice
    have := hnumber m.sinkStallMs
    simp only [bytes, encodeBody, List.length_cons, List.length_append, maxControlSize]
    omega
  | nak m => exact absurd rfl (hnak m)
  | evicted m => exact absurd rfl (hevicted m)
  | done m =>
    have := hnumber 6
    have := hnumber m.transferId
    have := hnumber m.totalBytes
    have := hnumber m.totalBlocks
    simp only [bytes, encodeBody, List.length_cons, List.length_append, maxControlSize]
    omega

theorem Sendable.of_plain {m : Message} (h : m.InRange) (hnak : ∀ n, m ≠ .nak n)
    (hevicted : ∀ e, m ≠ .evicted e) : m.Sendable :=
  ⟨h, length_bytes_le hnak hevicted⟩

end Message

namespace Assembler

variable {rs : ReedSolomon} {a a' : Assembler} {blocks : List Bytes}

/-- The next slice needed stays a slice number. -/
theorem Released.nextNeeded_lt (h : Released rs a blocks a') (hlt : a.nextNeeded < 2 ^ 32) :
    a'.nextNeeded < 2 ^ 32 := by
  induction h with
  | done => exact hlt
  | turn h _ ih =>
    obtain ⟨_, a₁, _, _, _, hnext, rfl⟩ := release_eq_some h
    exact ih hnext

end Assembler

namespace Session

variable {rs : ReedSolomon} {s s' : Session} {o : Outcome}

/-- The numbers that go into the session's messages are of their types, but for the shards
counted. -/
structure Typed (s : Session) : Prop where
  transferId : s.transferId < 2 ^ 64
  receiverId : s.receiverId < 2 ^ 64
  floor : s.emitFloor < 2 ^ 32
  highest : ∀ seq ∈ s.highestSeq, seq < 2 ^ 32
  next : s.assembler.nextNeeded < 2 ^ 32

/-- A part of a turn whose messages can be sent, unless it counts more shards than can be. -/
structure Speaks (s : Session) (o : Outcome) : Prop where
  typed : o.session.Typed
  counted : s.received ≤ o.session.received
  sent : o.session.received < 2 ^ 64 → ∀ m ∈ o.sent, m.Sendable

theorem Typed.silent (h : s'.Typed) (hle : s.received ≤ s'.received) {handed : List Bytes}
    {ended : Option SessionEnd} :
    Speaks s { session := s', handed := handed, ended := ended } :=
  ⟨h, hle, by simp⟩

theorem Speaks.andThen {f : Session → Outcome} (h : Speaks s o)
    (hf : ∀ s, s.Typed → Speaks s (f s)) : Speaks s (o.andThen f) := by
  rcases o.andThen_cases f with ⟨_, _, heq⟩ | ⟨_, heq⟩ <;> rw [heq]
  · exact h
  · have hnext := hf _ h.typed
    refine ⟨hnext.typed, h.counted.trans hnext.counted, fun hlt m hm => ?_⟩
    rcases List.mem_append.mp hm with hm | hm
    · exact h.sent (hnext.counted.trans_lt hlt) m hm
    · exact hnext.sent hlt m hm

theorem Typed.sendNaks (h : s.Typed) {gaps : List (ℕ × List ℕ)}
    (hgaps : ∀ gap ∈ gaps, gap.1 < 2 ^ 32 ∧ gap.2.length < 2 ^ 64 ∧ ∀ slot ∈ gap.2, slot < 2 ^ 16) :
    Speaks s (s.sendNaks gaps) := by
  induction gaps generalizing s with
  | nil => exact h.silent le_rfl
  | cons gap gaps ih =>
    obtain ⟨hslice, hlen, hslots⟩ := hgaps gap List.mem_cons_self
    unfold Session.sendNaks
    dsimp only
    split
    · exact h.silent le_rfl
    · next bytes hbytes =>
      -- only what fits is sent
      obtain ⟨hfits, -⟩ := Message.encodeInto_eq_ok.mp hbytes
      have hnak : Speaks s { session := s, sent := [.nak ⟨s.transferId, s.receiverId, gap.1, gap.2⟩] } := by
        refine ⟨h, le_rfl, fun _ m hm => ?_⟩
        rw [List.mem_singleton.mp hm]
        exact ⟨⟨h.transferId, h.receiverId, hslice, hlen, hslots⟩, hfits⟩
      exact hnak.andThen fun s hs => ih hs fun g hg => hgaps g (List.mem_cons_of_mem _ hg)

theorem Typed.requestGaps (h : s.Typed) (now : ℕ) : Speaks s (s.requestGaps now) := by
  have hnoted : Typed { s with naks := (s.naks.due (s.assembler.gaps s.emitFloor) now).2 } :=
    ⟨h.transferId, h.receiverId, h.floor, h.highest, h.next⟩
  have hgaps : ∀ gap ∈ (s.naks.due (s.assembler.gaps s.emitFloor) now).1,
      gap.1 < 2 ^ 32 ∧ gap.2.length < 2 ^ 64 ∧ ∀ slot ∈ gap.2, slot < 2 ^ 16 := by
    intro gap hgap
    obtain ⟨hslice, hmissing⟩ := Assembler.mem_gaps (List.mem_of_mem_filter hgap)
    have hblocks := s.assembler.geometry.blocksPerSlice_lt
    have hlen := hmissing.length_le
    rw [List.length_range] at hlen
    refine ⟨hslice.trans (Assembler.totalSlices_lt h.floor), by omega, fun slot hslot => ?_⟩
    exact (List.mem_range.mp (hmissing.subset hslot)).trans hblocks
  have hspeaks := hnoted.sendNaks hgaps
  exact ⟨hspeaks.typed, hspeaks.counted, hspeaks.sent⟩

theorem Typed.requestGaps_if (h : s'.Typed) (hle : s.received ≤ s'.received) (now : ℕ) (c : Prop)
    [Decidable c] : Speaks s (if c then s'.requestGaps now else { session := s' }) := by
  split_ifs
  · have hspeaks := h.requestGaps now
    exact ⟨hspeaks.typed, hle.trans hspeaks.counted, hspeaks.sent⟩
  · exact h.silent hle

theorem Typed.takeShard (h : s.Typed) {frame : Frame} (hframe : frame.InRange) (now : ℕ) :
    Speaks s (s.takeShard frame now) := by
  have hmax : max s.emitFloor frame.emitFloor < 2 ^ 32 := Nat.max_lt.mpr ⟨h.floor, hframe.emitFloor⟩
  have hhighest : ∀ seq ∈ some (max (s.highestSeq.getD 0) frame.seq), seq < 2 ^ 32 := by
    rintro _ ⟨⟩
    refine Nat.max_lt.mpr ⟨?_, hframe.seq⟩
    rcases hs : s.highestSeq with _ | seq
    · exact Nat.two_pow_pos 32
    · exact h.highest seq hs
  unfold Session.takeShard
  dsimp only
  split
  · exact ⟨⟨h.transferId, h.receiverId, hmax, hhighest, h.next⟩, Nat.le_succ _, by simp [Outcome.panic]⟩
  · next taken assembler hi =>
    have hnext : assembler.nextNeeded < 2 ^ 32 := by
      rw [(insert_frame hi).1]
      exact h.next
    have hnoted (late duplicates : ℕ) : Typed { s with
        received := s.received + 1
        highestSeq := some (max (s.highestSeq.getD 0) frame.seq)
        emitFloor := max s.emitFloor frame.emitFloor
        assembler := assembler, late := late, duplicates := duplicates } :=
      ⟨h.transferId, h.receiverId, hmax, hhighest, hnext⟩
    cases taken with
    | true => exact Typed.requestGaps_if (hnoted s.late s.duplicates) (Nat.le_succ _) now _
    | false =>
      obtain ⟨late, duplicates, heq⟩ := refused_eq { s with
        received := s.received + 1
        highestSeq := some (max (s.highestSeq.getD 0) frame.seq)
        emitFloor := max s.emitFloor frame.emitFloor
        assembler := assembler } frame.sliceNo
      simp only [Bool.false_eq_true, if_false, heq]
      exact Typed.requestGaps_if (hnoted late duplicates) (Nat.le_succ _) now _

theorem Typed.onArrival (h : s.Typed) {arrival : Incoming} (harrival : arrival.InRange)
    (now : ℕ) : Speaks s (s.onArrival now arrival) := by
  unfold Session.onArrival
  split
  · next frame =>
    unfold onShard
    split
    · exact h.silent le_rfl
    · exact h.silent le_rfl
    · exact h.takeShard harrival.1 now
  · next done =>
    have hspeaks := Typed.requestGaps
      (s := { s with totalBytes := some done.totalBytes
                     assembler := s.assembler.onDone done.totalBlocks })
      ⟨h.transferId, h.receiverId, h.floor, h.highest, h.next⟩ now
    exact ⟨hspeaks.typed, hspeaks.counted, hspeaks.sent⟩
  · split_ifs
    · refine ⟨h, le_rfl, fun _ m hm => ?_⟩
      rw [List.mem_singleton.mp hm]
      exact .of_plain ⟨h.transferId, h.receiverId⟩ (by simp) (by simp)
    · exact h.silent le_rfl
  · split_ifs <;> exact h.silent le_rfl
  · exact h.silent le_rfl

theorem Typed.onArrivals (h : s.Typed) {arrivals : List (ℕ × Incoming)}
    (harrivals : ∀ arrival ∈ arrivals, arrival.2.InRange) : Speaks s (s.onArrivals arrivals) := by
  induction arrivals generalizing s with
  | nil => exact h.silent le_rfl
  | cons arrival rest ih =>
    have hfirst := h.onArrival (harrivals _ List.mem_cons_self) arrival.1
    exact hfirst.andThen fun s hs => ih hs fun x hx => harrivals x (List.mem_cons_of_mem _ hx)

theorem Typed.sendStats (h : s.Typed) : Speaks s s.sendStats := by
  refine ⟨⟨h.transferId, h.receiverId, h.floor, h.highest, h.next⟩, le_rfl, fun hlt m hm => ?_⟩
  rw [List.mem_singleton.mp hm]
  have hexpected : s.highestSeq.elim 0 (· + 1) < 2 ^ 64 := by
    rcases hs : s.highestSeq with _ | seq
    · exact Nat.two_pow_pos 64
    · have := h.highest seq hs
      simp only [Option.elim_some]
      omega
  have hstall : min (s.sinkStall / 10 ^ 6) (2 ^ 32 - 1) < 2 ^ 32 := by omega
  exact .of_plain ⟨h.transferId, h.receiverId, hlt, hexpected, h.next, hstall⟩ (by simp) (by simp)

theorem Typed.handOver (h : s.Typed) (sink : Sink) (now : ℕ) :
    Speaks s (s.handOver rs sink now) := by
  unfold Session.handOver
  dsimp only
  split
  · exact ⟨⟨h.transferId, h.receiverId, h.floor, h.highest, h.next⟩, le_rfl, by simp [Outcome.panic]⟩
  · next s₁ hr =>
    have h₁ : s₁.Typed ∧ s.received ≤ s₁.received := by
      rcases refill_cases hr with ⟨_, rfl⟩ | ⟨_, ready, assembler, htake, _, rfl, _⟩
      · exact ⟨⟨h.transferId, h.receiverId, h.floor, h.highest, h.next⟩, le_rfl⟩
      · have hnext := (Assembler.takeReady_eq_ok.mp htake).1.nextNeeded_lt h.next
        exact ⟨⟨h.transferId, h.receiverId, h.floor, h.highest, hnext⟩, le_rfl⟩
    obtain ⟨⟨htransfer, hreceiver, hfloor, hhighest, hnext⟩, hle⟩ := h₁
    split_ifs <;> exact ⟨⟨htransfer, hreceiver, hfloor, hhighest, hnext⟩, hle, by simp⟩

theorem Typed.conclude (h : s.Typed) (now : ℕ) : Speaks s (s.conclude now) := by
  unfold Session.conclude
  split
  · exact h.silent le_rfl
  · refine h.sendStats.andThen fun s hs => ⟨hs, le_rfl, fun _ m hm => ?_⟩
    rw [List.mem_singleton.mp hm]
    exact .of_plain ⟨hs.transferId, hs.receiverId⟩ (by simp) (by simp)

theorem Typed.branch (h : s.Typed) {b : Branch}
    (hb : ∀ arrivals, b = .packets arrivals → ∀ arrival ∈ arrivals, arrival.2.InRange) (now : ℕ) :
    Speaks s (s.branch now b) := by
  cases b with
  | packets arrivals =>
    have hspeaks := Typed.onArrivals (s := { s with lastPacket := now })
      ⟨h.transferId, h.receiverId, h.floor, h.highest, h.next⟩ (hb arrivals rfl)
    exact ⟨hspeaks.typed, hspeaks.counted, hspeaks.sent⟩
  | sinkReady => exact h.silent le_rfl
  | statsTick => exact h.sendStats
  | renakTick => exact h.requestGaps now
  | silence => exact h.silent le_rfl

/-- Whatever is heard in a turn, what is said can be sent. -/
theorem Typed.turn (h : s.Typed) {b : Branch}
    (hb : ∀ arrivals, b = .packets arrivals → ∀ arrival ∈ arrivals, arrival.2.InRange) (now : ℕ)
    (sink : Sink) : Speaks s (s.turn rs now b sink) := by
  refine ((h.branch hb now).andThen fun s hs => hs.handOver sink now).andThen fun s hs => ?_
  split_ifs
  · exact hs.silent le_rfl
  · exact hs.conclude now

end Session
end Scuttlecast
