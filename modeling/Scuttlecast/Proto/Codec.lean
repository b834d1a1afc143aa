import Scuttlecast.Transport

/-! What can be read. Every datagram that is made anything of holds a message whose numbers are of
their types, and writing that message takes no more bytes than reading it did. -/
namespace Scuttlecast

open Wire

namespace Wire

variable {bs rest : Bytes} {v : ℕ}

theorem readU16_fits (h : readU16 bs = some (v, rest)) :
    v < 2 ^ 16 ∧ (Varint.encode v).length + rest.length ≤ bs.length :=
  Varint.decode_fits (.inl rfl) h

theorem readU32_fits (h : readU32 bs = some (v, rest)) :
    v < 2 ^ 32 ∧ (Varint.encode v).length + rest.length ≤ bs.length :=
  Varint.decode_fits (.inr (.inl rfl)) h

theorem readU64_fits (h : readU64 bs = some (v, rest)) :
    v < 2 ^ 64 ∧ (Varint.encode v).length + rest.length ≤ bs.length :=
  Varint.decode_fits (.inr (.inr rfl)) h

theorem readU8_fits (h : readU8 bs = some (v, rest)) :
    v < 2 ^ 8 ∧ (writeU8 v).length + rest.length ≤ bs.length := by
  cases bs with
  | nil => cases h
  | cons b bs =>
    cases h
    exact ⟨b.toNat_lt, (Nat.add_comm ..).le⟩

theorem readOption_fits {n : Option ℕ} (h : readOption bs = some (n, rest)) :
    (∀ v ∈ n, v < 2 ^ 64) ∧ (writeOption n).length + rest.length ≤ bs.length := by
  simp only [readOption, Option.bind_eq_bind, Option.bind_eq_some_iff, Prod.exists] at h
  obtain ⟨tag, bs₁, htag, h⟩ := h
  obtain ⟨-, hlen⟩ := readU8_fits htag
  rw [writeU8, List.length_singleton] at hlen
  split at h
  · cases h
    exact ⟨by simp, hlen⟩
  · simp only [Option.bind_eq_some_iff, Prod.exists, Option.some.injEq, Prod.mk.injEq] at h
    obtain ⟨v, bs₂, hv, rfl, rfl⟩ := h
    obtain ⟨hlt, hlen'⟩ := readU64_fits hv
    refine ⟨by simpa using hlt, ?_⟩
    rw [writeOption, writeU8, List.length_append, List.length_singleton]
    omega
  · cases h

theorem readString_fits {s : String} (h : readString bs = some (s, rest)) :
    s.utf8ByteSize < 2 ^ 64 ∧ (writeString s).length + rest.length ≤ bs.length := by
  simp only [readString, Option.bind_eq_bind, Option.bind_eq_some_iff, Prod.exists, Option.some.injEq,
    Prod.mk.injEq] at h
  obtain ⟨text, bs₁, htext, s', hs, rfl, rfl⟩ := h
  have hbyte (bs : Bytes) (b : UInt8) (rest : Bytes)
      (h : (bs.head?.map fun b => (b, bs.tail)) = some (b, rest)) :
      True ∧ ([b] : Bytes).length + rest.length ≤ bs.length := by
    cases bs with
    | nil => cases h
    | cons b bs =>
      cases h
      exact ⟨trivial, (Nat.add_comm ..).le⟩
  obtain ⟨hlt, -, hlen⟩ := Varint.decodeList_fits hbyte htext
  -- a string is its bytes
  have hbytes : s'.toByteArray.data.toList = text := by
    unfold String.fromUTF8? at hs
    split_ifs at hs with hvalid
    rw [← Option.some.inj hs]
    rfl
  refine ⟨?_, by rwa [writeString, hbytes]⟩
  rw [← hbytes, Array.length_toList] at hlt
  exact hlt

end Wire

namespace Message

variable {bs : Bytes}

theorem geometry_fields {blockSize blocksPerSlice parityPerSlice maxLiveSlices : ℕ} {g : Geometry}
    (h : geometryOf? blockSize blocksPerSlice parityPerSlice maxLiveSlices = some g) :
    g.blockSize = blockSize ∧ g.blocksPerSlice = blocksPerSlice ∧
      g.parityPerSlice = parityPerSlice ∧ g.maxLiveSlices = maxLiveSlices := by
  unfold geometryOf? at h
  split_ifs at h
  cases h
  exact ⟨rfl, rfl, rfl, rfl⟩

theorem decodeHello_fits {m : Hello} (h : decodeHello bs = some m) :
    (hello m).InRange ∧ (hello m).encodeBody.length ≤ (Varint.encode 0).length + bs.length := by
  simp only [decodeHello, Option.bind_eq_bind, Option.bind_eq_some_iff, Prod.exists,
    Option.some.injEq] at h
  obtain ⟨_, _, h₁, _, _, h₂, _, _, h₃, _, _, h₄, _, _, h₅, _, _, h₆, g, hg, rfl⟩ := h
  obtain ⟨hlt₁, hlen₁⟩ := readU64_fits h₁
  obtain ⟨-, hlen₂⟩ := readU32_fits h₂
  obtain ⟨-, hlen₃⟩ := readU16_fits h₃
  obtain ⟨-, hlen₄⟩ := readU8_fits h₄
  obtain ⟨-, hlen₅⟩ := readU16_fits h₅
  obtain ⟨hlt₆, hlen₆⟩ := readOption_fits h₆
  obtain ⟨rfl, rfl, rfl, rfl⟩ := geometry_fields hg
  refine ⟨⟨hlt₁, hlt₆⟩, ?_⟩
  simp only [encodeBody, List.length_append]
  omega

theorem decodeIds_fits {ids : ℕ × ℕ} (h : decodeIds bs = some ids) :
    (ids.1 < 2 ^ 64 ∧ ids.2 < 2 ^ 64) ∧
      (Varint.encode ids.1).length + (Varint.encode ids.2).length ≤ bs.length := by
  simp only [decodeIds, Option.bind_eq_bind, Option.bind_eq_some_iff, Prod.exists,
    Option.some.injEq] at h
  obtain ⟨_, _, h₁, _, _, h₂, rfl⟩ := h
  obtain ⟨hlt₁, hlen₁⟩ := readU64_fits h₁
  obtain ⟨hlt₂, hlen₂⟩ := readU64_fits h₂
  exact ⟨⟨hlt₁, hlt₂⟩, by dsimp only; omega⟩

theorem decodeStats_fits {m : Stats} (h : decodeStats bs = some m) :
    (stats m).InRange ∧ (stats m).encodeBody.length ≤ (Varint.encode 3).length + bs.length := by
  simp only [decodeStats, Option.bind_eq_bind, Option.bind_eq_some_iff, Prod.exists,
    Option.some.injEq] at h
  obtain ⟨_, _, h₁, _, _, h₂, _, _, h₃, _, _, h₄, _, _, h₅, _, _, h₆, rfl⟩ := h
  obtain ⟨hlt₁, hlen₁⟩ := readU64_fits h₁
  obtain ⟨hlt₂, hlen₂⟩ := readU64_fits h₂
  obtain ⟨hlt₃, hlen₃⟩ := readU64_fits h₃
  obtain ⟨hlt₄, hlen₄⟩ := readU64_fits h₄
  obtain ⟨hlt₅, hlen₅⟩ := readU32_fits h₅
  obtain ⟨hlt₆, hlen₆⟩ := readU32_fits h₆
  refine ⟨⟨hlt₁, hlt₂, hlt₃, hlt₄, hlt₅, hlt₆⟩, ?_⟩
  simp only [encodeBody, List.length_append]
  omega

theorem decodeNak_fits {m : Nak} (h : decodeNak bs = some m) :
    (nak m).InRange ∧ (nak m).encodeBody.length ≤ (Varint.encode 4).length + bs.length := by
  simp only [decodeNak, Option.bind_eq_bind, Option.bind_eq_some_iff, Prod.exists,
    Option.some.injEq] at h
  obtain ⟨_, _, h₁, _, _, h₂, _, _, h₃, _, _, h₄, rfl⟩ := h
  obtain ⟨hlt₁, hlen₁⟩ := readU64_fits h₁
  obtain ⟨hlt₂, hlen₂⟩ := readU64_fits h₂
  obtain ⟨hlt₃, hlen₃⟩ := readU32_fits h₃
  obtain ⟨hlt₄, hslots, hlen₄⟩ := Varint.decodeList_fits (fun _ _ _ => readU16_fits) h₄
  refine ⟨⟨hlt₁, hlt₂, hlt₃, hlt₄, hslots⟩, ?_⟩
  simp only [encodeBody, List.length_append]
  omega

theorem decodeEvicted_fits {m : Evicted} (h : decodeEvicted bs = some m) :
    (evicted m).InRange ∧ (evicted m).encodeBody.length ≤ (Varint.encode 5).length + bs.length := by
  simp only [decodeEvicted, Option.bind_eq_bind, Option.bind_eq_some_iff, Prod.exists,
    Option.some.injEq] at h
  obtain ⟨_, _, h₁, _, _, h₂, _, _, h₃, rfl⟩ := h
  obtain ⟨hlt₁, hlen₁⟩ := readU64_fits h₁
  obtain ⟨hlt₂, hlen₂⟩ := readU64_fits h₂
  obtain ⟨hlt₃, hlen₃⟩ := readString_fits h₃
  refine ⟨⟨hlt₁, hlt₂, hlt₃⟩, ?_⟩
  simp only [encodeBody, List.length_append]
  omega

theorem decodeDone_fits {m : Done} (h : decodeDone bs = some m) :
    (done m).InRange ∧ (done m).encodeBody.length ≤ (Varint.encode 6).length + bs.length := by
  simp only [decodeDone, Option.bind_eq_bind, Option.bind_eq_some_iff, Prod.exists,
    Option.some.injEq] at h
  obtain ⟨_, _, h₁, _, _, h₂, _, _, h₃, rfl⟩ := h
  obtain ⟨hlt₁, hlen₁⟩ := readU64_fits h₁
  obtain ⟨hlt₂, hlen₂⟩ := readU64_fits h₂
  obtain ⟨hlt₃, hlen₃⟩ := readU64_fits h₃
  refine ⟨⟨hlt₁, hlt₂, hlt₃⟩, ?_⟩
  simp only [encodeBody, List.length_append]
  omega

/-- What is read holds nothing that its types do not, and is no longer when written than it was. -/
theorem decodeBody_fits {m : Message} (h : decodeBody bs = some m) :
    m.InRange ∧ m.encodeBody.length ≤ bs.length := by
  simp only [decodeBody, Option.bind_eq_bind, Option.bind_eq_some_iff, Prod.exists] at h
  obtain ⟨variant, body, hvariant, h⟩ := h
  obtain ⟨-, hlen⟩ := readU32_fits hvariant
  split at h
  case h_8 => cases h
  all_goals obtain ⟨x, hx, rfl⟩ := Option.map_eq_some_iff.mp h
  case h_1 =>
    obtain ⟨hrange, hbody⟩ := decodeHello_fits hx
    exact ⟨hrange, hbody.trans hlen⟩
  case h_2 =>
    obtain ⟨hrange, hbody⟩ := decodeIds_fits hx
    refine ⟨hrange, ?_⟩
    simp only [encodeBody, List.length_append]
    omega
  case h_3 =>
    obtain ⟨hrange, hbody⟩ := decodeIds_fits hx
    refine ⟨hrange, ?_⟩
    simp only [encodeBody, List.length_append]
    omega
  case h_4 =>
    obtain ⟨hrange, hbody⟩ := decodeStats_fits hx
    exact ⟨hrange, hbody.trans hlen⟩
  case h_5 =>
    obtain ⟨hrange, hbody⟩ := decodeNak_fits hx
    exact ⟨hrange, hbody.trans hlen⟩
  case h_6 =>
    obtain ⟨hrange, hbody⟩ := decodeEvicted_fits hx
    exact ⟨hrange, hbody.trans hlen⟩
  case h_7 =>
    obtain ⟨hrange, hbody⟩ := decodeDone_fits hx
    exact ⟨hrange, hbody.trans hlen⟩

/-- A message as it goes out, whatever room there is. -/
def bytes (m : Message) : Bytes := controlTag :: m.encodeBody

theorem encodeInto_eq_ok {m : Message} {size : ℕ} {out : Bytes} :
    m.encodeInto size = .ok out ↔ m.bytes.length ≤ size ∧ out = m.bytes := by
  unfold encodeInto bytes
  split_ifs with hsize
  · simp [hsize, eq_comm]
  · simp [hsize]

end Message

namespace Frame

theorem field_lt (datagram : Bytes) (start width : ℕ) :
    field datagram start width < 256 ^ width := by
  have hlen : ((datagram.drop start).take width).length ≤ width := List.length_take_le ..
  exact (Varint.ofBytesLe_lt _).trans_le (Nat.pow_le_pow_right (by decide) hlen)

theorem inRange_ofDatagram (datagram : Bytes) : (ofDatagram datagram).InRange where
  slot := field_lt datagram 2 2
  sliceParity := field_lt datagram 1 1
  transferId := field_lt datagram 4 4
  seq := field_lt datagram 8 4
  sliceNo := field_lt datagram 12 4
  emitFloor := field_lt datagram 16 4

/-- A header alone is no frame. -/
theorem inRange_of_parse {datagram : Bytes} {frame : Frame}
    (h : parse datagram = .ok (.ok frame)) : frame.InRange ∧ frame.payload ≠ [] := by
  rw [parse_eq, Except.ok.injEq] at h
  split_ifs at h with hlen htag
  obtain rfl := Except.ok.inj h
  refine ⟨inRange_ofDatagram datagram, ?_⟩
  apply List.ne_nil_of_length_pos
  simp only [ofDatagram, List.length_drop]
  omega

end Frame

namespace Incoming

def bytes : Incoming → Bytes
  | .shard frame => frame.bytes
  | .control message => message.bytes

/-- Its numbers are of their types, and a shard carries something. -/
def InRange : Incoming → Prop
  | .shard frame => frame.InRange ∧ frame.payload ≠ []
  | .control message => message.InRange

end Incoming

theorem classify_control {message : Message} (h : message.InRange) (rest : Bytes) :
    classify (message.bytes ++ rest) = .ok (.ok (.control message)) := by
  have hbody := Message.decodeBody_encodeBody h rest
  rw [Message.bytes, List.cons_append, classify_cons, if_pos rfl, Message.decode, if_neg (by decide), hbody]
  rfl

theorem classify_written {incoming : Incoming} (h : incoming.InRange) :
    classify incoming.bytes = .ok (.ok incoming) := by
  cases incoming with
  | shard frame => exact classify_bytes h.1 h.2
  | control message =>
    have hread := classify_control h []
    rwa [List.append_nil] at hread

/-- What is read is well formed, whatever the datagram; a shard is the datagram it was read from,
and a message is written in no more bytes than it came in. -/
theorem inRange_of_classify {datagram : Bytes} {incoming : Incoming}
    (h : classify datagram = .ok (.ok incoming)) : incoming.InRange ∧
      incoming.bytes.length ≤ datagram.length ∧
      ∀ frame, incoming = .shard frame → incoming.bytes = datagram := by
  cases datagram with
  | nil => cases h
  | cons tag rest =>
    rw [classify_cons] at h
    split_ifs at h with htag
    · rw [Message.decode, if_neg (not_not.mpr htag), Except.ok.injEq] at h
      cases hbody : Message.decodeBody rest with
      | none =>
        rw [hbody] at h
        cases h
      | some message =>
        rw [hbody] at h
        cases h
        obtain ⟨hrange, hlen⟩ := Message.decodeBody_fits hbody
        refine ⟨hrange, ?_, by simp⟩
        simpa [Incoming.bytes, Message.bytes] using hlen
    · obtain ⟨parsed, hparsed⟩ : ∃ parsed, Frame.parse (tag :: rest) = .ok parsed :=
        ⟨_, Frame.parse_eq _⟩
      rw [hparsed, ok_bind, Except.ok.injEq] at h
      cases parsed with
      | error e => cases h
      | ok frame =>
        cases h
        have hbytes := Frame.bytes_of_parse hparsed
        exact ⟨Frame.inRange_of_parse hparsed, (congrArg List.length hbytes).le,
          fun _ hframe => Incoming.shard.inj hframe ▸ hbytes⟩

/-- The wire format goes both ways. What is written is read as itself, a message whatever follows
it; what is read, from any datagram whatever, is well formed, a shard down to the last byte, and a
message in no more bytes than it came in. -/
theorem wire_is_read_as_written :
    (∀ incoming : Incoming, incoming.InRange → classify incoming.bytes = .ok (.ok incoming)) ∧
      (∀ (message : Message) rest, message.InRange →
        classify (message.bytes ++ rest) = .ok (.ok (.control message))) ∧
      ∀ datagram incoming, classify datagram = .ok (.ok incoming) → incoming.InRange ∧
        incoming.bytes.length ≤ datagram.length ∧
        ∀ frame, incoming = .shard frame → incoming.bytes = datagram :=
  ⟨fun _ => classify_written, fun _ rest h => classify_control h rest,
    fun _ _ => inRange_of_classify⟩

end Scuttlecast
