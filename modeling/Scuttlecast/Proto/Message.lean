import Scuttlecast.Proto.Payload
import Scuttlecast.Library.Varint

/-! Control messages on the wire: a tag byte, then the message as `bincode`'s standard
configuration lays it out, with the variant's index first and the fields in order. That layout is
assumed of `bincode`, and `decodeBody` what it makes of a body where it returns. -/
namespace Scuttlecast

abbrev frameTag : UInt8 := 0x10
abbrev controlTag : UInt8 := 0x1F

namespace Wire

abbrev readU16 : Bytes → Option (ℕ × Bytes) := Varint.decode 2
abbrev readU32 : Bytes → Option (ℕ × Bytes) := Varint.decode 4
abbrev readU64 : Bytes → Option (ℕ × Bytes) := Varint.decode 8

/-- A `u8` is one byte, whatever its value. -/
def writeU8 (v : ℕ) : Bytes := [UInt8.ofNat v]

def readU8 : Bytes → Option (ℕ × Bytes)
  | [] => none
  | b :: rest => some (b.toNat, rest)

def writeOption : Option ℕ → Bytes
  | none => writeU8 0
  | some v => writeU8 1 ++ Varint.encode v

def readOption (bs : Bytes) : Option (Option ℕ × Bytes) := do
  let (some?, bs) ← readU8 bs
  match some? with
  | 0 => some (none, bs)
  | 1 => do
    let (v, bs) ← readU64 bs
    some (some v, bs)
  | _ => none

def writeString (s : String) : Bytes := Varint.encodeList (fun b => [b]) s.toByteArray.data.toList

def readString (bs : Bytes) : Option (String × Bytes) := do
  let (text, bs) ← Varint.decodeList (fun bs => bs.head?.map fun b => (b, bs.tail)) bs
  let s ← String.fromUTF8? ⟨text.toArray⟩
  some (s, bs)

theorem readU8_writeU8 {v : ℕ} (h : v < 2 ^ 8) (rest : Bytes) :
    readU8 (writeU8 v ++ rest) = some (v, rest) := by
  have hv : v % 256 = v := Nat.mod_eq_of_lt h
  simp only [readU8, writeU8, List.singleton_append, UInt8.toNat_ofNat', hv]

theorem readOption_writeOption {v : Option ℕ} (h : ∀ n ∈ v, n < 2 ^ 64) (rest : Bytes) :
    readOption (writeOption v ++ rest) = some (v, rest) := by
  cases v with
  | none => simp [readOption, writeOption, readU8_writeU8]
  | some n =>
    have hn : n < 256 ^ 8 := by simpa using h n rfl
    simp [readOption, writeOption, List.append_assoc, readU8_writeU8,
      Varint.decode_encode (.inr (.inr rfl)) hn]

theorem readString_writeString {s : String} (h : s.utf8ByteSize < 2 ^ 64) (rest : Bytes) :
    readString (writeString s ++ rest) = some (s, rest) := by
  have hlen : s.toByteArray.data.toList.length < 2 ^ 64 := by
    rw [Array.length_toList]
    exact h
  have htext : String.fromUTF8? s.toByteArray = some s := by
    rw [String.fromUTF8?, dif_pos s.isValidUTF8]
    rfl
  have hbytes : Varint.decodeList (fun bs => bs.head?.map fun b => (b, bs.tail))
      (writeString s ++ rest) = some (s.toByteArray.data.toList, rest) :=
    Varint.decodeList_encodeList hlen rest fun _ _ _ => rfl
  simp [readString, hbytes, htext]

end Wire

open Wire

namespace Message

def encodeBody : Message → Bytes
  | .hello m => Varint.encode 0 ++ Varint.encode m.transferId ++
      Varint.encode m.geometry.blockSize ++ Varint.encode m.geometry.blocksPerSlice ++
      writeU8 m.geometry.parityPerSlice ++ Varint.encode m.geometry.maxLiveSlices ++
      writeOption m.totalBytes
  | .join transferId receiverId =>
    Varint.encode 1 ++ Varint.encode transferId ++ Varint.encode receiverId
  | .leave transferId receiverId =>
    Varint.encode 2 ++ Varint.encode transferId ++ Varint.encode receiverId
  | .stats m => Varint.encode 3 ++ Varint.encode m.transferId ++ Varint.encode m.receiverId ++
      Varint.encode m.totalReceived ++ Varint.encode m.totalExpected ++
      Varint.encode m.nextNeededSlice ++ Varint.encode m.sinkStallMs
  | .nak m => Varint.encode 4 ++ Varint.encode m.transferId ++ Varint.encode m.receiverId ++
      Varint.encode m.sliceNo ++ Varint.encodeList Varint.encode m.missing
  | .evicted m => Varint.encode 5 ++ Varint.encode m.transferId ++ Varint.encode m.target ++
      writeString m.reason
  | .done m => Varint.encode 6 ++ Varint.encode m.transferId ++ Varint.encode m.totalBytes ++
      Varint.encode m.totalBlocks

/-- The counts of a `Hello` with their ranges; a zero where a non-zero is due is refused. -/
def geometryOf? (blockSize blocksPerSlice parityPerSlice maxLiveSlices : ℕ) : Option Geometry :=
  if h : (0 < blockSize ∧ blockSize < 2 ^ 32) ∧ (0 < blocksPerSlice ∧ blocksPerSlice < 2 ^ 16) ∧
      parityPerSlice < 2 ^ 8 ∧ 0 < maxLiveSlices ∧ maxLiveSlices < 2 ^ 16 then
    some ⟨blockSize, blocksPerSlice, parityPerSlice, maxLiveSlices, h.1.1, h.1.2, h.2.1.1, h.2.1.2,
      h.2.2.1, h.2.2.2.1, h.2.2.2.2⟩
  else none

def decodeHello (bs : Bytes) : Option Hello := do
  let (transferId, bs) ← readU64 bs
  let (blockSize, bs) ← readU32 bs
  let (blocksPerSlice, bs) ← readU16 bs
  let (parityPerSlice, bs) ← readU8 bs
  let (maxLiveSlices, bs) ← readU16 bs
  let (totalBytes, _) ← readOption bs
  let geometry ← geometryOf? blockSize blocksPerSlice parityPerSlice maxLiveSlices
  some ⟨transferId, geometry, totalBytes⟩

def decodeStats (bs : Bytes) : Option Stats := do
  let (transferId, bs) ← readU64 bs
  let (receiverId, bs) ← readU64 bs
  let (totalReceived, bs) ← readU64 bs
  let (totalExpected, bs) ← readU64 bs
  let (nextNeededSlice, bs) ← readU32 bs
  let (sinkStallMs, _) ← readU32 bs
  some ⟨transferId, receiverId, totalReceived, totalExpected, nextNeededSlice, sinkStallMs⟩

def decodeNak (bs : Bytes) : Option Nak := do
  let (transferId, bs) ← readU64 bs
  let (receiverId, bs) ← readU64 bs
  let (sliceNo, bs) ← readU32 bs
  let (missing, _) ← Varint.decodeList readU16 bs
  some ⟨transferId, receiverId, sliceNo, missing⟩

def decodeEvicted (bs : Bytes) : Option Evicted := do
  let (transferId, bs) ← readU64 bs
  let (target, bs) ← readU64 bs
  let (reason, _) ← readString bs
  some ⟨transferId, target, reason⟩

def decodeDone (bs : Bytes) : Option Done := do
  let (transferId, bs) ← readU64 bs
  let (totalBytes, bs) ← readU64 bs
  let (totalBlocks, _) ← readU64 bs
  some ⟨transferId, totalBytes, totalBlocks⟩

/-- The two ids of a `Join` or a `Leave`. -/
def decodeIds (bs : Bytes) : Option (ℕ × ℕ) := do
  let (transferId, bs) ← readU64 bs
  let (receiverId, _) ← readU64 bs
  some (transferId, receiverId)

def decodeBody (bs : Bytes) : Option Message := do
  let (variant, bs) ← readU32 bs
  match variant with
  | 0 => (decodeHello bs).map .hello
  | 1 => (decodeIds bs).map fun ids => .join ids.1 ids.2
  | 2 => (decodeIds bs).map fun ids => .leave ids.1 ids.2
  | 3 => (decodeStats bs).map .stats
  | 4 => (decodeNak bs).map .nak
  | 5 => (decodeEvicted bs).map .evicted
  | 6 => (decodeDone bs).map .done
  | _ => none

/-- `encode_into` a buffer of `size` bytes: the tag and the body, if they fit. -/
def encodeInto (m : Message) (size : ℕ) : Except ProtocolError Bytes :=
  if m.encodeBody.length + 1 ≤ size then .ok (controlTag :: m.encodeBody) else .error .encode

def encode (m : Message) : Except ProtocolError Bytes := m.encodeInto maxControlSize

/-- `decode`, with `bincode`'s decoder for a parameter: it may panic, and what it refuses is
`none`. -/
def decodeBy (decodeBody : Bytes → Except Panic (Option Message)) :
    Bytes → Except Panic (Except ProtocolError Message)
  | [] => .ok (.error (.frameTooShort 0))
  | tag :: body =>
    if tag ≠ controlTag then .ok (.error (.unknownTag tag.toNat))
    else do
      let decoded ← decodeBody body
      match decoded with
      | some m => .ok (.ok m)
      | none => .ok (.error .decode)

def decode : Bytes → Except ProtocolError Message
  | [] => .error (.frameTooShort 0)
  | tag :: body =>
    if tag ≠ controlTag then .error (.unknownTag tag.toNat)
    else match decodeBody body with
      | some m => .ok m
      | none => .error .decode

/-- `bincode`'s decoder, where it returns. -/
def bincode (body : Bytes) : Except Panic (Option Message) := .ok (decodeBody body)

theorem decodeBy_bincode (bytes : Bytes) : decodeBy bincode bytes = .ok (decode bytes) := by
  cases bytes with
  | nil => rfl
  | cons tag body =>
    rw [decodeBy, decode]
    split_ifs
    · rfl
    · rw [bincode, ok_bind]
      cases decodeBody body <;> rfl

/-- Every number of the message is one of its field's type. -/
def InRange : Message → Prop
  | .hello m => m.transferId < 2 ^ 64 ∧ ∀ n ∈ m.totalBytes, n < 2 ^ 64
  | .join transferId receiverId => transferId < 2 ^ 64 ∧ receiverId < 2 ^ 64
  | .leave transferId receiverId => transferId < 2 ^ 64 ∧ receiverId < 2 ^ 64
  | .stats m => m.transferId < 2 ^ 64 ∧ m.receiverId < 2 ^ 64 ∧ m.totalReceived < 2 ^ 64 ∧
      m.totalExpected < 2 ^ 64 ∧ m.nextNeededSlice < 2 ^ 32 ∧ m.sinkStallMs < 2 ^ 32
  | .nak m => m.transferId < 2 ^ 64 ∧ m.receiverId < 2 ^ 64 ∧ m.sliceNo < 2 ^ 32 ∧
      m.missing.length < 2 ^ 64 ∧ ∀ slot ∈ m.missing, slot < 2 ^ 16
  | .evicted m => m.transferId < 2 ^ 64 ∧ m.target < 2 ^ 64 ∧ m.reason.utf8ByteSize < 2 ^ 64
  | .done m => m.transferId < 2 ^ 64 ∧ m.totalBytes < 2 ^ 64 ∧ m.totalBlocks < 2 ^ 64

theorem readU16_encode {v : ℕ} (h : v < 2 ^ 16) (rest : Bytes) :
    readU16 (Varint.encode v ++ rest) = some (v, rest) :=
  Varint.decode_encode (by simp) (by simpa using h) rest

theorem readU32_encode {v : ℕ} (h : v < 2 ^ 32) (rest : Bytes) :
    readU32 (Varint.encode v ++ rest) = some (v, rest) :=
  Varint.decode_encode (by simp) (by simpa using h) rest

theorem readU64_encode {v : ℕ} (h : v < 2 ^ 64) (rest : Bytes) :
    readU64 (Varint.encode v ++ rest) = some (v, rest) :=
  Varint.decode_encode (by simp) (by simpa using h) rest

theorem geometryOf?_self (g : Geometry) :
    geometryOf? g.blockSize g.blocksPerSlice g.parityPerSlice g.maxLiveSlices = some g :=
  dif_pos ⟨⟨g.blockSize_pos, g.blockSize_lt⟩, ⟨g.blocksPerSlice_pos, g.blocksPerSlice_lt⟩,
    g.parityPerSlice_lt, g.maxLiveSlices_pos, g.maxLiveSlices_lt⟩

/-- Reading what was written gives the message back, whatever follows it. -/
theorem decodeBody_encodeBody {m : Message} (h : m.InRange) (rest : Bytes) :
    decodeBody (m.encodeBody ++ rest) = some m := by
  cases m with
  | hello m =>
    simp [encodeBody, decodeBody, decodeHello, List.append_assoc, readU32_encode, readU64_encode h.1,
      readU32_encode m.geometry.blockSize_lt, readU16_encode m.geometry.blocksPerSlice_lt,
      readU8_writeU8 m.geometry.parityPerSlice_lt, readU16_encode m.geometry.maxLiveSlices_lt,
      readOption_writeOption h.2, geometryOf?_self]
  | join transferId receiverId =>
    simp [encodeBody, decodeBody, decodeIds, List.append_assoc, readU32_encode,
      readU64_encode h.1, readU64_encode h.2]
  | leave transferId receiverId =>
    simp [encodeBody, decodeBody, decodeIds, List.append_assoc, readU32_encode,
      readU64_encode h.1, readU64_encode h.2]
  | stats m =>
    obtain ⟨h1, h2, h3, h4, h5, h6⟩ := h
    simp [encodeBody, decodeBody, decodeStats, List.append_assoc, readU32_encode,
      readU64_encode h1, readU64_encode h2, readU64_encode h3, readU64_encode h4,
      readU32_encode h5, readU32_encode h6]
  | nak m =>
    obtain ⟨h1, h2, h3, h4, h5⟩ := h
    have hslots : ∀ slot ∈ m.missing, ∀ rest,
        readU16 (Varint.encode slot ++ rest) = some (slot, rest) :=
      fun slot hs => readU16_encode (h5 slot hs)
    have hlist := Varint.decodeList_encodeList h4 rest hslots
    simp [encodeBody, decodeBody, decodeNak, List.append_assoc, readU32_encode,
      readU64_encode h1, readU64_encode h2, readU32_encode h3, hlist]
  | evicted m =>
    obtain ⟨h1, h2, h3⟩ := h
    simp [encodeBody, decodeBody, decodeEvicted, List.append_assoc, readU32_encode,
      readU64_encode h1, readU64_encode h2, readString_writeString h3]
  | done m =>
    obtain ⟨h1, h2, h3⟩ := h
    simp [encodeBody, decodeBody, decodeDone, List.append_assoc, readU32_encode,
      readU64_encode h1, readU64_encode h2, readU64_encode h3]

/-- A message that fits its buffer is decoded to itself. -/
theorem decode_of_encodeInto {m : Message} (h : m.InRange) {size : ℕ} {bytes : Bytes}
    (he : m.encodeInto size = .ok bytes) : decode bytes = .ok m := by
  unfold encodeInto at he
  split at he
  · simp only [Except.ok.injEq] at he
    subst he
    have hbody := decodeBody_encodeBody h []
    rw [List.append_nil] at hbody
    simp [decode, hbody]
  · simp at he

end Message
end Scuttlecast
