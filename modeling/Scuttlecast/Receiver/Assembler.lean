import Scuttlecast.Proto.Payload
import Scuttlecast.Library.Chunks
import Scuttlecast.Library.Table

/-! The receiver's reassembly buffer: slices that fill up in any order, and the release of
their blocks in order, recovered through the codec where data shards are missing. -/
namespace Scuttlecast
namespace Assembler

structure Slice where
  slots : List (Option Bytes)
  received : ℕ
  parityWidth : ℕ
  deriving DecidableEq, Repr

namespace Slice

def empty (totalSlots : ℕ) : Slice := ⟨List.replicate totalSlots none, 0, 0⟩

def insert (s : Slice) (slot parityWidth : ℕ) (payload : Bytes) : Bool × Slice :=
  match s.slots[slot]? with
  | none => (false, s)
  | some (some _) => (false, s)
  | some none =>
    if 0 < parityWidth ∧ 0 < s.parityWidth ∧ s.parityWidth ≠ parityWidth then (false, s)
    else
      (true, { slots := s.slots.set slot (some payload)
               received := s.received + 1
               parityWidth := if 0 < parityWidth then parityWidth else s.parityWidth })

def dataPresent (s : Slice) (target : ℕ) : Bool := (s.slots.take target).all (·.isSome)

/-- The first data slots not held, as many as are short of the target. -/
def wanted (s : Slice) (target : ℕ) : List ℕ :=
  (((s.slots.zipIdx.take target).filter fun e => e.1.isNone).map fun e => e.2 % 2 ^ 16).take
    (target - s.received)

end Slice
end Assembler

open Assembler

/-- The sizes are those of the geometry that the `Hello` announced. -/
structure Assembler where
  geometry : Geometry
  codec : Option Decoder
  codecWidth : ℕ
  slices : Table ℕ Slice
  nextNeeded : ℕ
  totalBlocks : Option ℕ

namespace Assembler

def new (g : Geometry) : Except RsError Assembler := do
  let codec ← match g.parityPerSlice with
    | 0 => .ok none
    | parity + 1 => do .ok (some (← Decoder.new g.blocksPerSlice (parity + 1) g.blockSize))
  .ok { geometry := g
        codec := codec
        codecWidth := g.parityPerSlice
        slices := ∅
        nextNeeded := 0
        totalBlocks := none }

def totalSlots (a : Assembler) : Except Panic ℕ :=
  addChecked 16 a.geometry.blocksPerSlice a.geometry.parityPerSlice

/-- `as u32` -/
def totalSlices (a : Assembler) : Option ℕ :=
  a.totalBlocks.map fun total => Chunks.divCeil total a.geometry.blocksPerSlice % 2 ^ 32

def isFinished (a : Assembler) : Bool :=
  a.totalSlices.any fun totalSlices => totalSlices ≤ a.nextNeeded

def onDone (a : Assembler) (totalBlocks : ℕ) : Assembler :=
  { a with totalBlocks := some totalBlocks }

def insert (a : Assembler) (sliceNo slot parityWidth : ℕ) (payload : Bytes) :
    Except Panic (Bool × Assembler) :=
  if sliceNo < a.nextNeeded then .ok (false, a)
  else do
    let limit ← addChecked 32 a.nextNeeded a.geometry.maxLiveSlices
    if limit ≤ sliceNo then .ok (false, a)
    else do
      let totalSlots ← a.totalSlots
      let slice := (a.slices.lookup sliceNo).getD (.empty totalSlots)
      let (taken, slice) := slice.insert slot parityWidth payload
      .ok (taken, { a with slices := a.slices.insert sliceNo slice })

def canWrite (a : Assembler) (sliceNo : ℕ) : Bool :=
  a.totalBlocks.isSome || a.slices.entries.any (fun seen => sliceNo < seen.1) ||
    (a.slices.lookup sliceNo).any fun slice => slice.dataPresent a.geometry.blocksPerSlice

def target (a : Assembler) (sliceNo : ℕ) : ℕ :=
  match a.totalBlocks with
  | none => a.geometry.blocksPerSlice
  | some totalBlocks =>
    let below := sliceNo * a.geometry.blocksPerSlice
    if below ≤ totalBlocks then
      if totalBlocks - below < a.geometry.blocksPerSlice then totalBlocks - below
      else a.geometry.blocksPerSlice
    else 0

def isComplete (a : Assembler) (sliceNo : ℕ) : Bool :=
  (a.slices.lookup sliceNo).any fun slice => a.target sliceNo ≤ slice.received

def gaps (a : Assembler) (emitFloor : ℕ) : List (ℕ × List ℕ) :=
  let floor := a.totalSlices.getD emitFloor
  ((List.range' a.nextNeeded (floor - a.nextNeeded)).filter fun sliceNo =>
      ¬ a.isComplete sliceNo).map fun sliceNo =>
    let target := a.target sliceNo
    (sliceNo, match a.slices.lookup sliceNo with
      | some slice => slice.wanted target
      | none => List.range target)

def decoderFor (a : Assembler) (parityWidth : ℕ) : Except Panic (Decoder × Assembler) := do
  let a := if a.codec.isNone ∨ a.codecWidth ≠ parityWidth then
      { a with
        codec := (Decoder.new a.geometry.blocksPerSlice parityWidth a.geometry.blockSize).toOption
        codecWidth := parityWidth }
    else a
  let codec ← expectSome "the widest parity the transfer allows built a decoder" a.codec
  .ok (codec, a)

/-- What the decoder is given for one slot of the slice. -/
def addSlot (g : Geometry) (target : ℕ) (codec : Decoder) (slot : ℕ) :
    Option Bytes → Except RsError Decoder
  | some payload =>
    if slot < g.blocksPerSlice then codec.addOriginalShard slot payload
    else codec.addRecoveryShard (slot - g.blocksPerSlice) payload
  | none =>
    if target ≤ slot ∧ slot < g.blocksPerSlice then
      codec.addOriginalShard slot (List.replicate g.blockSize 0)
    else .ok codec

def recover (rs : ReedSolomon) (a : Assembler) (slice : Slice) (target : ℕ) :
    Except Panic (List Bytes × Assembler) :=
  if slice.dataPresent target then .ok ((slice.slots.take target).filterMap id, a)
  else do
    let (codec, a) ← a.decoderFor slice.parityWidth
    let codec ← slice.slots.zipIdx.foldlM (fun codec (held, slot) =>
      expectOk "every shard addresses a slot of this slice exactly once"
        (addSlot a.geometry target codec slot held)) codec
    let (decoded, codec) ←
      expectOk "target shards present guarantees the data recovers" (codec.decode rs)
    let recovered := (slice.slots.take target).zipIdx.map fun (held, slot) =>
      (decoded slot).or held
    let blocks ← recovered.mapM (expectSome "every data shard of the slice recovered")
    .ok (blocks, { a with codec := some codec })

/-- The guard of the loop in `take_ready`. -/
def Ready (a : Assembler) : Prop := a.canWrite a.nextNeeded ∧ a.isComplete a.nextNeeded

instance (a : Assembler) : Decidable a.Ready := by
  unfold Ready
  infer_instance

/-- One turn of the loop in `take_ready`: the blocks of the next slice, unless the loop ends. -/
def release (rs : ReedSolomon) (a : Assembler) : Except Panic (Option (List Bytes × Assembler)) :=
  if a.Ready then
    match a.slices.lookup a.nextNeeded with
    | none => .ok none
    | some slice => do
      let target := a.target a.nextNeeded
      let (blocks, a) ← recover rs { a with slices := a.slices.erase a.nextNeeded } slice target
      let nextNeeded ← addChecked 32 a.nextNeeded 1
      .ok (some (blocks, { a with nextNeeded := nextNeeded }))
  else .ok none

/-- The loop; each turn takes a slice out, so `fuel` is how many there are. -/
def takeReadyFrom (rs : ReedSolomon) : ℕ → Assembler → Except Panic (List Bytes × Assembler)
  | 0, a => .ok ([], a)
  | fuel + 1, a => do
    match ← release rs a with
    | none => .ok ([], a)
    | some (blocks, a) => do
      let (ready, a) ← takeReadyFrom rs fuel a
      .ok (blocks ++ ready, a)

def takeReady (rs : ReedSolomon) (a : Assembler) : Except Panic (List Bytes × Assembler) :=
  takeReadyFrom rs a.slices.entries.length a

end Assembler
end Scuttlecast
