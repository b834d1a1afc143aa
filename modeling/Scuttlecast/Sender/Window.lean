import Scuttlecast.Proto.Payload

/-! The sender's window: the slice being filled, the sealed slices some receiver may still
ask for, and the encoder that closes a slice with its parity. -/
namespace Scuttlecast
namespace Window

structure Slice where
  sliceNo : ℕ
  parityWidth : ℕ
  data : List Bytes
  parity : List Bytes
  deriving DecidableEq, Repr

def Slice.empty (sliceNo parityWidth : ℕ) : Slice := ⟨sliceNo, parityWidth, [], []⟩

structure Sealed where
  sliceNo : ℕ
  parity : List Bytes
  deriving DecidableEq, Repr

structure Pushed where
  sliceNo : ℕ
  blockInSlice : ℕ
  sealedSlice : Option Sealed
  deriving DecidableEq, Repr

end Window

open Window

/-- `max_live_slices` and the counts of the codec are those of the geometry. -/
structure Window where
  geometry : Geometry
  wantedParity : ℕ
  codec : Option Encoder
  codecWidth : ℕ
  live : List Slice
  current : Slice
  deriving DecidableEq, Repr

namespace Window

def new (g : Geometry) : Except RsError Window := do
  let codec ← match g.parityPerSlice with
    | 0 => .ok none
    | parity + 1 => do .ok (some (← Encoder.new g.blocksPerSlice (parity + 1) g.blockSize))
  .ok { geometry := g
        wantedParity := g.parityPerSlice
        codec := codec
        codecWidth := g.parityPerSlice
        live := []
        current := .empty 0 g.parityPerSlice }

def cover (w : Window) (wanted : ℕ) : Window :=
  { w with wantedParity := min wanted w.geometry.parityPerSlice }

/-- `as u8` -/
def currentParity (w : Window) : ℕ := w.current.parityWidth % 2 ^ 8

def slice (w : Window) (sliceNo : ℕ) : Option Slice :=
  if w.current.sliceNo = sliceNo then some w.current
  else w.live.find? fun slice => slice.sliceNo = sliceNo

def sliceParity (w : Window) (sliceNo : ℕ) : Option ℕ :=
  (w.slice sliceNo).map fun slice => slice.parityWidth % 2 ^ 8

def isFull (w : Window) : Bool := w.geometry.maxLiveSlices ≤ w.live.length

/-- The codec, reset when it was last used for another width. -/
def codecFor (w : Window) (width : ℕ) : Except Panic Encoder := do
  let codec ← expectSome "a transfer allowing parity built a codec" w.codec
  if w.codecWidth ≠ width then
    expectOk "a narrower slice than the widest the transfer allows"
      (codec.reset w.geometry.blocksPerSlice width w.geometry.blockSize)
  else .ok codec

def encodeParity (rs : ReedSolomon) (w : Window) : Except Panic (List Bytes × Window) :=
  let width := w.current.parityWidth
  if width = 0 then .ok ([], w)
  else do
    let absent := List.replicate w.geometry.blockSize 0
    let codec ← w.codecFor width
    let codec ← (List.range w.geometry.blocksPerSlice).foldlM (fun codec slot =>
      expectOk "a slice never holds more blocks than it was sized for"
        (codec.addOriginalShard (w.current.data.getD slot absent))) codec
    let (parity, codec) ← expectOk "every block of the slice was added" (codec.encode rs)
    .ok (parity, { w with codec := some codec, codecWidth := width })

/-- Called `seal` in the source. -/
def sealSlice (rs : ReedSolomon) (w : Window) : Except Panic (Option Sealed × Window) :=
  if w.current.data = [] then .ok (none, w)
  else do
    let (parity, w) ← w.encodeParity rs
    let sliceNo := w.current.sliceNo
    let nextNo ← addChecked 32 sliceNo 1
    .ok (some ⟨sliceNo, parity⟩,
      { w with live := w.live ++ [{ w.current with parity := parity }]
               current := .empty nextNo w.wantedParity })

def push (rs : ReedSolomon) (w : Window) (payload : Bytes) : Except Panic (Pushed × Window) :=
  let sliceNo := w.current.sliceNo
  let blockInSlice := w.current.data.length % 2 ^ 16
  let w := { w with current := { w.current with data := w.current.data ++ [payload] } }
  if w.current.data.length = w.geometry.blocksPerSlice then do
    let (sealedSlice, w) ← w.sealSlice rs
    .ok (⟨sliceNo, blockInSlice, sealedSlice⟩, w)
  else .ok (⟨sliceNo, blockInSlice, none⟩, w)

def retainFrom (w : Window) (firstNeeded : ℕ) : Window :=
  { w with live := w.live.dropWhile fun slice => slice.sliceNo < firstNeeded }

def shard (w : Window) (sliceNo slot : ℕ) : Option Bytes := do
  let slice ← w.slice sliceNo
  if slot < w.geometry.blocksPerSlice then slice.data[slot]?
  else slice.parity[slot - w.geometry.blocksPerSlice]?

end Window
end Scuttlecast
