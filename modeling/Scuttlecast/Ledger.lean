import Scuttlecast.Proto.Payload
import Scuttlecast.Library.Chunks
import Mathlib.Data.List.Infix

/-! What a transfer is, apart from any window: the padded blocks of its input, and the parity
width of each slice opened so far. It fixes the payload of every shard; the sender's window and
the receiver's buffer are both related to it. -/
namespace Scuttlecast

structure Ledger where
  geometry : Geometry
  blocks : List Bytes
  widths : List ℕ
  accepted : geometry.Accepted
  size : ∀ block ∈ blocks, block.length = geometry.blockSize
  width_le : ∀ width ∈ widths, width ≤ geometry.parityPerSlice

namespace Ledger

variable {rs : ReedSolomon} {L : Ledger} {k slot w : ℕ} {payload : Bytes}

/-- The data blocks of a slice. -/
def slice (L : Ledger) (k : ℕ) : List Bytes := Chunks.chunk L.geometry.blocksPerSlice L.blocks k

/-- How many slices the input takes. -/
def slices (L : Ledger) : ℕ := Chunks.divCeil L.blocks.length L.geometry.blocksPerSlice

/-- What a slice is encoded from: its blocks, and zeros in the places it has none for. -/
def originals (L : Ledger) (k : ℕ) : List Bytes :=
  L.slice k ++ List.replicate (L.geometry.blocksPerSlice - (L.slice k).length)
    (List.replicate L.geometry.blockSize 0)

/-- The parity of a slice at the width it was opened with. -/
def parity (rs : ReedSolomon) (L : Ledger) (k : ℕ) : List Bytes :=
  match L.widths[k]? with
  | none => []
  | some w => if w = 0 then [] else rs.recovery L.geometry.blocksPerSlice w (L.originals k)

/-- The payload of a shard, if the slice has it. -/
def shard (rs : ReedSolomon) (L : Ledger) (k slot : ℕ) : Option Bytes :=
  if slot < L.geometry.blocksPerSlice then (L.slice k)[slot]?
  else if k < L.slices then (L.parity rs k)[slot - L.geometry.blocksPerSlice]? else none

/-- The ledger once one more slice is opened. -/
def opened (L : Ledger) (w : ℕ) (hw : w ≤ L.geometry.parityPerSlice) : Ledger :=
  { L with
    widths := L.widths ++ [w]
    width_le := fun width h => by
      rcases List.mem_append.mp h with h | h
      · exact L.width_le width h
      · simpa [List.mem_singleton.mp h] using hw }

theorem length_slice (L : Ledger) (k : ℕ) : (L.slice k).length =
    min L.geometry.blocksPerSlice (L.blocks.length - k * L.geometry.blocksPerSlice) :=
  Chunks.length_chunk ..

theorem length_slice_le (L : Ledger) (k : ℕ) :
    (L.slice k).length ≤ L.geometry.blocksPerSlice := by
  rw [length_slice]
  exact Nat.min_le_left ..

theorem lt_slices_iff : k < L.slices ↔ k * L.geometry.blocksPerSlice < L.blocks.length :=
  Chunks.lt_divCeil_iff L.geometry.blocksPerSlice_pos

theorem length_slice_pos_iff : 0 < (L.slice k).length ↔ k < L.slices := by
  have := L.geometry.blocksPerSlice_pos
  rw [length_slice, lt_slices_iff]
  omega

/-- A slice with another one behind it is full. -/
theorem length_slice_of_lt {k' : ℕ} (h : k < k') (h' : k' < L.slices) :
    (L.slice k).length = L.geometry.blocksPerSlice := by
  rw [lt_slices_iff] at h'
  have hle : (k + 1) * L.geometry.blocksPerSlice ≤ k' * L.geometry.blocksPerSlice :=
    Nat.mul_le_mul_right _ h
  rw [Nat.succ_mul] at hle
  rw [length_slice]
  omega

theorem size_slice {block : Bytes} (h : block ∈ L.slice k) :
    block.length = L.geometry.blockSize :=
  L.size block (Chunks.mem_of_mem_chunk h)

theorem length_originals (L : Ledger) (k : ℕ) :
    (L.originals k).length = L.geometry.blocksPerSlice := by
  have := L.length_slice_le k
  simp only [originals, List.length_append, List.length_replicate]
  omega

theorem size_originals {block : Bytes} (h : block ∈ L.originals k) :
    block.length = L.geometry.blockSize := by
  rcases List.mem_append.mp h with h | h
  · exact size_slice h
  · simp [(List.mem_replicate.mp h).2]

theorem getElem?_originals (L : Ledger) (k i : ℕ) : (L.originals k)[i]? =
    if i < (L.slice k).length then (L.slice k)[i]?
    else if i < L.geometry.blocksPerSlice then some (List.replicate L.geometry.blockSize 0)
    else none := by
  unfold originals
  split_ifs with h h'
  · exact List.getElem?_append_left h
  · rw [List.getElem?_append_right (by omega), List.getElem?_replicate, if_pos (by omega)]
  · have := L.length_slice_le k
    rw [List.getElem?_append_right (by omega), List.getElem?_replicate, if_neg (by omega)]

theorem supported (hw : L.widths[k]? = some w) (hpos : 0 < w) :
    Supported L.geometry.blocksPerSlice w L.geometry.blockSize :=
  L.accepted.supported hpos (L.width_le w (List.mem_of_getElem? hw))

theorem parity_eq (hw : L.widths[k]? = some w) (hpos : 0 < w) :
    L.parity rs k = rs.recovery L.geometry.blocksPerSlice w (L.originals k) := by
  rw [parity, hw]
  exact if_neg (Nat.ne_of_gt hpos)

theorem length_parity (hw : L.widths[k]? = some w) : (L.parity rs k).length = w := by
  rcases Nat.eq_zero_or_pos w with rfl | hpos
  · simp [parity, hw]
  · rw [parity_eq hw hpos]
    exact rs.length_recovery (supported hw hpos) (L.length_originals k) fun _ => size_originals

theorem size_parity {block : Bytes} (h : block ∈ L.parity rs k) :
    block.length = L.geometry.blockSize := by
  unfold parity at h
  rcases hw : L.widths[k]? with _ | w
  · simp [hw] at h
  · rcases Nat.eq_zero_or_pos w with rfl | hpos
    · simp [hw] at h
    · simp only [hw, Nat.ne_of_gt hpos, if_false] at h
      exact rs.size_recovery (supported hw hpos) (L.length_originals k) (fun _ => size_originals)
        _ h

theorem shard_data (h : slot < L.geometry.blocksPerSlice) :
    L.shard rs k slot = (L.slice k)[slot]? := if_pos h

/-- A slice that has a shard has a block. -/
theorem lt_slices_of_shard (h : L.shard rs k slot = some payload) : k < L.slices := by
  unfold shard at h
  split_ifs at h with hlt hk
  · have := (List.getElem?_eq_some_iff.mp h).1
    exact length_slice_pos_iff.mp (by omega)
  · exact hk

/-- A parity shard lies inside the width of its slice. -/
theorem width_of_shard (h : L.shard rs k slot = some payload)
    (hle : L.geometry.blocksPerSlice ≤ slot) :
    ∃ w, L.widths[k]? = some w ∧ slot - L.geometry.blocksPerSlice < w := by
  unfold shard at h
  rw [if_neg (by omega)] at h
  split_ifs at h with hk
  have hlen := (List.getElem?_eq_some_iff.mp h).1
  rcases hw : L.widths[k]? with _ | w
  · simp [parity, hw] at hlen
  · exact ⟨w, rfl, by rwa [length_parity hw] at hlen⟩

theorem size_of_shard (h : L.shard rs k slot = some payload) :
    payload.length = L.geometry.blockSize := by
  unfold shard at h
  split_ifs at h
  · exact size_slice (List.mem_of_getElem? h)
  · exact size_parity (List.mem_of_getElem? h)

theorem lt_length_of_shard (h : L.shard rs k slot = some payload)
    (hlt : slot < L.geometry.blocksPerSlice) : slot < (L.slice k).length := by
  rw [shard_data hlt] at h
  exact (List.getElem?_eq_some_iff.mp h).1

section Opened

variable {hw : w ≤ L.geometry.parityPerSlice}

@[simp] theorem geometry_opened : (L.opened w hw).geometry = L.geometry := rfl

@[simp] theorem blocks_opened : (L.opened w hw).blocks = L.blocks := rfl

@[simp] theorem slice_opened : (L.opened w hw).slice k = L.slice k := rfl

@[simp] theorem slices_opened : (L.opened w hw).slices = L.slices := rfl

@[simp] theorem originals_opened : (L.opened w hw).originals k = L.originals k := rfl

theorem widths_opened {width : ℕ} (h : L.widths[k]? = some width) :
    (L.opened w hw).widths[k]? = some width := by
  have hlt := (List.getElem?_eq_some_iff.mp h).1
  rw [opened, List.getElem?_append_left hlt, h]

theorem parity_opened {width : ℕ} (h : L.widths[k]? = some width) :
    (L.opened w hw).parity rs k = L.parity rs k := by
  simp [parity, h, widths_opened h]

theorem length_widths_opened : (L.opened w hw).widths.length = L.widths.length + 1 := by
  simp [opened]

/-- Opening a slice changes no shard there is. -/
theorem shard_opened (h : L.shard rs k slot = some payload) :
    (L.opened w hw).shard rs k slot = some payload := by
  by_cases hlt : slot < L.geometry.blocksPerSlice
  · rwa [shard_data (L := L.opened w hw) hlt, slice_opened, ← (shard_data hlt : L.shard rs k slot = _)]
  · obtain ⟨width, hwidth, _⟩ := width_of_shard h (Nat.le_of_not_lt hlt)
    simp only [shard, hlt, if_false, geometry_opened, slices_opened, parity_opened hwidth] at h ⊢
    exact h

end Opened

/-- The same transfer, with at most one slice more opened. -/
def Grows (L L' : Ledger) : Prop :=
  L' = L ∨ ∃ w, ∃ hw : w ≤ L.geometry.parityPerSlice, L' = L.opened w hw

section Grows

variable {L' : Ledger}

theorem Grows.refl (L : Ledger) : L.Grows L := .inl rfl

theorem Grows.opened {w : ℕ} (hw : w ≤ L.geometry.parityPerSlice) : L.Grows (L.opened w hw) :=
  .inr ⟨w, hw, rfl⟩

theorem Grows.geometry (h : L.Grows L') : L'.geometry = L.geometry := by
  rcases h with rfl | ⟨_, _, rfl⟩ <;> rfl

theorem Grows.blocks (h : L.Grows L') : L'.blocks = L.blocks := by
  rcases h with rfl | ⟨_, _, rfl⟩ <;> rfl

theorem Grows.slices (h : L.Grows L') : L'.slices = L.slices := by
  rcases h with rfl | ⟨_, _, rfl⟩ <;> rfl

theorem Grows.length_widths (h : L.Grows L') : L.widths.length ≤ L'.widths.length := by
  rcases h with rfl | ⟨_, _, rfl⟩
  · exact le_rfl
  · rw [length_widths_opened]
    omega

theorem Grows.widths (h : L.Grows L') {width : ℕ} (hw : L.widths[k]? = some width) :
    L'.widths[k]? = some width := by
  rcases h with rfl | ⟨_, _, rfl⟩
  · exact hw
  · exact widths_opened hw

theorem Grows.shard (h : L.Grows L') (hs : L.shard rs k slot = some payload) :
    L'.shard rs k slot = some payload := by
  rcases h with rfl | ⟨_, _, rfl⟩
  · exact hs
  · exact shard_opened hs

end Grows

end Ledger
end Scuttlecast
