import Scuttlecast.Sender.Tracking
import Scuttlecast.Transfer
import Scuttlecast.Interpolated
import Scuttlecast.Library.History

/-! The slicer's output stream. Whatever the feedback, the messages it sends for the first time
are those of the input in order: each slice's data, its parity, and the totals at the end. -/
namespace Scuttlecast
namespace Outbound

/-- What a message is told apart by: the place of a shard, and none for the end. -/
def place : Outbound → Option (ℕ × ℕ)
  | .shard sliceNo slot _ _ _ => some (sliceNo, slot)
  | .eof _ _ => none

/-- A data shard by where it is and what it carries. -/
def data? (g : Geometry) : Outbound → Option (ℕ × ℕ × Bytes)
  | .shard sliceNo slot _ _ payload =>
    if slot < g.blocksPerSlice then some (sliceNo, slot, payload) else none
  | .eof _ _ => none

def isEof : Outbound → Bool
  | .shard .. => false
  | .eof _ _ => true

end Outbound

namespace Ledger

/-- The data of a slice as it is first sent. -/
def dataMessages (L : Ledger) (k : ℕ) : List Outbound :=
  (L.slice k).zipIdx.map fun e => .shard k e.2 (L.widths.getD k 0) k e.1

/-- A slice as it is first sent. -/
def sliceMessages (rs : ReedSolomon) (L : Ledger) (k : ℕ) : List Outbound :=
  L.dataMessages k ++ Slicer.parityMessages rs L k

/-- The whole stream for an input of that many bytes. -/
def stream (rs : ReedSolomon) (L : Ledger) (bytes : ℕ) : List Outbound :=
  (List.range L.slices).flatMap (sliceMessages rs L) ++
    [.eof bytes (Chunks.divCeil bytes L.geometry.blockSize)]

variable {rs : ReedSolomon} {L L' : Ledger} {k : ℕ} {m : Outbound}

theorem mem_dataMessages_iff : m ∈ L.dataMessages k ↔ ∃ slot payload,
    (L.slice k)[slot]? = some payload ∧ m = .shard k slot (L.widths.getD k 0) k payload := by
  unfold dataMessages
  rw [List.mem_map]
  constructor
  · rintro ⟨⟨payload, slot⟩, h, rfl⟩
    exact ⟨slot, payload, List.mk_mem_zipIdx_iff_getElem?.mp h, rfl⟩
  · rintro ⟨slot, payload, h, rfl⟩
    exact ⟨(payload, slot), List.mk_mem_zipIdx_iff_getElem?.mpr h, rfl⟩

theorem mem_parityMessages_iff : m ∈ Slicer.parityMessages rs L k ↔ ∃ j payload,
    (L.parity rs k)[j]? = some payload ∧
      m = .shard k (L.geometry.blocksPerSlice + j) (L.widths.getD k 0) k payload := by
  unfold Slicer.parityMessages
  rw [List.mem_map]
  constructor
  · rintro ⟨⟨payload, j⟩, h, rfl⟩
    exact ⟨j, payload, List.mk_mem_zipIdx_iff_getElem?.mp h, rfl⟩
  · rintro ⟨j, payload, h, rfl⟩
    exact ⟨(payload, j), List.mk_mem_zipIdx_iff_getElem?.mpr h, rfl⟩

/-- Every shard of a slice is in its messages. -/
theorem place_mem_of_shard {slot : ℕ} {payload : Bytes} (h : L.shard rs k slot = some payload) :
    some (k, slot) ∈ (L.sliceMessages rs k).map Outbound.place := by
  unfold sliceMessages
  rw [List.map_append, List.mem_append]
  by_cases hlt : slot < L.geometry.blocksPerSlice
  · left
    rw [shard_data hlt] at h
    exact List.mem_map.mpr ⟨_, mem_dataMessages_iff.mpr ⟨slot, payload, h, rfl⟩, rfl⟩
  · right
    rw [shard, if_neg hlt] at h
    split_ifs at h
    refine List.mem_map.mpr ⟨_, mem_parityMessages_iff.mpr ⟨_, payload, h, rfl⟩, ?_⟩
    simp only [Outbound.place]
    congr 2
    omega

/-- Opening a later slice changes no message of a slice that is open. -/
theorem Grows.sliceMessages (h : L.Grows L') (hk : k < L.widths.length) :
    L'.sliceMessages rs k = L.sliceMessages rs k := by
  rcases h with rfl | ⟨w, hw, rfl⟩
  · rfl
  · have hget : L.widths[k]? = some L.widths[k] := List.getElem?_eq_getElem _
    have hwidth : (L.opened w hw).widths.getD k 0 = L.widths.getD k 0 := by
      rw [List.getD_eq_getElem?_getD, List.getD_eq_getElem?_getD, widths_opened hget, hget]
    rw [Ledger.sliceMessages, Ledger.sliceMessages, dataMessages, dataMessages,
      Slicer.parityMessages, Slicer.parityMessages, hwidth, parity_opened hget]
    rfl

theorem getElem?_dataMessages (L : Ledger) (k i : ℕ) : (L.dataMessages k)[i]? =
    (L.slice k)[i]?.map (.shard k i (L.widths.getD k 0) k) := by
  rw [dataMessages, List.getElem?_map, List.getElem?_zipIdx, Option.map_map, Nat.zero_add]
  rfl

theorem length_dataMessages (L : Ledger) (k : ℕ) :
    (L.dataMessages k).length = (L.slice k).length := by
  rw [dataMessages, List.length_map, List.length_zipIdx]

theorem map_place_sliceMessages (rs : ReedSolomon) (L : Ledger) (k : ℕ) :
    (L.sliceMessages rs k).map Outbound.place =
      (List.range (L.slice k).length).map (fun slot => some (k, slot)) ++
        (List.range (L.parity rs k).length).map fun j =>
          some (k, L.geometry.blocksPerSlice + j) := by
  have hrange (xs : List Bytes) (f : ℕ → Option (ℕ × ℕ)) :
      xs.zipIdx.map (fun e => f e.2) = (List.range xs.length).map f := by
    rw [← List.zipIdx_map_snd 0 xs |>.trans (List.range_eq_range' ..).symm, List.map_map]
    rfl
  rw [sliceMessages, List.map_append, dataMessages, Slicer.parityMessages, List.map_map,
    List.map_map, ← hrange, ← hrange]
  rfl

/-- No two messages of the stream are for the same place. -/
theorem nodup_places (rs : ReedSolomon) (L : Ledger) (n : ℕ) :
    (((List.range n).flatMap (L.sliceMessages rs)).map Outbound.place).Nodup := by
  rw [List.map_flatMap, List.nodup_flatMap]
  constructor
  · intro k _
    rw [map_place_sliceMessages, List.nodup_append']
    refine ⟨?_, ?_, ?_⟩
    · exact List.nodup_range.map fun i j h => by simpa using h
    · exact List.nodup_range.map fun i j h => by simpa using h
    · intro place hdata hparity
      obtain ⟨slot, hslot, rfl⟩ := List.mem_map.mp hdata
      obtain ⟨j, -, heq⟩ := List.mem_map.mp hparity
      have hlt := List.mem_range.mp hslot
      have hle := L.length_slice_le k
      simp only [Option.some.injEq, Prod.mk.injEq, true_and] at heq
      omega
  · apply List.nodup_range.imp_of_mem
    intro i j _ _ hne place (hi : place ∈ (L.sliceMessages rs i).map Outbound.place)
      (hj : place ∈ (L.sliceMessages rs j).map Outbound.place)
    rw [map_place_sliceMessages, List.mem_append, List.mem_map, List.mem_map] at hi hj
    apply hne
    rcases hi with ⟨_, _, rfl⟩ | ⟨_, _, rfl⟩ <;> rcases hj with ⟨_, _, hj⟩ | ⟨_, _, hj⟩ <;>
      simp only [Option.some.injEq, Prod.mk.injEq] at hj <;> exact hj.1.symm

theorem isEof_of_mem_slices (L : Ledger) {n : ℕ}
    (h : m ∈ (List.range n).flatMap (L.sliceMessages rs)) : m.isEof = false := by
  obtain ⟨k, -, hm⟩ := List.mem_flatMap.mp h
  unfold sliceMessages at hm
  rcases List.mem_append.mp hm with hm | hm
  · obtain ⟨slot, payload, -, rfl⟩ := mem_dataMessages_iff.mp hm
    rfl
  · obtain ⟨j, payload, -, rfl⟩ := mem_parityMessages_iff.mp hm
    rfl

/-- The data of a slice is its blocks, numbered by their slots. -/
theorem filterMap_data_sliceMessages (rs : ReedSolomon) (L : Ledger) (k : ℕ) :
    (L.sliceMessages rs k).filterMap (Outbound.data? L.geometry) =
      (L.slice k).zipIdx.map fun e => (k, e.2, e.1) := by
  have hdata : (L.dataMessages k).filterMap (Outbound.data? L.geometry) =
      (L.slice k).zipIdx.map fun e => (k, e.2, e.1) := by
    rw [dataMessages, List.filterMap_map, ← List.filterMap_eq_map]
    apply List.filterMap_congr
    rintro ⟨payload, slot⟩ hmem
    have hlt := (List.getElem?_eq_some_iff.mp (List.mk_mem_zipIdx_iff_getElem?.mp hmem)).1
    exact if_pos (hlt.trans_le (L.length_slice_le k))
  have hparity : (Slicer.parityMessages rs L k).filterMap (Outbound.data? L.geometry) = [] := by
    apply List.filterMap_eq_nil_iff.mpr
    intro m hm
    obtain ⟨j, payload, -, rfl⟩ := mem_parityMessages_iff.mp hm
    exact if_neg (Nat.not_lt.mpr (Nat.le_add_right ..))
  rw [sliceMessages, List.filterMap_append, hdata, hparity, List.append_nil]

/-- The data of the stream is the input's blocks, numbered through. -/
theorem filterMap_data_stream {r : Reader} (rs : ReedSolomon) (bytes : ℕ)
    (hL : L.blocks = (r.blocks L.geometry).map (Slicer.padded L.geometry)) :
    (L.stream rs bytes).filterMap (Outbound.data? L.geometry) =
      (List.range L.blocks.length).map fun i =>
        (i / L.geometry.blocksPerSlice, i % L.geometry.blocksPerSlice,
          Slicer.padded L.geometry (Chunks.chunk L.geometry.blockSize r.bytes i)) := by
  have hpos := L.geometry.blocksPerSlice_pos
  have hall : L.blocks.take (L.slices * L.geometry.blocksPerSlice) = L.blocks :=
    List.take_of_length_le ((Chunks.divCeil_le_iff hpos).mp le_rfl)
  have hblocks := Chunks.flatMap_zipIdx_chunk hpos L.blocks L.slices
  rw [hall] at hblocks
  rw [stream, List.filterMap_append, List.filterMap_flatMap]
  simp only [filterMap_data_sliceMessages]
  refine (List.append_nil _).trans (hblocks.trans ?_)
  apply List.ext_getElem?
  intro i
  rw [List.getElem?_map, List.getElem?_map, List.getElem?_zipIdx, Nat.zero_add]
  by_cases hi : i < L.blocks.length
  · have hi' : i < (r.blocks L.geometry).length := by rwa [hL, List.length_map] at hi
    have hblock : L.blocks[i]? =
        some (Slicer.padded L.geometry (Chunks.chunk L.geometry.blockSize r.bytes i)) := by
      rw [hL, List.getElem?_map, Reader.getElem?_blocks hi']
      rfl
    rw [hblock, List.getElem?_range hi]
    rfl
  · rw [List.getElem?_eq_none (Nat.le_of_not_lt hi),
      List.getElem?_eq_none (by simpa using Nat.le_of_not_lt hi)]
    rfl

end Ledger

namespace Window

variable {rs : ReedSolomon} {L : Ledger} {w : Window} {p k slot : ℕ}

/-- A window leaves one way only to open slices of the ledger. -/
theorem Tracks.ledger_eq {L₁ L₂ : Ledger} {p₁ p₂ : ℕ} (h₁ : w.Tracks rs L₁ p₁)
    (h₂ : w.Tracks rs L₂ p₂) (hL₁ : L.Grows L₁) (hL₂ : L.Grows L₂) : L₁ = L₂ := by
  have hlen := h₁.widths.trans h₂.widths.symm
  have hwidth := h₁.width.trans h₂.width.symm
  have hcurrent := h₁.widths
  rcases hL₁ with rfl | ⟨w₁, hw₁, rfl⟩ <;> rcases hL₂ with rfl | ⟨w₂, hw₂, rfl⟩
  · rfl
  · rw [Ledger.length_widths_opened] at hlen
    omega
  · rw [Ledger.length_widths_opened] at hlen
    omega
  · rw [Ledger.length_widths_opened] at hcurrent
    have hlast : w.current.sliceNo = L.widths.length := by omega
    simp only [Ledger.opened, hlast, List.getElem?_concat_length, Option.some.injEq] at hwidth
    subst hwidth
    rfl

/-- The part of the stream that is of the blocks pushed so far. -/
def begun (rs : ReedSolomon) (L : Ledger) (w : Window) : List Outbound :=
  (List.range w.current.sliceNo).flatMap (L.sliceMessages rs) ++
    (L.dataMessages w.current.sliceNo).take w.current.data.length

/-- It is the beginning of the slices up to the current one. -/
theorem begun_isPrefix (rs : ReedSolomon) (L : Ledger) (w : Window) :
    w.begun rs L <+: (List.range (w.current.sliceNo + 1)).flatMap (L.sliceMessages rs) := by
  rw [List.range_succ, List.flatMap_append, List.flatMap_singleton, begun, Ledger.sliceMessages]
  exact (List.prefix_append_right_inj _).mpr
    ((List.take_prefix ..).trans (List.prefix_append ..))

theorem nodup_begun (rs : ReedSolomon) (L : Ledger) (w : Window) :
    ((w.begun rs L).map Outbound.place).Nodup :=
  (L.nodup_places rs _).sublist ((begun_isPrefix rs L w).sublist.map _)

theorem place_ne_none {m : Outbound} (h : m ∈ w.begun rs L) : m.place ≠ none := by
  obtain ⟨k, -, hm⟩ := List.mem_flatMap.mp ((begun_isPrefix rs L w).subset h)
  have hplace := List.mem_map_of_mem (f := Outbound.place) hm
  rw [Ledger.map_place_sliceMessages, List.mem_append, List.mem_map, List.mem_map] at hplace
  rcases hplace with ⟨_, _, heq⟩ | ⟨_, _, heq⟩ <;> simp [← heq]

theorem mem_begun_of_lt {m : Outbound} (hk : k < w.current.sliceNo)
    (hm : m ∈ L.sliceMessages rs k) : m ∈ w.begun rs L :=
  List.mem_append_left _ (List.mem_flatMap.mpr ⟨k, List.mem_range.mpr hk, hm⟩)

/-- A shard that the window finds has been put out. -/
theorem Tracks.place_mem_begun (h : w.Tracks rs L p) (hroomy : w.Roomy) {payload : Bytes}
    (hs : w.shard k slot = some payload) :
    some (k, slot) ∈ (w.begun rs L).map Outbound.place := by
  obtain ⟨hshard, -, -, hle⟩ := h.shard_eq_some hroomy hs
  rcases hle.lt_or_eq with hlt | rfl
  · obtain ⟨m, hm, hplace⟩ := List.mem_map.mp (Ledger.place_mem_of_shard hshard)
    exact List.mem_map.mpr ⟨m, mem_begun_of_lt hlt hm, hplace⟩
  · rw [Window.shard, h.slice_eq, if_pos rfl, h.geometry] at hs
    simp only [Option.bind_eq_bind, Option.bind_some, h.parity, List.getElem?_nil] at hs
    split_ifs at hs with hslot
    have hdata := (List.getElem?_eq_some_iff.mp hs).1
    rw [Ledger.shard_data hslot] at hshard
    have hmessage : ((L.dataMessages w.current.sliceNo).take w.current.data.length)[slot]? =
        some (.shard w.current.sliceNo slot (L.widths.getD w.current.sliceNo 0)
          w.current.sliceNo payload) := by
      rw [List.getElem?_take, if_pos hdata, L.getElem?_dataMessages, hshard]
      rfl
    exact List.mem_map.mpr ⟨_, List.mem_append_right _ (List.mem_of_getElem? hmessage), rfl⟩

end Window

namespace Slicer

variable {rs : ReedSolomon} {L L' : Ledger} {r : Reader} {s s' : Slicer} {p : ℕ}
  {messages : List Outbound}

theorem Tracks.begun_grows (h : s.Tracks rs L r p) (hL : L.Grows L') :
    (List.range s.window.current.sliceNo).flatMap (L'.sliceMessages rs) =
      (List.range s.window.current.sliceNo).flatMap (L.sliceMessages rs) := by
  apply List.flatMap_congr
  intro k hk
  apply hL.sliceMessages
  have := List.mem_range.mp hk
  rw [h.window.widths]
  omega

/-- The shard of the next block is the next of its slice. -/
theorem Tracks.take_dataMessages (h : s.Tracks rs L r p) {block : Bytes}
    (hb : (r.blocks L.geometry)[p]? = some block) :
    (L.dataMessages s.window.current.sliceNo).take (s.window.current.data.length + 1) =
      (L.dataMessages s.window.current.sliceNo).take s.window.current.data.length ++
        [.shard s.window.current.sliceNo s.window.current.data.length
          s.window.current.parityWidth s.window.current.sliceNo (padded L.geometry block)] := by
  obtain ⟨hshard, hwidth, -, -⟩ := h.honest_data hb
  rw [Ledger.shard_data h.short] at hshard
  have hgetD : L.widths.getD s.window.current.sliceNo 0 = s.window.current.parityWidth := by
    rw [List.getD_eq_getElem?_getD, hwidth]
    rfl
  rw [List.take_add_one, L.getElem?_dataMessages, hshard, hgetD]
  rfl

/-- What `push` sends comes next in the stream. -/
theorem Tracks.begun_push (h : s.Tracks rs L r p) {block : Bytes}
    (hb : (r.blocks L.geometry)[p]? = some block)
    (hroom : s.window.live.length < L.geometry.maxLiveSlices)
    (hok : s.push rs block = .ok (s', messages)) :
    ∃ L', L.Grows L' ∧ s'.Tracks rs L' r (p + 1) ∧
      s'.window.begun rs L' = s.window.begun rs L ++ messages := by
  obtain ⟨L', hgrows, hs', -, tail, rfl, htail⟩ := h.push hb hroom hok
  refine ⟨L', hgrows, hs', ?_⟩
  have htake := h.take_dataMessages hb
  have hstart := h.start_le (List.getElem?_eq_some_iff.mp (h.getElem?_blocks hb)).1
  have hlen := h.window.length_data
  have hlen' := hs'.window.length_data
  rw [hgrows.geometry] at hlen'
  rcases htail with ⟨rfl, rfl, hcur⟩ | ⟨rfl, hcur, hend⟩
  · have hdata : s'.window.current.data.length = s.window.current.data.length + 1 := by
      rw [hcur] at hlen'
      omega
    rw [Window.begun, Window.begun, hcur, hdata, htake, List.append_assoc]
  · have hdata : s'.window.current.data.length = 0 := by omega
    have hfull : (L.dataMessages s.window.current.sliceNo).length ≤
        s.window.current.data.length + 1 := by
      have hle := L.length_slice_le s.window.current.sliceNo
      rw [hcur, Nat.succ_mul] at hend
      rw [L.length_dataMessages]
      omega
    rw [List.take_of_length_le hfull] at htake
    have hslice : L'.sliceMessages rs s.window.current.sliceNo =
        (L.dataMessages s.window.current.sliceNo).take s.window.current.data.length ++
          (.shard s.window.current.sliceNo s.window.current.data.length
            s.window.current.parityWidth s.window.current.sliceNo (padded L.geometry block) ::
              parityMessages rs L s.window.current.sliceNo) := by
      rw [hgrows.sliceMessages (h.window.widths.symm ▸ Nat.lt_succ_self _),
        Ledger.sliceMessages, ← List.singleton_append, ← List.append_assoc, ← htake]
    rw [Window.begun, Window.begun, hcur, hdata, List.take_zero, List.append_nil,
      List.range_succ, List.flatMap_append, List.flatMap_singleton, h.begun_grows hgrows, hslice,
      List.append_assoc]

/-- At the end of the input the rest of the stream is sent. -/
theorem Tracks.begun_endInput (h : s.Tracks rs L r p) (hp : p = L.blocks.length)
    (hfault : r.fault = none) (hok : s.endInput rs = .ok (s', messages)) :
    ∃ L', L.Grows L' ∧ s'.Tracks rs L' r p ∧ s'.window.current.sliceNo = L'.slices ∧
      s'.window.current.data = [] ∧
      s'.window.begun rs L' ++ [.eof r.bytes.length L.blocks.length] =
        s.window.begun rs L ++ messages := by
  obtain ⟨L', hgrows, hs', -, hcur, hnil, tail, rfl, htail⟩ := h.endInput hp hfault hok
  refine ⟨L', hgrows, hs', hcur.trans hgrows.slices.symm, hnil, ?_⟩
  rw [← List.append_assoc]
  congr 1
  rcases htail with ⟨rfl, hempty, rfl⟩ | ⟨rfl, hne⟩
  · subst hp
    rw [Window.begun, Window.begun, hcur, hnil, h.window.sliceNo_eq hempty, hempty,
      List.append_nil]
  · have hdata := h.window.data_eq_slice (.inr hp)
    have hlt : s.window.current.sliceNo < L.slices := by
      rw [← Ledger.length_slice_pos_iff, ← hdata]
      exact List.length_pos_iff.mpr hne
    have hlast : s'.window.current.sliceNo = s.window.current.sliceNo + 1 := by
      have hwidths := h.window.widths
      have hwidths' := hs'.window.widths
      rcases hgrows with rfl | ⟨w, hw, rfl⟩
      · omega
      · rw [Ledger.length_widths_opened] at hwidths'
        omega
    have hslice : L'.sliceMessages rs s.window.current.sliceNo =
        L.sliceMessages rs s.window.current.sliceNo :=
      hgrows.sliceMessages (h.window.widths.symm ▸ Nat.lt_succ_self _)
    have htake : (L.dataMessages s.window.current.sliceNo).take s.window.current.data.length =
        L.dataMessages s.window.current.sliceNo := by
      rw [hdata, ← L.length_dataMessages, List.take_length]
    rw [Window.begun, Window.begun, hlast, hnil, List.length_nil, List.take_zero, List.append_nil,
      List.range_succ, List.flatMap_append, List.flatMap_singleton, h.begun_grows hgrows, hslice,
      Ledger.sliceMessages, htake, List.append_assoc]

end Slicer

/-- The slicer task with all it has put into its channel. -/
structure Emission where
  task : SlicerTask
  sent : List Outbound

namespace Emission

inductive Action where
  | read
  | recv (message : Feedback)
  | send
  deriving DecidableEq, Repr

def next (rs : ReedSolomon) : Action → Emission → Option Emission
  | .read, x => (x.task.read rs).map fun task => { x with task := task }
  | .recv message, x =>
    if x.task.AtSelect then some { x with task := x.task.recv message } else none
  | .send, x =>
    match x.task.todo with
    | [] => none
    | message :: rest =>
      if x.task.ended.isNone then
        some { task := { x.task with todo := rest }, sent := x.sent ++ [message] }
      else none

/-- All orders of reads, of feedback whatever it says, and of sends, from a new slicer. -/
def emissions (rs : ReedSolomon) (g : Geometry) (r : Reader) (s : Slicer) :
    Labelled.System Emission Action where
  init x := x = ⟨⟨s, r.items g, false, [], none⟩, []⟩
  next := next rs

/-- All the messages so far: those sent and those the handler has yet to send. -/
def history (x : Emission) : List Outbound := x.sent ++ x.task.todo

section Invariant

variable {rs : ReedSolomon} {L L' : Ledger} {r : Reader} {x x' : Emission} {n : ℕ}
  {before messages : List Outbound} {m : Outbound}

/-- A floor inside the slices opened, with all of every slice below it sent before. -/
def Preceded (rs : ReedSolomon) (L : Ledger) (before : List Outbound) : Outbound → Prop
  | .shard _ _ _ emitFloor _ => emitFloor < L.widths.length ∧
      ∀ k < emitFloor, ∀ message ∈ L.sliceMessages rs k, message ∈ before
  | .eof _ _ => True

theorem Preceded.grows (hL : L.Grows L') (h : Preceded rs L before m) :
    Preceded rs L' before m := by
  cases m with
  | shard k slot width floor payload =>
    refine ⟨h.1.trans_le hL.length_widths, fun k hk message hm => h.2 k hk message ?_⟩
    rwa [← hL.sliceMessages (hk.trans h.1)]
  | eof => trivial

theorem Preceded.subset {before' : List Outbound} (h : Preceded rs L before m)
    (hsub : before ⊆ before') : Preceded rs L before' m := by
  cases m with
  | shard k slot width floor payload =>
    exact ⟨h.1, fun k hk message hm => hsub (h.2 k hk message hm)⟩
  | eof => trivial

/-- The messages of a slice name its own number for their floor. -/
theorem preceded_of_mem_slice (hn : n < L.widths.length) (hm : m ∈ L.sliceMessages rs n)
    (hbefore : ∀ k < n, ∀ message ∈ L.sliceMessages rs k, message ∈ before) :
    Preceded rs L before m := by
  unfold Ledger.sliceMessages at hm
  rcases List.mem_append.mp hm with hm | hm
  · obtain ⟨slot, payload, -, rfl⟩ := Ledger.mem_dataMessages_iff.mp hm
    exact ⟨hn, hbefore⟩
  · obtain ⟨j, payload, -, rfl⟩ := Ledger.mem_parityMessages_iff.mp hm
    exact ⟨hn, hbefore⟩

/-- The stream itself keeps its floors. -/
theorem each_preceded (hn : n ≤ L.widths.length) :
    History.Each (Preceded rs L) ((List.range n).flatMap (L.sliceMessages rs)) := by
  induction n with
  | zero => exact History.each_nil
  | succ n ih =>
    rw [List.range_succ, List.flatMap_append, List.flatMap_singleton]
    apply (ih (Nat.le_of_succ_le hn)).append
    intro before m after heq
    apply preceded_of_mem_slice (n := n) (Nat.lt_of_succ_le hn) (by simp [heq])
    intro k hk message hmem
    exact List.mem_append_left _ (List.mem_flatMap.mpr ⟨k, List.mem_range.mpr hk, hmem⟩)

/-- The task and its messages so far, against the stream. -/
structure Tracks (rs : ReedSolomon) (L : Ledger) (r : Reader) (x : Emission) : Prop where
  task : x.task.Tracks rs L r
  firsts : History.firsts Outbound.place x.history =
    x.task.slicer.window.begun rs L ++ x.history.filter Outbound.isEof
  eof : x.history.filter Outbound.isEof = [] ∨
    x.history.filter Outbound.isEof = [.eof r.bytes.length L.blocks.length] ∧ x.task.drained ∧
      r.fault = none ∧ x.task.slicer.window.current.sliceNo = L.slices ∧
        x.task.slicer.window.current.data = []
  drained : x.task.drained → (∀ p, x.task.ended ≠ some (.panicked p)) →
    x.history.filter Outbound.isEof ≠ []
  preceded : History.Each (Preceded rs L) x.history

theorem isEof_of_mem_begun {w : Window} (h : m ∈ w.begun rs L) : m.isEof = false :=
  L.isEof_of_mem_slices ((Window.begun_isPrefix rs L w).subset h)

theorem filter_begun (rs : ReedSolomon) (L : Ledger) (w : Window) :
    (w.begun rs L).filter Outbound.isEof = [] := by
  apply List.filter_eq_nil_iff.mpr
  intro m hm
  simp [isEof_of_mem_begun hm]

theorem Tracks.mem_history (h : x.Tracks rs L r) (hm : m ∈ x.task.slicer.window.begun rs L) :
    m ∈ x.history := by
  have hfirst : m ∈ History.firsts Outbound.place x.history := by
    rw [h.firsts]
    exact List.mem_append_left _ hm
  exact History.mem_of_mem_firsts hfirst

/-- Only the messages, not where they wait, matter to the invariant. -/
theorem Tracks.of_history_eq (h : x.Tracks rs L r) (htask : x'.task.Tracks rs L r)
    (hhistory : x'.history = x.history)
    (hcurrent : x'.task.slicer.window.current = x.task.slicer.window.current)
    (hdrained : x'.task.drained = x.task.drained)
    (hended : ∀ p, x.task.ended = some (.panicked p) → x'.task.ended = some (.panicked p)) :
    x'.Tracks rs L r := by
  refine ⟨htask, ?_, ?_, fun hd hp => ?_, ?_⟩
  · rw [hhistory, h.firsts, Window.begun, Window.begun, hcurrent]
  · rw [hhistory, hdrained, hcurrent]
    exact h.eof
  · rw [hhistory]
    exact h.drained (hdrained ▸ hd) fun p heq => hp p (hended p heq)
  · rw [hhistory]
    exact h.preceded

section End

variable {w : Window} {bytes blocks : ℕ} {eofs : List Outbound}

/-- With the end of the input behind it, too, nothing is there twice. -/
theorem nodup_begun_append (heofs : eofs = [] ∨ eofs = [.eof bytes blocks]) :
    ((w.begun rs L ++ eofs).map Outbound.place).Nodup := by
  have hnodup := Window.nodup_begun rs L w
  rcases heofs with rfl | rfl
  · rwa [List.append_nil]
  · rw [List.map_append, List.nodup_append']
    refine ⟨hnodup, List.nodup_singleton _, fun place hplace hnone => ?_⟩
    obtain ⟨m, hm, rfl⟩ := List.mem_map.mp hplace
    exact Window.place_ne_none hm (List.mem_singleton.mp hnone)

theorem each_begun_append (hwidths : w.current.sliceNo + 1 ≤ L.widths.length)
    (heofs : eofs = [] ∨ eofs = [.eof bytes blocks]) :
    History.Each (Preceded rs L) (w.begun rs L ++ eofs) := by
  apply ((each_preceded hwidths).of_isPrefix (Window.begun_isPrefix rs L w)).append
  intro before m after heq
  rcases heofs with rfl | rfl
  · simp at heq
  · have hm : m ∈ [Outbound.eof bytes blocks] := by simp [heq]
    rw [List.mem_singleton.mp hm]
    trivial

end End

/-- The next messages of the stream are put out. -/
theorem Tracks.extend (h : x.Tracks rs L r) (hgrows : L.Grows L') (htask : x'.task.Tracks rs L' r)
    (hhistory : x'.history = x.history ++ messages)
    (hopen : x.history.filter Outbound.isEof = []) {eofs : List Outbound}
    (heofs : eofs = [] ∧ x'.task.drained = false ∨
      eofs = [.eof r.bytes.length L'.blocks.length] ∧ x'.task.drained ∧ r.fault = none ∧
        x'.task.slicer.window.current.sliceNo = L'.slices ∧
          x'.task.slicer.window.current.data = [])
    (hbegun : x'.task.slicer.window.begun rs L' ++ eofs =
      x.task.slicer.window.begun rs L ++ messages) : x'.Tracks rs L' r := by
  have hfirsts := h.firsts
  rw [hopen, List.append_nil] at hfirsts
  obtain ⟨p, hs, -⟩ := htask.slicer
  have hend := heofs.imp And.left And.left
  have hnodup : ((x'.task.slicer.window.begun rs L' ++ eofs).map Outbound.place).Nodup :=
    nodup_begun_append hend
  have heach : History.Each (Preceded rs L') (x'.task.slicer.window.begun rs L' ++ eofs) :=
    each_begun_append hs.window.widths.ge hend
  have hfilter : x'.history.filter Outbound.isEof = eofs := by
    have hboth := congrArg (List.filter Outbound.isEof) hbegun
    rw [List.filter_append, List.filter_append, filter_begun, filter_begun, List.nil_append,
      List.nil_append] at hboth
    rw [hhistory, List.filter_append, hopen, ← hboth, List.nil_append]
    rcases heofs with ⟨rfl, -⟩ | ⟨rfl, -⟩ <;> rfl
  refine ⟨htask, ?_, ?_, fun hd _ => ?_, ?_⟩
  · rw [hfilter]
    rw [hbegun, ← hfirsts] at hnodup ⊢
    rw [hhistory, History.firsts_append_of_nodup hnodup]
  · rw [hfilter]
    exact heofs.imp_left (·.1)
  · rw [hfilter]
    rcases heofs with ⟨-, hundrained⟩ | ⟨rfl, -⟩
    · rw [hundrained] at hd
      cases hd
    · exact List.cons_ne_nil _ _
  · rw [hhistory]
    rw [hbegun] at heach
    refine (h.preceded.mono fun before m _ => Preceded.grows hgrows).append ?_
    refine heach.right.mono fun before m _ hm => hm.subset fun message hmem => ?_
    rcases List.mem_append.mp hmem with hmem | hmem
    · exact List.mem_append_left _ (h.mem_history hmem)
    · exact List.mem_append_right _ hmem

theorem Tracks.read (h : x.Tracks rs L r) {task : SlicerTask} (hr : x.task.read rs = some task) :
    ∃ L', L.Grows L' ∧ Tracks rs L' r ⟨task, x.sent⟩ := by
  obtain ⟨p, hs, hended, htodo, hdrained, hroom, hcase⟩ := h.task.read_cases hr
  have hopen : x.history.filter Outbound.isEof = [] := by
    rcases h.eof with hnone | ⟨-, hd, -⟩
    · exact hnone
    · rw [hdrained] at hd
      cases hd
  have hsent : x.history = x.sent := by rw [history, htodo, List.append_nil]
  obtain ⟨L', hgrows, htask, -, -⟩ := h.task.read hr
  obtain ⟨p', hs', -⟩ := htask.slicer
  refine ⟨L', hgrows, ?_⟩
  rcases hcase with ⟨block, input, hb, -, rfl⟩ | ⟨e, input, -, rfl⟩ | ⟨hp, hfault, -, rfl⟩
  · rcases hpush : x.task.slicer.push rs block with panic | ⟨s', messages⟩
    · rw [hpush] at htask hs'
      obtain rfl := hs.window.ledger_eq hs'.window (.refl L) hgrows
      exact h.of_history_eq htask rfl rfl rfl fun p heq => by simp [hended] at heq
    · rw [hpush] at htask hs'
      obtain ⟨L'', hgrows', hs'', hbegun⟩ := hs.begun_push hb hroom hpush
      obtain rfl := hs''.window.ledger_eq hs'.window hgrows' hgrows
      refine h.extend hgrows htask ?_ hopen (.inl ⟨rfl, hdrained⟩)
        ((List.append_nil _).trans hbegun)
      rw [hsent]
      rfl
  · obtain rfl := hs.window.ledger_eq hs'.window (.refl L) hgrows
    exact h.of_history_eq htask rfl rfl rfl fun p heq => by simp [hended] at heq
  · rcases hend : x.task.slicer.endInput rs with panic | ⟨s', messages⟩
    · rw [hend] at htask hs'
      obtain rfl := hs.window.ledger_eq hs'.window (.refl L) hgrows
      exact ⟨htask, h.firsts, .inl hopen, fun _ hp => absurd rfl (hp panic), h.preceded⟩
    · rw [hend] at htask hs'
      obtain ⟨L'', hgrows', hs'', hcur, hnil, hbegun⟩ := hs.begun_endInput hp hfault hend
      obtain rfl := hs''.window.ledger_eq hs'.window hgrows' hgrows
      rw [← hgrows.blocks] at hbegun
      refine h.extend hgrows htask ?_ hopen (.inr ⟨rfl, rfl, hfault, hcur, hnil⟩) hbegun
      rw [hsent]
      rfl

/-- The slices below the floor have been put out. -/
theorem Tracks.preceded_resend (h : x.Tracks rs L r) {sliceNo : ℕ} {slots : List ℕ}
    (hm : m ∈ x.task.slicer.resend sliceNo slots) : Preceded rs L x.history m := by
  obtain ⟨p, hs, -⟩ := h.task.slicer
  obtain ⟨slot, width, payload, -, -, rfl⟩ := Slicer.mem_resend hm
  constructor
  · rw [hs.window.widths, hs.floor]
    exact Nat.lt_succ_self _
  · intro k hk message hmem
    rw [hs.floor] at hk
    exact h.mem_history (Window.mem_begun_of_lt hk hmem)

/-- What is sent again has been put out. -/
theorem Tracks.place_mem_resend (h : x.Tracks rs L r) {sliceNo : ℕ} {slots : List ℕ}
    (hm : m ∈ x.task.slicer.resend sliceNo slots) :
    m.place ∈ x.history.map Outbound.place := by
  obtain ⟨p, hs, -⟩ := h.task.slicer
  obtain ⟨slot, width, payload, -, hpayload, rfl⟩ := Slicer.mem_resend hm
  obtain ⟨m', hm', hplace⟩ := List.mem_map.mp (hs.window.place_mem_begun hs.roomy hpayload)
  exact List.mem_map.mpr ⟨m', h.mem_history hm', hplace⟩

/-- Feedback puts out nothing that was not sent before. -/
theorem Tracks.recv (h : x.Tracks rs L r) (hselect : x.task.AtSelect) (message : Feedback) :
    Tracks rs L r ⟨x.task.recv message, x.sent⟩ := by
  obtain ⟨hended, htodo⟩ := hselect
  have htask := (h.task.recv htodo message).1
  have hrunning : ∀ p, x.task.ended ≠ some (.panicked p) := fun p heq => by simp [heq] at hended
  have hsent : x.history = x.sent := by rw [history, htodo, List.append_nil]
  cases message with
  | needed v =>
    exact h.of_history_eq htask rfl rfl rfl fun p heq => absurd heq (hrunning p)
  | cover parity =>
    exact h.of_history_eq htask rfl rfl rfl fun p heq => absurd heq (hrunning p)
  | done => exact h.of_history_eq htask rfl rfl rfl fun p heq => absurd heq (hrunning p)
  | resend sliceNo blocks =>
    have hhistory : history ⟨x.task.recv (.resend sliceNo blocks), x.sent⟩ =
        x.history ++ x.task.slicer.resend sliceNo blocks := by
      rw [hsent]
      rfl
    have hshards : (x.task.slicer.resend sliceNo blocks).filter Outbound.isEof = [] := by
      apply List.filter_eq_nil_iff.mpr
      intro m hm
      obtain ⟨slot, width, payload, -, -, rfl⟩ := Slicer.mem_resend hm
      simp [Outbound.isEof]
    have hfilter : (history ⟨x.task.recv (.resend sliceNo blocks), x.sent⟩).filter
        Outbound.isEof = x.history.filter Outbound.isEof := by
      rw [hhistory, List.filter_append, hshards, List.append_nil]
    refine ⟨htask, ?_, ?_, fun hd _ => ?_, ?_⟩
    · rw [hfilter, hhistory, History.firsts_append_of_mem, h.firsts]
      · rfl
      · exact fun m hm => h.place_mem_resend hm
    · rw [hfilter]
      exact h.eof
    · rw [hfilter]
      exact h.drained hd hrunning
    · rw [hhistory]
      apply h.preceded.append
      intro before m after heq
      have hm : m ∈ x.task.slicer.resend sliceNo blocks := by
        rw [heq]
        exact List.mem_append_right _ List.mem_cons_self
      exact (h.preceded_resend hm).subset (List.subset_append_left ..)

theorem Tracks.send (h : x.Tracks rs L r) {message : Outbound} {rest : List Outbound}
    (htodo : x.task.todo = message :: rest) :
    Tracks rs L r ⟨{ x.task with todo := rest }, x.sent ++ [message]⟩ := by
  have htask : SlicerTask.Tracks rs L r { x.task with todo := rest } :=
    ⟨h.task.slicer, fun m hm => h.task.todo m (htodo ▸ List.mem_cons_of_mem message hm)⟩
  refine h.of_history_eq htask ?_ rfl rfl fun p heq => heq
  rw [history, history, htodo, List.append_assoc]
  rfl

/-- In every state the task has got to, whatever it was fed. -/
theorem tracks_of_reachable {g : Geometry} {s : Slicer} (hs : Slicer.new g = .ok s)
    (hx : Labelled.Reachable (emissions rs g r s) x) : ∃ L : Ledger, L.geometry = g ∧
      L.blocks = (r.blocks g).map (Slicer.padded g) ∧ x.Tracks rs L r := by
  refine Labelled.Reach.invariant (I := fun x => ∃ L : Ledger, L.geometry = g ∧
    L.blocks = (r.blocks g).map (Slicer.padded g) ∧ x.Tracks rs L r) ?_ ?_ hx
  · rintro x rfl
    obtain ⟨L, rfl, -, htracks, -⟩ := Slicer.new_tracks rs r hs
    have htask : SlicerTask.Tracks rs L r ⟨s, r.items L.geometry, false, [], none⟩ := by
      refine ⟨⟨0, htracks, fun _ => ?_⟩, by simp⟩
      simpa using Reader.items_eq_blocks L.geometry r
    have hzero : s.window.current.sliceNo = 0 := by
      obtain ⟨w, -, heq⟩ := bind_ok_iff.mp hs
      rw [← htracks.floor, ← Except.ok.inj heq]
    have hlen := htracks.window.length_data
    refine ⟨L, rfl, htracks.blocks, htask, ?_, .inl rfl, by simp, History.each_nil⟩
    rw [Window.begun, hzero, hlen, Nat.zero_sub]
    rfl
  · rintro a x x' - ⟨L, rfl, hblocks, h⟩ hn
    cases a with
    | read =>
      obtain ⟨task, hread, rfl⟩ := Option.map_eq_some_iff.mp hn
      obtain ⟨L', hgrows, h'⟩ := h.read hread
      exact ⟨L', hgrows.geometry, hgrows.blocks.trans hblocks, h'⟩
    | recv message =>
      simp only [emissions, next] at hn
      split_ifs at hn with hselect
      exact ⟨L, rfl, hblocks, Option.some.inj hn ▸ h.recv hselect message⟩
    | send =>
      simp only [emissions, next] at hn
      split at hn
      · cases hn
      · next message rest htodo =>
        split_ifs at hn
        exact ⟨L, rfl, hblocks, Option.some.inj hn ▸ h.send htodo⟩

/-- What has been put out so far is the beginning of the stream, and all of it once the end of the
input is out. -/
theorem Tracks.firsts_prefix (h : x.Tracks rs L r) :
    History.firsts Outbound.place x.history <+: L.stream rs r.bytes.length ∧
      (x.history.filter Outbound.isEof ≠ [] →
        History.firsts Outbound.place x.history = L.stream rs r.bytes.length) := by
  obtain ⟨p, hs, -⟩ := h.task.slicer
  rw [h.firsts]
  rcases h.eof with heof | ⟨heof, -, hfault, hcur, hnil⟩
  · refine ⟨?_, fun hne => absurd heof hne⟩
    rw [heof, List.append_nil]
    refine List.IsPrefix.trans ?_ (List.prefix_append _ _)
    rcases hs.window.sliceNo_le.lt_or_eq with hlt | heq
    · apply (Window.begun_isPrefix rs L _).trans
      have hrange : List.range (x.task.slicer.window.current.sliceNo + 1) <+:
          List.range L.slices := by
        have hmin : min (x.task.slicer.window.current.sliceNo + 1) L.slices =
            x.task.slicer.window.current.sliceNo + 1 := Nat.min_eq_left hlt
        rw [← hmin, ← List.take_range]
        exact List.take_prefix _ _
      obtain ⟨rest, hrest⟩ := hrange
      rw [← hrest, List.flatMap_append]
      exact List.prefix_append _ _
    · have hnone : L.dataMessages L.slices = [] := by
        apply List.length_eq_zero_iff.mp
        rw [L.length_dataMessages, ← Nat.le_zero, ← Nat.not_lt, Ledger.length_slice_pos_iff]
        exact Nat.lt_irrefl _
      rw [Window.begun, heq, hnone, List.take_nil, List.append_nil]
  · have hblocks : L.blocks.length = Chunks.divCeil r.bytes.length L.geometry.blockSize := by
      rw [hs.blocks, List.length_map, Reader.length_blocks hfault]
    have hall : x.task.slicer.window.begun rs L ++ x.history.filter Outbound.isEof =
        L.stream rs r.bytes.length := by
      rw [heof, Window.begun, hcur, hnil, List.length_nil, List.take_zero, List.append_nil,
        hblocks]
      rfl
    exact ⟨hall ▸ List.prefix_rfl, fun _ => hall⟩

/-- The messages sent, as far as they go: in order, the end once and last, and every floor told
after the slices below it. -/
structure Streams (rs : ReedSolomon) (L : Ledger) (r : Reader) (x : Emission) : Prop where
  ordered : History.firsts Outbound.place x.sent <+: L.stream rs r.bytes.length
  data : ∃ n ≤ L.blocks.length,
    (History.firsts Outbound.place x.sent).filterMap (Outbound.data? L.geometry) =
      (List.range n).map fun i =>
        (i / L.geometry.blocksPerSlice, i % L.geometry.blocksPerSlice,
          Slicer.padded L.geometry (Chunks.chunk L.geometry.blockSize r.bytes i))
  whole : x.task.drained → x.task.todo = [] → (∀ p, x.task.ended ≠ some (.panicked p)) →
    History.firsts Outbound.place x.sent = L.stream rs r.bytes.length
  once : (x.sent.filter Outbound.isEof).length ≤ 1
  last : History.Each (fun before message => message.isEof →
    History.firsts Outbound.place before ++ [message] = L.stream rs r.bytes.length) x.sent
  floor : History.Each (Preceded rs L) x.sent

/-- What comes before the end of the input is all the rest of the stream. -/
theorem Tracks.whole_before (h : x.Tracks rs L r) {after : List Outbound}
    (heq : x.history = before ++ m :: after) (hend : m.isEof) :
    History.firsts Outbound.place before ++ [m] = L.stream rs r.bytes.length := by
  have hnone : m.place = none := by
    cases m with
    | shard => cases hend
    | eof => rfl
  have honce : (x.history.filter Outbound.isEof).length ≤ 1 := by
    rcases h.eof with heof | ⟨heof, -⟩ <;> simp [heof]
  have hbefore : m.place ∉ before.map Outbound.place := by
    intro hmem
    obtain ⟨m', hm', hplace⟩ := List.mem_map.mp hmem
    have htrue : m'.isEof := by
      cases m' with
      | shard => rw [hnone] at hplace; cases hplace
      | eof => rfl
    rw [heq, List.filter_append, List.filter_cons_of_pos hend, List.length_append,
      List.length_cons] at honce
    have hpos : 0 < (before.filter Outbound.isEof).length :=
      List.length_pos_of_mem (List.mem_filter.mpr ⟨hm', htrue⟩)
    omega
  have hnew : History.firsts Outbound.place (before ++ [m]) =
      History.firsts Outbound.place before ++ [m] := by
    have hnodup : ([m].map Outbound.place).Nodup := List.nodup_singleton _
    rw [History.firsts_append, History.fresh_eq_self hnodup]
    intro m' hm'
    rwa [List.mem_singleton.mp hm']
  have hfirsts : History.firsts Outbound.place before ++ [m] <+: L.stream rs r.bytes.length := by
    rw [← hnew]
    refine (History.firsts_prefix ?_).trans h.firsts_prefix.1
    rw [heq]
    exact ⟨after, by simp⟩
  rcases List.prefix_concat_iff.mp hfirsts with hall | hbody
  · exact hall
  · have hmem := hbody.subset (List.mem_append_right _ List.mem_cons_self)
    rw [L.isEof_of_mem_slices hmem] at hend
    cases hend

theorem Tracks.streams (h : x.Tracks rs L r) : x.Streams rs L r := by
  obtain ⟨p, hs, -⟩ := h.task.slicer
  obtain ⟨hpre, hwhole⟩ := h.firsts_prefix
  have hsent : x.sent <+: x.history := List.prefix_append _ _
  have hordered : History.firsts Outbound.place x.sent <+: L.stream rs r.bytes.length :=
    (History.firsts_prefix hsent).trans hpre
  refine ⟨hordered, ?_, fun hdrained htodo hended => ?_, ?_, ?_, h.preceded.of_isPrefix hsent⟩
  · have hdata := hordered.filterMap (Outbound.data? L.geometry)
    rw [Ledger.filterMap_data_stream rs _ hs.blocks] at hdata
    have hlen := hdata.length_le
    rw [List.length_map, List.length_range] at hlen
    refine ⟨_, hlen, (List.prefix_iff_eq_take.mp hdata).trans ?_⟩
    rw [← List.map_take, List.take_range, Nat.min_eq_left hlen]
  · have hall := hwhole (h.drained hdrained hended)
    rwa [history, htodo, List.append_nil] at hall
  · refine (hsent.sublist.filter _).length_le.trans ?_
    rcases h.eof with heof | ⟨heof, -⟩ <;> simp [heof]
  · intro before message after heq hend
    have hhistory : x.history = before ++ message :: (after ++ x.task.todo) := by
      rw [history, heq, List.append_assoc, List.cons_append]
    exact h.whole_before hhistory hend

/-- Whatever the reader makes of its input and the slicer is told meanwhile, what it puts out for
the first time is the stream of the input, in order, and no floor is told too early. -/
theorem stream_is_determined {g : Geometry} {s : Slicer} (hs : Slicer.new g = .ok s)
    (hx : Labelled.Reachable (emissions rs g r s) x) : ∃ L : Ledger, L.geometry = g ∧
      L.blocks = (r.blocks g).map (Slicer.padded g) ∧ x.Streams rs L r := by
  obtain ⟨L, hgeometry, hblocks, h⟩ := tracks_of_reachable hs hx
  exact ⟨L, hgeometry, hblocks, h.streams⟩

end Invariant

/-- Three bytes in blocks of two, the first of them asked for once more on the way. -/
theorem stream_is_determined_resent : ∃ s, ∃ x : Emission, Slicer.new (Config.tiny 2).geometry = .ok s ∧
    x.sent = [.shard 0 0 0 0 [1, 2], .shard 0 0 0 1 [1, 2], .shard 1 0 0 1 [3, 0], .eof 3 2] ∧
    ∃ L : Ledger, L.geometry = (Config.tiny 2).geometry ∧
      L.blocks = ((Reader.single [1, 2, 3]).blocks (Config.tiny 2).geometry).map
        (Slicer.padded (Config.tiny 2).geometry) ∧
      x.Streams .interpolated L (Reader.single [1, 2, 3]) := by
  have hitems : (Reader.single [1, 2, 3]).items (Config.tiny 2).geometry =
      [.ok [1, 2], .ok [3]] := by
    rw [Reader.items_eq]
    rfl
  obtain ⟨s, hs⟩ : ∃ s, Slicer.new (Config.tiny 2).geometry = .ok s := ⟨_, rfl⟩
  obtain ⟨x, hexec, hsent⟩ : ∃ x : Emission, Labelled.exec
      (emissions .interpolated (Config.tiny 2).geometry (Reader.single [1, 2, 3]) s)
      [.read, .send, .recv (.resend 0 [0]), .send, .read, .send, .recv (.needed 1), .read, .send]
      ⟨⟨s, (Reader.single [1, 2, 3]).items (Config.tiny 2).geometry, false, [], none⟩, []⟩ =
        some x ∧
      x.sent = [.shard 0 0 0 0 [1, 2], .shard 0 0 0 1 [1, 2], .shard 1 0 0 1 [3, 0], .eof 3 2] := by
    rw [hitems]
    cases hs
    exact ⟨_, rfl, rfl⟩
  exact ⟨s, x, hs, hsent, stream_is_determined hs (.exec (.start rfl) hexec)⟩

/-- In a transfer the slicer puts out what it can put out on its own. -/
theorem reachable_of_world {rs : ReedSolomon} {config : Config} {reader : Reader} {w : World}
    (hw : Labelled.Reachable (World.system rs config reader) w) :
    ∃ s, Slicer.new config.geometry = .ok s ∧
      Labelled.Reachable (emissions rs config.geometry reader s) ⟨w.task, w.emitted⟩ := by
  refine Labelled.Reach.invariant (I := fun w => ∃ s, Slicer.new config.geometry = .ok s ∧
    Labelled.Reachable (emissions rs config.geometry reader s) ⟨w.task, w.emitted⟩) ?_ ?_ hw
  · rintro w ⟨gathered, now, hstart⟩
    obtain ⟨-, s, assembler, hs, -, rfl⟩ := World.start_eq_ok hstart
    exact ⟨s, hs, .start rfl⟩
  · rintro a w w' - ⟨s, hs, h⟩ hn
    refine ⟨s, hs, ?_⟩
    cases World.step_of_next hn with
    | read hread => exact h.step (a := .read) trivial (by simp [emissions, next, hread])
    | @feedback _ message _ hselect =>
      exact h.step (a := .recv message) trivial (if_pos hselect)
    | queue hrun htodo =>
      apply h.step (a := .send) trivial
      simp only [emissions, next, htodo]
      exact if_pos hrun
    | _ => exact h

end Emission
end Scuttlecast
