import Scuttlecast.Sender.Slicer
import Scuttlecast.Ledger
import Mathlib.Data.List.TakeWhile

/-! The sender's window against the ledger: what it holds of each slice is the ledger's, every
message the slicer puts out carries a shard of the ledger, and sealing a slice opens the next. -/
namespace Scuttlecast

namespace Window

variable {rs : ReedSolomon} {L : Ledger} {w w' : Window} {p : ℕ}

/-- A transfer with parity has an encoder at hand, empty and of the width it was last used for. -/
def CodecOk (w : Window) : Prop :=
  w.geometry.parityPerSlice = 0 ∨
    w.codec = some (.fresh w.geometry.blocksPerSlice w.codecWidth w.geometry.blockSize)

/-- A sealed slice as the ledger has it. -/
def sealedSlice (rs : ReedSolomon) (L : Ledger) (k : ℕ) : Slice :=
  ⟨k, L.widths.getD k 0, L.slice k, L.parity rs k⟩

/-- Number of the first slice the window still has. -/
def base (w : Window) : ℕ := w.current.sliceNo - w.live.length

/-- The window after `p` blocks of the ledger: the live slices are the last ones sealed, and the
current slice has the blocks pushed since. -/
structure Tracks (rs : ReedSolomon) (L : Ledger) (p : ℕ) (w : Window) : Prop where
  geometry : w.geometry = L.geometry
  codec : w.CodecOk
  wanted : w.wantedParity ≤ L.geometry.parityPerSlice
  pushed_le : p ≤ L.blocks.length
  widths : L.widths.length = w.current.sliceNo + 1
  width : L.widths[w.current.sliceNo]? = some w.current.parityWidth
  live_le : w.live.length ≤ w.current.sliceNo
  live : w.live = (List.range' w.base w.live.length).map (sealedSlice rs L)
  data : w.current.data = (L.blocks.take p).drop (w.current.sliceNo * L.geometry.blocksPerSlice)
  parity : w.current.parity = []
  opened : p ≤ (w.current.sliceNo + 1) * L.geometry.blocksPerSlice
  closed : w.current.sliceNo * L.geometry.blocksPerSlice ≤ p ∨
    p = L.blocks.length ∧ w.current.sliceNo = L.slices

/-- No more live slices than allowed, counting the current one once it has a block. -/
structure Roomy (w : Window) : Prop where
  live : w.live.length ≤ w.geometry.maxLiveSlices
  data : w.current.data ≠ [] → w.live.length < w.geometry.maxLiveSlices

theorem Tracks.length_data (h : w.Tracks rs L p) :
    w.current.data.length = p - w.current.sliceNo * L.geometry.blocksPerSlice := by
  rw [h.data, List.length_drop, List.length_take, Nat.min_eq_left h.pushed_le]

theorem Tracks.width_le (h : w.Tracks rs L p) :
    w.current.parityWidth ≤ L.geometry.parityPerSlice :=
  L.width_le _ (List.mem_of_getElem? h.width)

/-- Every slice up to the current one has a width, which survives the cast to `u8`. -/
theorem Tracks.getElem?_widths (h : w.Tracks rs L p) {k : ℕ} (hk : k ≤ w.current.sliceNo) :
    L.widths[k]? = some (L.widths.getD k 0) ∧ L.widths.getD k 0 % 2 ^ 8 = L.widths.getD k 0 := by
  have hlt : k < L.widths.length := by
    rw [h.widths]
    omega
  have hget : L.widths[k]? = some L.widths[k] := List.getElem?_eq_getElem _
  have hgetD : L.widths.getD k 0 = L.widths[k] := by
    simp [List.getD_eq_getElem?_getD, hget]
  have hle := L.width_le _ (List.mem_of_getElem? hget)
  have hlt := L.geometry.parityPerSlice_lt
  rw [hgetD]
  exact ⟨hget, Nat.mod_eq_of_lt (by omega)⟩

section Encode

/-- As many shards as the encoder has places for are all taken. -/
theorem foldlM_addOriginalShard (message : String) {e : Encoder} {f : ℕ → Bytes} {n : ℕ}
    (hempty : e.originals = []) (hn : n ≤ e.originalCount)
    (hsize : ∀ i < n, (f i).length = e.shardBytes) :
    (List.range n).foldlM (fun codec slot =>
        expectOk message (codec.addOriginalShard (f slot))) e =
      .ok { e with originals := (List.range n).map f } := by
  induction n with
  | zero => simp [← hempty, pure, Except.pure]
  | succ n ih =>
    rw [List.range_succ, List.foldlM_append, ih (by omega) fun i hi => hsize i (by omega), ok_bind]
    have hne : ¬ n = e.originalCount := by omega
    have hsz := hsize n (by omega)
    simp [Encoder.addOriginalShard, hne, hsz, List.map_append]

theorem codecFor_eq (hc : w.CodecOk) {width : ℕ} (ha : w.geometry.Accepted) (hpos : 0 < width)
    (hle : width ≤ w.geometry.parityPerSlice) :
    w.codecFor width = .ok (.fresh w.geometry.blocksPerSlice width w.geometry.blockSize) := by
  have hcodec := hc.resolve_left (by omega)
  unfold codecFor
  rw [hcodec, expectSome_some, ok_bind]
  split_ifs with hne
  · rw [Encoder.reset, Encoder.new_eq_ok (ha.supported hpos hle), expectOk_ok]
  · rw [not_not.mp hne]

/-- Blocks of the right size, zeros standing for those the slice has not, are encoded at the
width of the slice. -/
theorem encodeParity_eq (hc : w.CodecOk) (ha : w.geometry.Accepted)
    (hle : w.current.parityWidth ≤ w.geometry.parityPerSlice)
    (hsize : w.current.parityWidth ≠ 0 → ∀ slot < w.geometry.blocksPerSlice,
      (w.current.data.getD slot (List.replicate w.geometry.blockSize 0)).length =
        w.geometry.blockSize) :
    ∃ w', w.encodeParity rs = .ok (if w.current.parityWidth = 0 then [] else
        rs.recovery w.geometry.blocksPerSlice w.current.parityWidth
          ((List.range w.geometry.blocksPerSlice).map fun slot =>
            w.current.data.getD slot (List.replicate w.geometry.blockSize 0)), w') ∧
      w'.CodecOk ∧ ∃ codec width, w' = { w with codec := codec, codecWidth := width } := by
  unfold Window.encodeParity
  by_cases hzero : w.current.parityWidth = 0
  · rw [if_pos hzero]
    exact ⟨w, by rw [if_pos hzero], hc, w.codec, w.codecWidth, rfl⟩
  have hpos : 0 < w.current.parityWidth := Nat.pos_of_ne_zero hzero
  have hloop := foldlM_addOriginalShard "a slice never holds more blocks than it was sized for"
    (e := .fresh w.geometry.blocksPerSlice w.current.parityWidth w.geometry.blockSize)
    (f := fun slot => w.current.data.getD slot (List.replicate w.geometry.blockSize 0))
    (n := w.geometry.blocksPerSlice) rfl le_rfl (hsize hzero)
  rw [if_neg hzero, codecFor_eq hc ha hpos hle]
  refine ⟨{ w with
    codec := some (.fresh w.geometry.blocksPerSlice w.current.parityWidth w.geometry.blockSize)
    codecWidth := w.current.parityWidth }, ?_, .inr rfl, _, _, rfl⟩
  simp only [ok_bind, hloop]
  rw [Encoder.encode, if_pos (by simp [Encoder.fresh]), if_neg hzero]
  rfl

/-- Closing the current slice encodes the ledger's parity for it. -/
theorem Tracks.encodeParity (h : w.Tracks rs L p)
    (hdata : w.current.data = L.slice w.current.sliceNo) :
    ∃ w', w.encodeParity rs = .ok (L.parity rs w.current.sliceNo, w') ∧
      w'.CodecOk ∧ ∃ codec width, w' = { w with codec := codec, codecWidth := width } := by
  have hmap : (List.range w.geometry.blocksPerSlice).map (fun slot =>
      w.current.data.getD slot (List.replicate w.geometry.blockSize 0)) =
        L.originals w.current.sliceNo := by
    apply List.ext_getElem?
    intro i
    rw [List.getElem?_map, Ledger.getElem?_originals, hdata, h.geometry]
    by_cases hi : i < L.geometry.blocksPerSlice
    · rw [List.getElem?_range hi]
      split_ifs with hlt
      · simp [List.getD_eq_getElem?_getD, List.getElem?_eq_getElem hlt]
      · simp [List.getD_eq_getElem?_getD, List.getElem?_eq_none (Nat.le_of_not_lt hlt)]
    · have := L.length_slice_le w.current.sliceNo
      rw [if_neg (by omega), if_neg hi, List.getElem?_eq_none (by simpa using hi)]
      rfl
  have hsize : ∀ slot < w.geometry.blocksPerSlice,
      (w.current.data.getD slot (List.replicate w.geometry.blockSize 0)).length =
        w.geometry.blockSize := by
    intro slot hslot
    rw [h.geometry]
    apply Ledger.size_originals (k := w.current.sliceNo)
    rw [← hmap, ← h.geometry]
    exact List.mem_map_of_mem (List.mem_range.mpr hslot)
  have hparity : L.parity rs w.current.sliceNo = if w.current.parityWidth = 0 then [] else
      rs.recovery w.geometry.blocksPerSlice w.current.parityWidth
        (L.originals w.current.sliceNo) := by
    simp only [Ledger.parity, h.width, h.geometry]
  rw [hparity, ← hmap]
  exact encodeParity_eq h.codec (h.geometry ▸ L.accepted) (h.geometry ▸ h.width_le) fun _ => hsize

end Encode

section Steps

theorem Tracks.base_add (h : w.Tracks rs L p) : w.base + w.live.length = w.current.sliceNo := by
  have := h.live_le
  unfold base
  omega

theorem sealedSlice_opened {k width wanted : ℕ} (h : L.widths[k]? = some width)
    (hw : wanted ≤ L.geometry.parityPerSlice) :
    sealedSlice rs (L.opened wanted hw) k = sealedSlice rs L k := by
  simp [sealedSlice, List.getD_eq_getElem?_getD, h, Ledger.widths_opened h,
    Ledger.parity_opened h]

/-- The live slices with the current one, now whole and with its parity, behind them. -/
theorem Tracks.live_snoc (h : w.Tracks rs L p)
    (hdata : w.current.data = L.slice w.current.sliceNo) :
    w.live ++ [{ w.current with parity := L.parity rs w.current.sliceNo }] =
      (List.range' w.base (w.live.length + 1)).map
        (sealedSlice rs (L.opened w.wantedParity h.wanted)) := by
  have hbase := h.base_add
  have hlast : w.base + 1 * w.live.length = w.current.sliceNo := by omega
  rw [List.range'_concat, List.map_append, List.map_singleton, hlast,
    sealedSlice_opened h.width h.wanted]
  congr 1
  · conv_lhs => rw [h.live]
    apply List.map_congr_left
    intro k hk
    have hk := List.mem_range'_1.mp hk
    have hget := (h.getElem?_widths (k := k) (by omega)).1
    exact (sealedSlice_opened hget h.wanted).symm
  · simp [sealedSlice, List.getD_eq_getElem?_getD, h.width, ← hdata]

/-- Behind a whole slice the next one is to come, or the input is over. -/
theorem Tracks.ended_of_whole (h : w.Tracks rs L p) (hne : w.current.data ≠ [])
    (hdata : w.current.data = L.slice w.current.sliceNo) :
    (w.current.sliceNo + 1) * L.geometry.blocksPerSlice ≤ p ∨
      p = L.blocks.length ∧ w.current.sliceNo + 1 = L.slices := by
  have hle := h.pushed_le
  have hlen := h.length_data
  have hlen' := congrArg List.length hdata
  rw [hlen, Ledger.length_slice] at hlen'
  have hpos := List.length_pos_iff.mpr hne
  by_cases hfull : (w.current.sliceNo + 1) * L.geometry.blocksPerSlice ≤ p
  · exact .inl hfull
  · rw [Nat.succ_mul] at hfull
    have hp : p = L.blocks.length := by omega
    refine .inr ⟨hp, ?_⟩
    have hlast : w.current.sliceNo < L.slices := Ledger.lt_slices_iff.mpr (by omega)
    have hover : ¬ w.current.sliceNo + 1 < L.slices := by
      rw [Ledger.lt_slices_iff, Nat.succ_mul]
      omega
    omega

theorem sealSlice_of_nil (h : w.current.data = []) : w.sealSlice rs = .ok (none, w) := if_pos h

/-- Sealing encodes the current slice, if there is a block in it, puts it behind the live ones and
opens the next. -/
theorem sealSlice_eq_ok (hne : w.current.data ≠ []) {r : Option Sealed} :
    w.sealSlice rs = .ok (r, w') ↔ ∃ parity w₁, w.encodeParity rs = .ok (parity, w₁) ∧
      w₁.current.sliceNo + 1 < 2 ^ 32 ∧ r = some ⟨w₁.current.sliceNo, parity⟩ ∧
      w' = { w₁ with
        live := w₁.live ++ [{ w₁.current with parity := parity }]
        current := .empty (w₁.current.sliceNo + 1) w₁.wantedParity } := by
  unfold Window.sealSlice
  rw [if_neg hne]
  constructor
  · intro h
    obtain ⟨⟨parity, w₁⟩, hencode, h⟩ := bind_ok_iff.mp h
    obtain ⟨_, hnext, h⟩ := bind_ok_iff.mp h
    obtain ⟨hlt, rfl⟩ := addChecked_eq_ok.mp hnext
    obtain ⟨rfl, rfl⟩ := Prod.mk.inj (Except.ok.inj h)
    exact ⟨parity, w₁, hencode, hlt, rfl, rfl⟩
  · rintro ⟨parity, w₁, hencode, hlt, rfl, rfl⟩
    rw [hencode, ok_bind]
    dsimp only
    rw [addChecked_of_lt hlt, ok_bind]

/-- Sealing puts the current slice, now whole, behind the live ones and opens the next. -/
theorem Tracks.sealSlice (h : w.Tracks rs L p) (hne : w.current.data ≠ [])
    (hdata : w.current.data = L.slice w.current.sliceNo) {r : Option Sealed}
    (hs : w.sealSlice rs = .ok (r, w')) :
    r = some ⟨w.current.sliceNo, L.parity rs w.current.sliceNo⟩ ∧
      w'.current.sliceNo = w.current.sliceNo + 1 ∧ w'.base = w.base ∧
      w'.current.sliceNo < 2 ^ 32 ∧ w'.current.data = [] ∧
      w'.Tracks rs (L.opened w.wantedParity h.wanted) p := by
  have hpos := L.geometry.blocksPerSlice_pos
  obtain ⟨w₁, hparity, hcodec, codec, width, rfl⟩ := h.encodeParity hdata
  obtain ⟨parity, w₁, hencode, hlt, rfl, rfl⟩ := (sealSlice_eq_ok hne).mp hs
  obtain ⟨rfl, rfl⟩ := Prod.mk.inj (Except.ok.inj (hparity.symm.trans hencode))
  have hlive_le := h.live_le
  have hbase : Window.base { w with
      codec := codec, codecWidth := width
      live := w.live ++ [{ w.current with parity := L.parity rs w.current.sliceNo }]
      current := .empty (w.current.sliceNo + 1) w.wantedParity } = w.base := by
    simp only [Window.base, Slice.empty, List.length_append, List.length_singleton]
    omega
  refine ⟨rfl, rfl, hbase, hlt, rfl, ?_⟩
  refine ⟨h.geometry, hcodec, h.wanted, h.pushed_le, ?_, ?_, ?_, ?_, ?_, rfl, ?_, ?_⟩
  · rw [Ledger.length_widths_opened, h.widths]
    rfl
  · simp [Slice.empty, Ledger.opened, h.widths]
  · simpa [Slice.empty] using hlive_le
  · rw [hbase, List.length_append, List.length_singleton]
    exact h.live_snoc hdata
  · simp only [Slice.empty, Ledger.blocks_opened, Ledger.geometry_opened]
    rw [eq_comm, List.drop_eq_nil_iff, List.length_take, Nat.min_eq_left h.pushed_le]
    exact h.opened
  · simp only [Slice.empty, Ledger.geometry_opened]
    have := h.opened
    rw [Nat.succ_mul]
    omega
  · exact h.ended_of_whole hne hdata

/-- A current slice that is full, or holds the end of the input, is the ledger's slice. -/
theorem Tracks.data_eq_slice (h : w.Tracks rs L p)
    (hp : (w.current.sliceNo + 1) * L.geometry.blocksPerSlice ≤ p ∨ p = L.blocks.length) :
    w.current.data = L.slice w.current.sliceNo := by
  have hopened := h.opened
  rw [h.data, Ledger.slice, Chunks.chunk, List.drop_take]
  rcases hp with hp | rfl
  · congr 1
    rw [Nat.succ_mul] at hp hopened
    omega
  · rw [Nat.succ_mul] at hopened
    rw [List.take_of_length_le (by simp), List.take_of_length_le (by simp; omega)]

/-- With every block pushed, an empty current slice is the one past the last. -/
theorem Tracks.sliceNo_eq (h : w.Tracks rs L L.blocks.length) (hnil : w.current.data = []) :
    w.current.sliceNo = L.slices := by
  have hlen := h.length_data
  rw [hnil, List.length_nil] at hlen
  rcases h.closed with hle | ⟨_, heq⟩
  · have heq : L.blocks.length = w.current.sliceNo * L.geometry.blocksPerSlice := by omega
    rw [Ledger.slices, heq, Chunks.divCeil_mul L.geometry.blocksPerSlice_pos]
  · exact heq

/-- The next block in the current slice, before the slice is looked at. -/
theorem Tracks.put (h : w.Tracks rs L p) {payload : Bytes} (hp : L.blocks[p]? = some payload)
    (hshort : w.current.data.length < L.geometry.blocksPerSlice) :
    w.current.sliceNo * L.geometry.blocksPerSlice ≤ p ∧
      Tracks rs L (p + 1)
        { w with current := { w.current with data := w.current.data ++ [payload] } } := by
  have hlt := (List.getElem?_eq_some_iff.mp hp).1
  have hclosed : w.current.sliceNo * L.geometry.blocksPerSlice ≤ p := by
    rcases h.closed with hle | ⟨heq, _⟩
    · exact hle
    · omega
  have hlen := h.length_data
  refine ⟨hclosed, h.geometry, h.codec, h.wanted, hlt, h.widths, h.width, h.live_le, h.live, ?_,
    h.parity, ?_, .inl (Nat.le_succ_of_le hclosed)⟩
  · simp only
    rw [List.take_add_one, hp, Option.toList_some, List.drop_append_of_le_length, ← h.data]
    rw [List.length_take]
    omega
  · simp only
    rw [Nat.succ_mul]
    omega

/-- A slice that the next block fills is the ledger's. -/
theorem Tracks.put_eq_slice (h : w.Tracks rs L p) {payload : Bytes}
    (hp : L.blocks[p]? = some payload)
    (hfull : (w.current.data ++ [payload]).length = L.geometry.blocksPerSlice) :
    w.current.data ++ [payload] = L.slice w.current.sliceNo := by
  rw [List.length_append, List.length_singleton] at hfull
  have hlen := h.length_data
  obtain ⟨hle, hput⟩ := h.put hp (by omega)
  refine hput.data_eq_slice (.inl ?_)
  simp only
  rw [Nat.succ_mul]
  omega

/-- The next block goes into the current slice; a full slice is sealed at once. -/
theorem Tracks.push (h : w.Tracks rs L p) {payload : Bytes} (hp : L.blocks[p]? = some payload)
    (hshort : w.current.data.length < L.geometry.blocksPerSlice) {r : Pushed}
    (hok : w.push rs payload = .ok (r, w')) :
    r.sliceNo = w.current.sliceNo ∧ r.blockInSlice = w.current.data.length ∧ w'.base = w.base ∧
      (r.sealedSlice = none ∧ w'.current.sliceNo = w.current.sliceNo ∧
          w'.current.data.length < L.geometry.blocksPerSlice ∧ w'.Tracks rs L (p + 1) ∨
        r.sealedSlice = some ⟨w.current.sliceNo, L.parity rs w.current.sliceNo⟩ ∧
          w'.current.sliceNo = w.current.sliceNo + 1 ∧ w'.current.sliceNo < 2 ^ 32 ∧
          (w.current.sliceNo + 1) * L.geometry.blocksPerSlice = p + 1 ∧
          w'.current.data = [] ∧ w'.Tracks rs (L.opened w.wantedParity h.wanted) (p + 1)) := by
  have hbps := L.geometry.blocksPerSlice_lt
  obtain ⟨hclosed, h₁⟩ := h.put hp hshort
  unfold Window.push at hok
  have hmod : w.current.data.length % 2 ^ 16 = w.current.data.length :=
    Nat.mod_eq_of_lt (by omega)
  simp only [hmod] at hok
  split at hok
  · next hfull =>
    rw [h.geometry] at hfull
    obtain ⟨⟨sealedSlice, w₂⟩, hs, hok⟩ := bind_ok_iff.mp hok
    simp only [Except.ok.injEq, Prod.mk.injEq] at hok
    obtain ⟨rfl, rfl⟩ := hok
    obtain ⟨rfl, hno, hbase, hlt', hnil, htracks⟩ :=
      h₁.sealSlice (by simp) (h.put_eq_slice hp hfull) hs
    have hend : (w.current.sliceNo + 1) * L.geometry.blocksPerSlice = p + 1 := by
      have hlen := h.length_data
      rw [List.length_append, List.length_singleton] at hfull
      rw [Nat.succ_mul]
      omega
    exact ⟨rfl, rfl, hbase, .inr ⟨rfl, hno, hlt', hend, hnil, htracks⟩⟩
  · next hopen =>
    rw [h.geometry] at hopen
    simp only [Except.ok.injEq, Prod.mk.injEq] at hok
    obtain ⟨rfl, rfl⟩ := hok
    refine ⟨rfl, rfl, rfl, .inl ⟨rfl, rfl, ?_, h₁⟩⟩
    simp only [List.length_append, List.length_singleton] at hopen ⊢
    omega

/-- Sealing dies only when the slices run out of numbers. -/
theorem Tracks.exists_sealSlice (h : w.Tracks rs L p)
    (hdata : w.current.data = L.slice w.current.sliceNo) (hlt : w.current.sliceNo + 1 < 2 ^ 32) :
    ∃ r w', w.sealSlice rs = .ok (r, w') := by
  obtain ⟨w₁, hparity, _, codec, width, rfl⟩ := h.encodeParity hdata
  by_cases hnil : w.current.data = []
  · exact ⟨_, _, sealSlice_of_nil hnil⟩
  · exact ⟨_, _, (sealSlice_eq_ok hnil).mpr ⟨_, _, hparity, hlt, rfl, rfl⟩⟩

theorem Tracks.exists_push (h : w.Tracks rs L p) {payload : Bytes}
    (hp : L.blocks[p]? = some payload)
    (hshort : w.current.data.length < L.geometry.blocksPerSlice)
    (hlt : w.current.sliceNo + 1 < 2 ^ 32) : ∃ r w', w.push rs payload = .ok (r, w') := by
  obtain ⟨-, htracks⟩ := h.put hp hshort
  unfold Window.push
  dsimp only
  split_ifs with hfull
  · rw [h.geometry] at hfull
    obtain ⟨r, w', hseal⟩ := htracks.exists_sealSlice (h.put_eq_slice hp hfull) hlt
    exact ⟨_, w', by rw [hseal]; rfl⟩
  · exact ⟨_, _, rfl⟩

theorem Tracks.cover (h : w.Tracks rs L p) (wanted : ℕ) : (w.cover wanted).Tracks rs L p :=
  ⟨h.geometry, h.codec, (Nat.min_le_right ..).trans_eq (congrArg _ h.geometry), h.pushed_le,
    h.widths, h.width, h.live_le, h.live, h.data, h.parity, h.opened, h.closed⟩

/-- Numbered in order, the slices below a bound are the first ones. -/
theorem dropWhile_range' (f : ℕ → Slice) (hf : ∀ k, (f k).sliceNo = k) (v n a : ℕ) :
    ((List.range' a n).map f).dropWhile (fun slice => slice.sliceNo < v) =
      (List.range' (a + min n (v - a)) (n - (v - a))).map f := by
  induction n generalizing a with
  | zero => simp
  | succ n ih =>
    rw [List.range'_succ, List.map_cons, List.dropWhile_cons, hf]
    by_cases hlt : a < v
    · rw [if_pos (by simpa using hlt), ih]
      congr 2 <;> omega
    · have hzero : v - a = 0 := by omega
      rw [if_neg (by simpa using hlt), hzero, ← List.map_cons, ← List.range'_succ]
      simp

/-- Slices below the bound go, up to the current one. -/
theorem Tracks.retainFrom (h : w.Tracks rs L p) (v : ℕ) :
    (w.retainFrom v).Tracks rs L p ∧
      (w.retainFrom v).base = max w.base (min v w.current.sliceNo) := by
  have hbase := h.base_add
  have hlive : (w.retainFrom v).live = (List.range' (w.base + min w.live.length (v - w.base))
      (w.live.length - (v - w.base))).map (sealedSlice rs L) := by
    rw [Window.retainFrom]
    simp only
    conv_lhs => rw [h.live]
    exact dropWhile_range' _ (fun _ => rfl) v _ _
  have hlen := congrArg List.length hlive
  rw [List.length_map, List.length_range'] at hlen
  have hcur : (w.retainFrom v).current = w.current := rfl
  have hbase' : (w.retainFrom v).base = w.base + min w.live.length (v - w.base) := by
    unfold Window.base at *
    rw [hlen, hcur]
    omega
  refine ⟨⟨h.geometry, h.codec, h.wanted, h.pushed_le, h.widths, h.width, ?_, ?_, h.data, h.parity,
    h.opened, h.closed⟩, ?_⟩
  · rw [hlen, hcur]
    omega
  · rw [hbase', hlen, ← hlive]
  · rw [hbase']
    omega

theorem Roomy.retainFrom (h : w.Roomy) (v : ℕ) : (w.retainFrom v).Roomy :=
  have hle : (w.retainFrom v).live.length ≤ w.live.length := List.length_dropWhile_le ..
  ⟨hle.trans h.live, fun hne => hle.trans_lt (h.data hne)⟩

/-- Below the bound there is room for one more block, and for the slice it may seal. -/
theorem Tracks.roomy {L' : Ledger} {p' : ℕ} (h : w.Tracks rs L p) (h' : w'.Tracks rs L' p')
    (hgeometry : L'.geometry = L.geometry) (hbase : w'.base = w.base)
    (hroom : w.live.length < L.geometry.maxLiveSlices)
    (hno : w'.current.sliceNo = w.current.sliceNo ∨
      w'.current.sliceNo = w.current.sliceNo + 1 ∧ w'.current.data = []) : w'.Roomy := by
  have hadd := h.base_add
  have hadd' := h'.base_add
  rcases hno with hno | ⟨hno, hnil⟩ <;> constructor
  · rw [h'.geometry, hgeometry]
    omega
  · rw [h'.geometry, hgeometry]
    omega
  · rw [h'.geometry, hgeometry]
    omega
  · exact fun hne => absurd hnil hne

theorem new_window {g : Geometry} {w : Window} (h : Window.new g = .ok w) :
    g.Accepted ∧ w.CodecOk ∧ w = { w with
      geometry := g, wantedParity := g.parityPerSlice, live := []
      current := .empty 0 g.parityPerSlice } := by
  unfold Window.new at h
  dsimp only at h
  split at h
  · next hzero =>
    rw [ok_bind, Except.ok.injEq] at h
    subst h
    exact ⟨.inl hzero, .inl hzero, rfl⟩
  · next n hn =>
    obtain ⟨codec, hcodec, h⟩ := bind_ok_iff.mp h
    rw [ok_bind, Except.ok.injEq] at h
    obtain ⟨hsup, rfl⟩ := Encoder.new_eq_ok_iff.mp hcodec
    subst h
    exact ⟨.inr (hn ▸ hsup), .inr (by rw [hn]), rfl⟩

/-- A transfer accepted by the codec gets a window. -/
theorem exists_new {g : Geometry} (h : g.Accepted) : ∃ w, Window.new g = .ok w := by
  unfold Window.new
  split
  · exact ⟨_, rfl⟩
  · next n hn =>
    have hsup := h.supported (w := n + 1) (by omega) (by omega)
    simp [Encoder.new_eq_ok hsup]

/-- A new window is at the start of any ledger of its shape. -/
theorem tracks_new {w : Window} (h : Window.new L.geometry = .ok w)
    (hwidths : L.widths = [L.geometry.parityPerSlice]) :
    w.Tracks rs L 0 ∧ w.Roomy ∧ w.live = [] ∧ w.current = .empty 0 L.geometry.parityPerSlice := by
  obtain ⟨-, hcodec, heq⟩ := new_window h
  have hlive : w.live = [] := by rw [heq]
  have hcurrent : w.current = .empty 0 L.geometry.parityPerSlice := by rw [heq]
  refine ⟨⟨by rw [heq], hcodec, by rw [heq], Nat.zero_le _, ?_, ?_, ?_, ?_, ?_, ?_, ?_, ?_⟩,
    ⟨by simp [hlive], by simp [hcurrent, Slice.empty]⟩, hlive, hcurrent⟩ <;>
    simp [hlive, hcurrent, hwidths, Slice.empty]

theorem find?_range' (f : ℕ → Slice) (hf : ∀ k, (f k).sliceNo = k) (k n a : ℕ) :
    ((List.range' a n).map f).find? (fun slice => slice.sliceNo = k) =
      if a ≤ k ∧ k < a + n then some (f k) else none := by
  induction n generalizing a with
  | zero => simp
  | succ n ih =>
    rw [List.range'_succ, List.map_cons, List.find?_cons, hf]
    by_cases hk : a = k
    · subst hk
      simp
    · simp only [hk, decide_false, ih]
      congr 1
      exact propext (by omega)

/-- Looking a slice up by its number. -/
theorem Tracks.slice_eq (h : w.Tracks rs L p) (k : ℕ) : w.slice k =
    if k = w.current.sliceNo then some w.current
    else if w.base ≤ k ∧ k < w.current.sliceNo then some (sealedSlice rs L k) else none := by
  unfold Window.slice
  by_cases hk : w.current.sliceNo = k
  · rw [if_pos hk, if_pos hk.symm]
  · rw [if_neg hk, if_neg (Ne.symm hk)]
    conv_lhs => rw [h.live]
    rw [find?_range' _ (fun _ => rfl), h.base_add]

theorem Tracks.lt_slices (h : w.Tracks rs L p) {k : ℕ} (hk : k < w.current.sliceNo) :
    k < L.slices := by
  rcases h.closed with hle | ⟨_, heq⟩
  · have hmul : (k + 1) * L.geometry.blocksPerSlice ≤ w.current.sliceNo * L.geometry.blocksPerSlice :=
      Nat.mul_le_mul_right _ hk
    rw [Nat.succ_mul] at hmul
    have := L.geometry.blocksPerSlice_pos
    have := h.pushed_le
    exact Ledger.lt_slices_iff.mpr (by omega)
  · omega

theorem Tracks.sliceNo_le (h : w.Tracks rs L p) : w.current.sliceNo ≤ L.slices := by
  by_contra hlt
  exact (h.lt_slices (Nat.lt_of_not_le hlt)).false

theorem Tracks.sliceParity_eq (h : w.Tracks rs L p) {k : ℕ} (hb : w.base ≤ k)
    (hk : k ≤ w.current.sliceNo) : w.sliceParity k = L.widths[k]? := by
  obtain ⟨hget, hmod⟩ := h.getElem?_widths hk
  rw [Window.sliceParity, h.slice_eq]
  by_cases hc : k = w.current.sliceNo
  · rw [if_pos hc, Option.map_some, hget]
    have hwidth := h.width
    rw [← hc, hget, Option.some.injEq] at hwidth
    rw [← hwidth, hmod]
  · rw [if_neg hc, if_pos ⟨hb, by omega⟩, Option.map_some, hget]
    exact congrArg some hmod

/-- A sealed slice the window still has gives every shard the ledger has for it. -/
theorem Tracks.shard_of_sealed (h : w.Tracks rs L p) {k : ℕ} (hb : w.base ≤ k)
    (hk : k < w.current.sliceNo) (slot : ℕ) : w.shard k slot = L.shard rs k slot := by
  rw [Window.shard, h.slice_eq, if_neg (Nat.ne_of_lt hk), if_pos ⟨hb, hk⟩, h.geometry,
    Ledger.shard, if_pos (h.lt_slices hk)]
  rfl

/-- A shard the window finds is the ledger's, and of a slice inside the window. -/
theorem Tracks.shard_eq_some (h : w.Tracks rs L p) (hroomy : w.Roomy) {k slot : ℕ}
    {payload : Bytes} (hs : w.shard k slot = some payload) :
    L.shard rs k slot = some payload ∧ w.base ≤ k ∧ k < w.base + L.geometry.maxLiveSlices ∧
      k ≤ w.current.sliceNo := by
  have hbase := h.base_add
  have hroom := hroomy.live
  rw [h.geometry] at hroom
  by_cases hk : w.base ≤ k ∧ k < w.current.sliceNo
  · rw [h.shard_of_sealed hk.1 hk.2] at hs
    exact ⟨hs, hk.1, by omega, by omega⟩
  by_cases hc : k = w.current.sliceNo
  swap
  · rw [Window.shard, h.slice_eq, if_neg hc, if_neg hk] at hs
    simp at hs
  rw [Window.shard, h.slice_eq, if_pos hc, h.geometry] at hs
  simp only [Option.bind_eq_bind, Option.bind_some, h.parity, List.getElem?_nil] at hs
  split_ifs at hs with hslot
  have hne : w.current.data ≠ [] := List.ne_nil_of_mem (List.mem_of_getElem? hs)
  have hroom' := hroomy.data hne
  rw [h.geometry] at hroom'
  refine ⟨?_, by omega, by omega, by omega⟩
  rw [h.data, List.getElem?_drop, List.getElem?_take] at hs
  split_ifs at hs
  rw [Ledger.shard_data hslot, Ledger.slice, Chunks.getElem?_chunk, if_pos hslot, hc, hs]

end Steps

end Window

namespace Slicer

section Padding

variable {g : Geometry}

theorem padded_of_length_eq {block : Bytes} (h : block.length = g.blockSize) :
    padded g block = block := if_pos h

theorem padded_eq_append {block : Bytes} :
    padded g block = block ++ List.replicate (g.blockSize - block.length) 0 := by
  unfold padded
  split_ifs with h
  · simp [h]
  · rfl

theorem length_padded {block : Bytes} (h : block.length ≤ g.blockSize) :
    (padded g block).length = g.blockSize := by
  rw [padded_eq_append, List.length_append, List.length_replicate]
  omega

/-- Blocks of which all but the last are full put zeros behind what they hold, if anything. -/
theorem flatten_map_padded {blocks : List Bytes}
    (h : ∀ i block, blocks[i]? = some block →
      i + 1 < blocks.length → block.length = g.blockSize) :
    ∃ n, (blocks.map (padded g)).flatten = blocks.flatten ++ List.replicate n 0 := by
  induction blocks with
  | nil => exact ⟨0, rfl⟩
  | cons block rest ih =>
    obtain ⟨n, hn⟩ := ih fun i b hb hlt => h (i + 1) b (by simpa using hb) (by simpa using hlt)
    rcases rest with _ | ⟨b, rest⟩
    · exact ⟨g.blockSize - block.length, by simp [padded_eq_append]⟩
    · have hfull := h 0 block rfl (by simp)
      refine ⟨n, ?_⟩
      rw [List.map_cons, List.flatten_cons, hn, padded_of_length_eq hfull, ← List.append_assoc]
      rfl

end Padding

section Ledger

variable {L : Ledger} {r : Reader} (hL : L.blocks = (r.blocks L.geometry).map (padded L.geometry))

include hL

/-- The ledger's blocks are the blocks read, with zeros behind the last. -/
theorem flatten_blocks :
    ∃ n, L.blocks.flatten = (r.blocks L.geometry).flatten ++ List.replicate n 0 := by
  rw [hL]
  exact flatten_map_padded fun i block hb => (Reader.length_block hb).2

/-- Short of the last block there is no padding. -/
theorem flatten_take_eq {m : ℕ} (hm : m < L.blocks.length) :
    (L.blocks.take m).flatten = ((r.blocks L.geometry).take m).flatten := by
  have hlen : m < (r.blocks L.geometry).length := by rwa [hL, List.length_map] at hm
  rw [hL, ← List.map_take]
  congr 1
  conv_rhs => rw [← List.map_id ((r.blocks L.geometry).take m)]
  apply List.map_congr_left
  intro block hb
  obtain ⟨i, hi⟩ := List.mem_iff_getElem?.mp hb
  rw [List.getElem?_take] at hi
  split_ifs at hi with hlt
  exact padded_of_length_eq ((Reader.length_block hi).2 (by omega))

/-- Blocks released short of the last are a prefix of the input. -/
theorem flatten_take_prefix {m : ℕ} (hm : m < L.blocks.length) :
    (L.blocks.take m).flatten <+: r.bytes := by
  rw [flatten_take_eq hL hm]
  exact r.flatten_take_blocks_prefix L.geometry m

/-- Cut to the length of the input, what has been released is a prefix of the input. -/
theorem take_flatten_take (hfault : r.fault = none) (m : ℕ) :
    (L.blocks.take m).flatten.take r.bytes.length =
      r.bytes.take (L.blocks.take m).flatten.length := by
  obtain ⟨n, hn⟩ := flatten_blocks hL
  rw [Reader.flatten_blocks hfault] at hn
  have hpre : (L.blocks.take m).flatten <+: r.bytes ++ List.replicate n 0 := by
    rw [← hn]
    conv_rhs => rw [← List.take_append_drop m L.blocks, List.flatten_append]
    exact List.prefix_append _ _
  have heq := List.prefix_iff_eq_take.mp hpre
  generalize (L.blocks.take m).flatten = F at heq
  conv_lhs => rw [heq, List.take_take, Nat.min_comm, ← List.take_take, List.take_left']

end Ledger

variable {rs : ReedSolomon} {L L' : Ledger} {r : Reader} {s s' : Slicer} {p : ℕ}
  {messages : List Outbound}

/-- The slicer after the first `p` blocks of the reader's input. -/
structure Tracks (rs : ReedSolomon) (L : Ledger) (r : Reader) (p : ℕ) (s : Slicer) : Prop where
  blocks : L.blocks = (r.blocks L.geometry).map (padded L.geometry)
  window : s.window.Tracks rs L p
  short : s.window.current.data.length < L.geometry.blocksPerSlice
  floor : s.emitFloor = s.window.current.sliceNo
  totalBytes : s.totalBytes = ((r.blocks L.geometry).take p).flatten.length
  totalBlocks : s.totalBlocks = p
  bound : s.emitFloor < 2 ^ 32
  roomy : s.window.Roomy

/-- A message of the slicer that says nothing false: a shard of the ledger at its slice's width,
with an emit floor between its slice and the slices sealed, or the true totals of the input. -/
def Honest (rs : ReedSolomon) (L : Ledger) (r : Reader) : Outbound → Prop
  | .shard sliceNo slot sliceParity emitFloor payload =>
    L.shard rs sliceNo slot = some payload ∧ L.widths[sliceNo]? = some sliceParity ∧
      sliceNo ≤ emitFloor ∧ emitFloor < L.widths.length
  | .eof totalBytes totalBlocks =>
    r.fault = none ∧ totalBytes = r.bytes.length ∧ totalBlocks = L.blocks.length ∧
      L.slices < 2 ^ 32

/-- The message is not a shard of slice `bound` or a later one. -/
def Below (bound : ℕ) : Outbound → Prop
  | .shard sliceNo _ _ _ _ => sliceNo < bound
  | .eof _ _ => True

theorem Honest.grows {m : Outbound} (hL : L.Grows L') (h : Honest rs L r m) :
    Honest rs L' r m := by
  cases m with
  | shard k slot w f payload =>
    obtain ⟨hshard, hwidth, hk, hf⟩ := h
    exact ⟨hL.shard hshard, hL.widths hwidth, hk, hf.trans_le hL.length_widths⟩
  | eof _ _ => rw [Honest, hL.blocks, hL.slices]; exact h

theorem Below.mono {m : Outbound} {bound bound' : ℕ} (hle : bound ≤ bound')
    (h : Below bound m) : Below bound' m := by
  cases m with
  | shard => exact h.trans_le hle
  | eof => trivial

/-- The parity of a slice as it is first sent. -/
def parityMessages (rs : ReedSolomon) (L : Ledger) (k : ℕ) : List Outbound :=
  (L.parity rs k).zipIdx.map fun e =>
    .shard k (L.geometry.blocksPerSlice + e.2) (L.widths.getD k 0) k e.1

theorem parityShards_eq {g : Geometry} {k w f : ℕ} {payloads : List Bytes} {index : ℕ}
    (h : payloads = [] ∨ g.blocksPerSlice + index + payloads.length ≤ 2 ^ 16) :
    parityShards g k w f index payloads = .ok ((payloads.zipIdx index).map fun e =>
      .shard k (g.blocksPerSlice + e.2) w f e.1) := by
  have hpos := g.blocksPerSlice_pos
  induction payloads generalizing index with
  | nil => rfl
  | cons payload rest ih =>
    have hle := h.resolve_left (by simp)
    rw [List.length_cons] at hle
    have hmod : index % 2 ^ 16 = index := Nat.mod_eq_of_lt (by omega)
    rw [parityShards, hmod, addChecked_of_lt (by omega), ok_bind, ih (.inr (by omega))]
    rfl

/-- Queueing the parity of the slice just sealed. -/
theorem queueParity_eq (rs : ReedSolomon) {k : ℕ} (hg : s.window.geometry = L.geometry)
    (hw : L.widths[k]? = some (L.widths.getD k 0)) (hk : k + 1 < 2 ^ 32) (hf : s.emitFloor = k) :
    s.queueParity ⟨k, L.parity rs k⟩ =
      .ok ({ s with emitFloor := k + 1 }, parityMessages rs L k) := by
  have hlen : (L.parity rs k).length = L.widths.getD k 0 := Ledger.length_parity hw
  have hle := L.width_le _ (List.mem_of_getElem? hw)
  have hlt := L.geometry.parityPerSlice_lt
  have hfit : L.parity rs k = [] ∨
      L.geometry.blocksPerSlice + 0 + (L.parity rs k).length ≤ 2 ^ 16 := by
    rcases Nat.eq_zero_or_pos (L.widths.getD k 0) with hzero | hpos
    · exact .inl (List.length_eq_zero_iff.mp (hlen.trans hzero))
    · right
      have := (Ledger.supported hw hpos).shards_le
      omega
  unfold queueParity
  simp only [hg]
  rw [parityShards_eq hfit, ok_bind, addChecked_of_lt hk, ok_bind, hlen,
    Nat.mod_eq_of_lt (by omega), hf]
  rfl

theorem Tracks.geometry (h : s.Tracks rs L r p) : s.window.geometry = L.geometry :=
  h.window.geometry

/-- The current slice starts at or below the blocks pushed, unless the input is sealed. -/
theorem Tracks.start_le (h : s.Tracks rs L r p) (hp : p < L.blocks.length) :
    s.window.current.sliceNo * L.geometry.blocksPerSlice ≤ p := by
  rcases h.window.closed with hle | ⟨heq, _⟩
  · exact hle
  · omega

theorem Tracks.getElem?_blocks (h : s.Tracks rs L r p) {block : Bytes}
    (hb : (r.blocks L.geometry)[p]? = some block) :
    L.blocks[p]? = some (padded L.geometry block) := by
  rw [h.blocks, List.getElem?_map, hb]
  rfl

/-- Where the reader has no block left, all are pushed. -/
theorem Tracks.eq_length (h : s.Tracks rs L r p) (hp : (r.blocks L.geometry).length ≤ p) :
    p = L.blocks.length := by
  have hle := h.window.pushed_le
  have hlen := congrArg List.length h.blocks
  rw [List.length_map] at hlen
  omega

/-- `push` sends the block as the next data shard and, when that fills the slice, its parity. -/
theorem Tracks.push (h : s.Tracks rs L r p) {block : Bytes}
    (hb : (r.blocks L.geometry)[p]? = some block)
    (hroom : s.window.live.length < L.geometry.maxLiveSlices)
    (hok : s.push rs block = .ok (s', messages)) :
    ∃ L', L.Grows L' ∧ s'.Tracks rs L' r (p + 1) ∧ s'.window.base = s.window.base ∧
      ∃ tail, messages = .shard s.window.current.sliceNo s.window.current.data.length
          s.window.current.parityWidth s.window.current.sliceNo (padded L.geometry block) :: tail ∧
        (tail = [] ∧ L' = L ∧ s'.window.current.sliceNo = s.window.current.sliceNo ∨
          tail = parityMessages rs L s.window.current.sliceNo ∧
            s'.window.current.sliceNo = s.window.current.sliceNo + 1 ∧
            s'.window.current.sliceNo * L.geometry.blocksPerSlice = p + 1) := by
  have hblock := h.getElem?_blocks hb
  have hwlt := h.window.width_le
  have hplt := L.geometry.parityPerSlice_lt
  unfold Slicer.push at hok
  obtain ⟨totalBytes, hbytes, hok⟩ := bind_ok_iff.mp hok
  obtain ⟨totalBlocks, hblocks, hok⟩ := bind_ok_iff.mp hok
  obtain ⟨_, rfl⟩ := addChecked_eq_ok.mp hbytes
  obtain ⟨_, rfl⟩ := addChecked_eq_ok.mp hblocks
  obtain ⟨⟨pushed, window⟩, hpush, hok⟩ := bind_ok_iff.mp hok
  obtain ⟨⟨s₂, shards⟩, hqueue, hok⟩ := bind_ok_iff.mp hok
  simp only [Except.ok.injEq, Prod.mk.injEq] at hok
  obtain ⟨rfl, rfl⟩ := hok
  rw [h.geometry] at hpush
  obtain ⟨hno, hslot, hbase, hcase⟩ := h.window.push hblock h.short hpush
  have hparity : s.window.currentParity = s.window.current.parityWidth :=
    Nat.mod_eq_of_lt (by omega)
  have htotal : s.totalBytes + block.length =
      ((r.blocks L.geometry).take (p + 1)).flatten.length := by
    rw [List.take_add_one, hb, h.totalBytes]
    simp
  have hcount : s.totalBlocks + 1 = p + 1 := by rw [h.totalBlocks]
  rcases hcase with ⟨hnone, hcur, hshort, htracks⟩ | ⟨hsome, hcur, hlt, hend, hnil, htracks⟩
  · simp only [hnone, queueSealed, Except.ok.injEq, Prod.mk.injEq] at hqueue
    obtain ⟨rfl, rfl⟩ := hqueue
    have hroomy := h.window.roomy htracks rfl hbase hroom (.inl hcur)
    refine ⟨L, .refl L, ⟨h.blocks, htracks, hshort, h.floor.trans hcur.symm, htotal, hcount,
      h.bound, hroomy⟩, hbase, [], ?_, .inl ⟨rfl, rfl, hcur⟩⟩
    rw [hno, hslot, hparity, h.floor, h.geometry]
  · have hget := (h.window.getElem?_widths (le_refl s.window.current.sliceNo)).1
    have heq := queueParity_eq rs (L := L) (s := { s with
      window := window, totalBytes := s.totalBytes + block.length
      totalBlocks := s.totalBlocks + 1 }) htracks.geometry hget (by omega) h.floor
    simp only [hsome, queueSealed, heq, Except.ok.injEq, Prod.mk.injEq] at hqueue
    obtain ⟨rfl, rfl⟩ := hqueue
    have hroomy := h.window.roomy htracks rfl hbase hroom (.inr ⟨hcur, hnil⟩)
    refine ⟨_, .opened h.window.wanted, ⟨h.blocks, htracks, ?_, hcur.symm, htotal, hcount,
      hcur ▸ hlt, hroomy⟩, hbase, _, ?_, .inr ⟨rfl, hcur, hcur ▸ hend⟩⟩
    · simp only [hnil, List.length_nil, Ledger.geometry_opened]
      exact L.geometry.blocksPerSlice_pos
    · rw [hno, hslot, hparity, h.floor, h.geometry]

/-- `push` dies only when one of its counters does. -/
theorem Tracks.exists_push (h : s.Tracks rs L r p) {block : Bytes}
    (hb : (r.blocks L.geometry)[p]? = some block)
    (hbytes : s.totalBytes + block.length < 2 ^ 64) (hblocks : p + 1 < 2 ^ 64)
    (hlt : s.window.current.sliceNo + 1 < 2 ^ 32) :
    ∃ s' messages, s.push rs block = .ok (s', messages) := by
  have hblock := h.getElem?_blocks hb
  obtain ⟨pushed, window, hpush⟩ := h.window.exists_push hblock h.short hlt
  unfold Slicer.push
  rw [addChecked_of_lt hbytes, ok_bind, h.totalBlocks, addChecked_of_lt hblocks, ok_bind,
    h.geometry]
  dsimp only
  rw [hpush, ok_bind]
  obtain ⟨_, _, _, ⟨hnone, _⟩ | ⟨hsome, _, _, _, _, htracks⟩⟩ :=
    h.window.push hblock h.short hpush
  · exact ⟨_, _, by rw [hnone]; rfl⟩
  · have hget := (h.window.getElem?_widths (le_refl s.window.current.sliceNo)).1
    have heq := queueParity_eq rs (L := L) (s := { s with
      window := window, totalBytes := s.totalBytes + block.length
      totalBlocks := p + 1 }) htracks.geometry hget hlt h.floor
    exact ⟨_, _, by rw [hsome, queueSealed, heq]; rfl⟩

/-- The parity of a sealed slice is honest, in its window. -/
theorem Tracks.honest_parity (h : s.Tracks rs L r p) {m : Outbound} {k : ℕ}
    (hk : k ≤ s.window.current.sliceNo) (hlt : k < L.slices)
    (hm : m ∈ parityMessages rs L k) : Honest rs L r m ∧ Below (k + 1) m := by
  obtain ⟨⟨payload, j⟩, hj, rfl⟩ := List.mem_map.mp hm
  rw [List.mk_mem_zipIdx_iff_getElem?] at hj
  refine ⟨⟨?_, (h.window.getElem?_widths hk).1, le_rfl, ?_⟩, Nat.lt_succ_self k⟩
  · rw [Ledger.shard, if_neg (by simp), if_pos hlt]
    simpa using hj
  · rw [h.window.widths]
    omega

/-- The data shard that `push` sends is honest. -/
theorem Tracks.honest_data (h : s.Tracks rs L r p) {block : Bytes}
    (hb : (r.blocks L.geometry)[p]? = some block) :
    Honest rs L r (.shard s.window.current.sliceNo s.window.current.data.length
      s.window.current.parityWidth s.window.current.sliceNo (padded L.geometry block)) := by
  have hblock := h.getElem?_blocks hb
  have hstart := h.start_le (List.getElem?_eq_some_iff.mp hblock).1
  refine ⟨?_, h.window.width, le_rfl, ?_⟩
  · rw [Ledger.shard_data h.short, Ledger.slice, Chunks.getElem?_chunk, if_pos h.short,
      h.window.length_data, Nat.add_sub_cancel' hstart, hblock]
  · rw [h.window.widths]
    omega

/-- The end of the input seals what is left and sends the totals. -/
theorem Tracks.endInput (h : s.Tracks rs L r p) (hp : p = L.blocks.length)
    (hfault : r.fault = none) (hok : s.endInput rs = .ok (s', messages)) :
    ∃ L', L.Grows L' ∧ s'.Tracks rs L' r p ∧ s'.window.base = s.window.base ∧
      s'.window.current.sliceNo = L.slices ∧ s'.window.current.data = [] ∧
      ∃ tail, messages = tail ++ [.eof r.bytes.length L.blocks.length] ∧
        (tail = [] ∧ s.window.current.data = [] ∧ L' = L ∨
          tail = parityMessages rs L s.window.current.sliceNo ∧ s.window.current.data ≠ []) := by
  subst hp
  have hall : (r.blocks L.geometry).take L.blocks.length = r.blocks L.geometry := by
    apply List.take_of_length_le
    rw [h.blocks, List.length_map]
  have hbytes : s.totalBytes = r.bytes.length := by
    rw [h.totalBytes, hall, Reader.flatten_blocks hfault]
  unfold Slicer.endInput at hok
  obtain ⟨⟨sealedSlice, window⟩, hseal, hok⟩ := bind_ok_iff.mp hok
  obtain ⟨⟨s₂, shards⟩, hqueue, hok⟩ := bind_ok_iff.mp hok
  simp only [Except.ok.injEq, Prod.mk.injEq] at hok
  obtain ⟨rfl, rfl⟩ := hok
  by_cases hnil : s.window.current.data = []
  · rw [Window.sealSlice_of_nil hnil] at hseal
    obtain ⟨rfl, rfl⟩ := Prod.mk.inj (Except.ok.inj hseal)
    simp only [queueSealed, Except.ok.injEq, Prod.mk.injEq] at hqueue
    obtain ⟨rfl, rfl⟩ := hqueue
    refine ⟨L, .refl L, h, rfl, h.window.sliceNo_eq hnil, hnil, [], ?_, .inl ⟨rfl, hnil, rfl⟩⟩
    simp [hbytes, h.totalBlocks]
  · have hdata := h.window.data_eq_slice (.inr rfl)
    obtain ⟨rfl, hno, hbase, hlt, hnil', htracks⟩ := h.window.sealSlice hnil hdata hseal
    have hget := (h.window.getElem?_widths (le_refl s.window.current.sliceNo)).1
    have heq := queueParity_eq rs (L := L) (s := { s with window := window })
      htracks.geometry hget (by omega) h.floor
    simp only [queueSealed, heq, Except.ok.injEq, Prod.mk.injEq] at hqueue
    obtain ⟨rfl, rfl⟩ := hqueue
    have hs' : Tracks rs (L.opened s.window.wantedParity h.window.wanted) r L.blocks.length
        { s with window := window, emitFloor := s.window.current.sliceNo + 1 } := by
      have hroom : s.window.live.length < L.geometry.maxLiveSlices :=
        (h.roomy.data hnil).trans_eq (by rw [h.geometry])
      have hroomy := h.window.roomy htracks rfl hbase hroom (.inr ⟨hno, hnil'⟩)
      refine ⟨h.blocks, htracks, ?_, hno.symm, h.totalBytes, h.totalBlocks, hno ▸ hlt, hroomy⟩
      simp only [hnil', List.length_nil, Ledger.geometry_opened]
      exact L.geometry.blocksPerSlice_pos
    refine ⟨_, .opened h.window.wanted, hs', hbase, htracks.sliceNo_eq hnil', hnil',
      parityMessages rs L s.window.current.sliceNo, ?_, .inr ⟨rfl, hnil⟩⟩
    simp [hbytes, h.totalBlocks]

/-- What a resend answers with. -/
theorem mem_resend {k : ℕ} {slots : List ℕ} {m : Outbound} (hm : m ∈ s.resend k slots) :
    ∃ slot width payload, s.window.sliceParity k = some width ∧
      s.window.shard k slot = some payload ∧ m = .shard k slot width s.emitFloor payload := by
  unfold Slicer.resend at hm
  split at hm
  · cases hm
  · next width hwidth =>
    obtain ⟨slot, _, hslot⟩ := List.mem_filterMap.mp hm
    obtain ⟨payload, hpayload, rfl⟩ := Option.map_eq_some_iff.mp hslot
    exact ⟨slot, width, payload, hwidth, hpayload, rfl⟩

/-- What a resend answers is honest, and of a slice in the window. -/
theorem Tracks.honest_resend (h : s.Tracks rs L r p) {k : ℕ} {slots : List ℕ} {m : Outbound}
    (hm : m ∈ s.resend k slots) :
    Honest rs L r m ∧ Below (s.window.base + L.geometry.maxLiveSlices) m := by
  obtain ⟨slot, width, payload, hwidth, hpayload, rfl⟩ := mem_resend hm
  obtain ⟨hshard, hb, hlt, hk⟩ := h.window.shard_eq_some h.roomy hpayload
  rw [h.window.sliceParity_eq hb hk] at hwidth
  refine ⟨⟨hshard, hwidth, h.floor ▸ hk, ?_⟩, hlt⟩
  rw [h.window.widths, h.floor]
  omega

theorem Tracks.retainFrom (h : s.Tracks rs L r p) (v : ℕ) :
    Tracks rs L r p { s with window := s.window.retainFrom v } :=
  ⟨h.blocks, (h.window.retainFrom v).1, h.short, h.floor, h.totalBytes, h.totalBlocks, h.bound,
    h.roomy.retainFrom v⟩

theorem Tracks.cover (h : s.Tracks rs L r p) (wanted : ℕ) :
    Tracks rs L r p { s with window := s.window.cover wanted } :=
  ⟨h.blocks, h.window.cover wanted, h.short, h.floor, h.totalBytes, h.totalBlocks, h.bound,
    h.roomy.live, h.roomy.data⟩

/-- A new slicer is at the start of the ledger of any input. -/
theorem new_tracks {g : Geometry} (rs : ReedSolomon) (r : Reader) (h : new g = .ok s) :
    ∃ L : Ledger, L.geometry = g ∧ L.widths = [g.parityPerSlice] ∧ s.Tracks rs L r 0 ∧
      s.window.base = 0 := by
  obtain ⟨w, hw, hs⟩ := bind_ok_iff.mp h
  rw [Except.ok.injEq] at hs
  let L : Ledger :=
    { geometry := g
      blocks := (r.blocks g).map (padded g)
      widths := [g.parityPerSlice]
      accepted := (Window.new_window hw).1
      size := fun block hb => by
        obtain ⟨b, hmem, rfl⟩ := List.mem_map.mp hb
        obtain ⟨i, hi⟩ := List.mem_iff_getElem?.mp hmem
        exact length_padded (Reader.length_block hi).1
      width_le := fun width hw => (List.mem_singleton.mp hw).le }
  obtain ⟨htracks, hroomy, hlive, hcurrent⟩ := Window.tracks_new (L := L) hw rfl
  rw [← hs]
  refine ⟨L, rfl, rfl, ⟨rfl, htracks, ?_, ?_, rfl, rfl, by simp, hroomy⟩, ?_⟩
  · rw [hcurrent]
    exact g.blocksPerSlice_pos
  · rw [hcurrent]
    rfl
  · rw [Window.base, hcurrent]
    exact Nat.zero_sub _

end Slicer

namespace SlicerTask

variable {rs : ReedSolomon} {L : Ledger} {r : Reader} {t t' : SlicerTask}

/-- The task on its way through the reader's input. -/
structure Tracks (rs : ReedSolomon) (L : Ledger) (r : Reader) (t : SlicerTask) : Prop where
  slicer : ∃ p, t.slicer.Tracks rs L r p ∧ (t.ended.isNone →
    if t.drained then t.input = [] ∧ p = L.blocks.length ∧ r.fault = none ∧
      t.slicer.window.current.sliceNo = L.slices
    else t.input = ((r.blocks L.geometry).drop p).map .ok ++ r.fault.toList.map .error)
  todo : ∀ m ∈ t.todo, Slicer.Honest rs L r m

/-- A handler that started well, or died. -/
theorem tracks_begin {p : ℕ} (hs : t.slicer.Tracks rs L r p) (htodo : t.todo = [])
    {result : Except Panic (Slicer × List Outbound)}
    (hok : ∀ s messages, result = .ok (s, messages) → ∃ L', L.Grows L' ∧
      (∃ p, s.Tracks rs L' r p ∧ if t.drained then t.input = [] ∧ p = L'.blocks.length ∧
          r.fault = none ∧ s.window.current.sliceNo = L'.slices
        else t.input = ((r.blocks L'.geometry).drop p).map .ok ++ r.fault.toList.map .error) ∧
      s.window.base = t.slicer.window.base ∧ ∀ m ∈ messages, Slicer.Honest rs L' r m ∧
        Slicer.Below (t.slicer.window.base + L.geometry.maxLiveSlices) m) :
    ∃ L', L.Grows L' ∧ (t.begin result).Tracks rs L' r ∧
      (t.begin result).slicer.window.base = t.slicer.window.base ∧
      ∀ m ∈ (t.begin result).todo,
        Slicer.Below (t.slicer.window.base + L.geometry.maxLiveSlices) m := by
  rcases result with e | ⟨s, messages⟩
  · refine ⟨L, .refl L, ⟨⟨p, hs, by simp [SlicerTask.begin]⟩, ?_⟩, rfl, ?_⟩ <;>
      simp [SlicerTask.begin, htodo]
  · obtain ⟨L', hgrows, ⟨p, hs, hinput⟩, hbase, hm⟩ := hok s messages rfl
    exact ⟨L', hgrows, ⟨⟨p, hs, fun _ => hinput⟩, fun m h => (hm m h).1⟩, hbase,
      fun m h => (hm m h).2⟩

/-- What the task's stream yields next is the next block of the reader's. -/
theorem next_block {g : Geometry} {p : ℕ} {block : Bytes} {input : List (Except IoError Bytes)}
    (h : .ok block :: input =
      ((r.blocks g).drop p).map .ok ++ r.fault.toList.map .error) :
    (r.blocks g)[p]? = some block ∧
      input = ((r.blocks g).drop (p + 1)).map .ok ++ r.fault.toList.map .error := by
  rcases hdrop : (r.blocks g).drop p with _ | ⟨b, rest⟩
  · rcases hfault : r.fault with _ | e <;> simp [hdrop, hfault] at h
  · simp only [hdrop, List.map_cons, List.cons_append, List.cons.injEq, Except.ok.injEq] at h
    obtain ⟨rfl, hrest⟩ := h
    have hget := congrArg (·[0]?) hdrop
    rw [List.getElem?_drop, Nat.add_zero] at hget
    rw [← List.tail_drop, hdrop, List.tail_cons]
    exact ⟨hget, hrest⟩

theorem input_ended {g : Geometry} {p : ℕ}
    (h : ([] : List (Except IoError Bytes)) =
      ((r.blocks g).drop p).map .ok ++ r.fault.toList.map .error) :
    (r.blocks g).length ≤ p ∧ r.fault = none := by
  obtain ⟨hdrop, hfault⟩ := List.append_eq_nil_iff.mp h.symm
  refine ⟨List.drop_eq_nil_iff.mp (List.map_eq_nil_iff.mp hdrop), ?_⟩
  rcases hf : r.fault with _ | e
  · rfl
  · simp [hf] at hfault

/-- What a read starts from, and what it can be: of a block, of an error, or of the end. -/
theorem Tracks.read_cases (h : t.Tracks rs L r) (hr : t.read rs = some t') :
    ∃ p, t.slicer.Tracks rs L r p ∧ t.ended = none ∧ t.todo = [] ∧ t.drained = false ∧
      t.slicer.window.live.length < L.geometry.maxLiveSlices ∧
      ((∃ block input, (r.blocks L.geometry)[p]? = some block ∧
          input = ((r.blocks L.geometry).drop (p + 1)).map .ok ++ r.fault.toList.map .error ∧
          t' = { t with input := input }.begin (t.slicer.push rs block)) ∨
        (∃ e input, r.fault = some e ∧
          t' = { t with input := input, ended := some (.returned (.error (.file e))) }) ∨
        (p = L.blocks.length ∧ r.fault = none ∧ t.input = [] ∧
          t' = { t with drained := true }.begin (t.slicer.endInput rs))) := by
  obtain ⟨p, hs, hrun⟩ := h.slicer
  unfold SlicerTask.read at hr
  split at hr
  swap
  · simp at hr
  next hguard =>
  obtain ⟨⟨hended, htodo⟩, hdrained, hfull⟩ := hguard
  have hdrained : t.drained = false := by simpa using hdrained
  have hroom : t.slicer.window.live.length < L.geometry.maxLiveSlices := by
    simpa [Window.isFull, hs.geometry] using hfull
  have hinput := hrun hended
  simp only [hdrained, Bool.false_eq_true, if_false] at hinput
  refine ⟨p, hs, by simpa using hended, htodo, hdrained, hroom, ?_⟩
  split at hr
  · next block input heq =>
    obtain ⟨hb, hrest⟩ := next_block (heq.symm.trans hinput)
    exact .inl ⟨block, input, hb, hrest, (Option.some.inj hr).symm⟩
  · next e input heq =>
    refine .inr (.inl ⟨e, input, ?_, (Option.some.inj hr).symm⟩)
    have hmem : .error e ∈ t.input := heq ▸ List.mem_cons_self
    rcases List.mem_append.mp (hinput ▸ hmem) with hmem | hmem
    · obtain ⟨_, _, hb⟩ := List.mem_map.mp hmem
      cases hb
    · obtain ⟨e', he', heq⟩ := List.mem_map.mp hmem
      rw [← Except.error.inj heq, Option.mem_toList.mp he']
  · next heq =>
    obtain ⟨hlen, hfault⟩ := input_ended (heq.symm.trans hinput)
    exact .inr (.inr ⟨hs.eq_length hlen, hfault, heq, (Option.some.inj hr).symm⟩)

/-- Reading a block, or the end of the input, or an error. -/
theorem Tracks.read (h : t.Tracks rs L r) (hr : t.read rs = some t') :
    ∃ L', L.Grows L' ∧ t'.Tracks rs L' r ∧ t'.slicer.window.base = t.slicer.window.base ∧
      ∀ m ∈ t'.todo, Slicer.Below (t.slicer.window.base + L.geometry.maxLiveSlices) m := by
  obtain ⟨p, hs, -, htodo, hdrained, hroom, hcase⟩ := h.read_cases hr
  have hbase := hs.window.base_add
  rcases hcase with ⟨block, input, hb, hrest, rfl⟩ | ⟨e, input, -, rfl⟩ | ⟨hp, hfault, heq, rfl⟩
  · refine tracks_begin (t := { t with input := input }) hs htodo (fun s messages hpush => ?_)
    obtain ⟨L', hgrows, hs', hbase', tail, rfl, htail⟩ := hs.push hb hroom hpush
    refine ⟨L', hgrows, ⟨p + 1, hs', ?_⟩, hbase', fun m hm => ?_⟩
    · simp only [hdrained, Bool.false_eq_true, if_false, hgrows.geometry, hrest]
    · rcases List.mem_cons.mp hm with rfl | hm
      · exact ⟨(hs.honest_data hb).grows hgrows, by simp only [Slicer.Below]; omega⟩
      · rcases htail with ⟨rfl, _⟩ | ⟨rfl, hcur, _⟩
        · simp at hm
        · have hlt := hs'.window.lt_slices (k := t.slicer.window.current.sliceNo) (by omega)
          rw [hgrows.slices] at hlt
          obtain ⟨hhonest, hbelow⟩ := hs.honest_parity le_rfl hlt hm
          exact ⟨hhonest.grows hgrows, hbelow.mono (by simp only; omega)⟩
  · exact ⟨L, .refl L, ⟨⟨p, hs, by simp⟩, h.todo⟩, rfl, by simp [htodo]⟩
  · refine tracks_begin (t := { t with drained := true }) hs htodo (fun s messages hend => ?_)
    obtain ⟨L', hgrows, hs', hbase', hcur, _, tail, rfl, htail⟩ := hs.endInput hp hfault hend
    refine ⟨L', hgrows, ⟨p, hs', ?_⟩, hbase', fun m hm => ?_⟩
    · simp only [if_true, hgrows.blocks, hgrows.slices]
      exact ⟨heq, hp, hfault, hcur⟩
    · rcases List.mem_append.mp hm with hm | hm
      · rcases htail with ⟨rfl, _⟩ | ⟨rfl, hne⟩
        · simp at hm
        · have hlen := hs.window.length_data
          have hpos := List.length_pos_iff.mpr hne
          have hlt : t.slicer.window.current.sliceNo < L.slices :=
            Ledger.lt_slices_iff.mpr (by omega)
          obtain ⟨hhonest, hbelow⟩ := hs.honest_parity le_rfl hlt hm
          exact ⟨hhonest.grows hgrows, hbelow.mono (by simp only; omega)⟩
      · rw [List.mem_singleton] at hm
        subst hm
        have hbound := hs'.bound
        rw [hs'.floor, hcur, ← hgrows.slices] at hbound
        exact ⟨⟨hfault, rfl, by rw [hgrows.blocks], hbound⟩, trivial⟩

/-- Taking a feedback message: only `Needed` moves the window. -/
theorem Tracks.recv (h : t.Tracks rs L r) (htodo : t.todo = []) (message : Feedback) :
    (t.recv message).Tracks rs L r ∧
      (t.recv message).slicer.window.base = (match message with
        | .needed v => max t.slicer.window.base (min v t.slicer.window.current.sliceNo)
        | _ => t.slicer.window.base) ∧
      ∀ m ∈ (t.recv message).todo,
        Slicer.Below (t.slicer.window.base + L.geometry.maxLiveSlices) m := by
  obtain ⟨p, hs, hrun⟩ := h.slicer
  cases message with
  | needed v =>
    exact ⟨⟨⟨p, hs.retainFrom v, hrun⟩, h.todo⟩, (hs.window.retainFrom v).2,
      by simp [SlicerTask.recv, htodo]⟩
  | cover parity =>
    exact ⟨⟨⟨p, hs.cover parity, hrun⟩, h.todo⟩, rfl, by simp [SlicerTask.recv, htodo]⟩
  | resend sliceNo blocks =>
    exact ⟨⟨⟨p, hs, hrun⟩, fun m hm => (hs.honest_resend hm).1⟩, rfl,
      fun m hm => (hs.honest_resend hm).2⟩
  | done =>
    exact ⟨⟨⟨p, hs, by simp [SlicerTask.recv]⟩, h.todo⟩, rfl, by simp [SlicerTask.recv, htodo]⟩

end SlicerTask
end Scuttlecast
