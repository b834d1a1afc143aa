import Scuttlecast.Sender.Tracking
import Scuttlecast.Library.Labelled
import Scuttlecast.Interpolated

/-! The window against the plain list of the blocks pushed into it. What it serves of a slice are
the blocks at the slice's places in that list and the parity they were sealed with, for as long as
nobody has said that slices from a later one on are enough. -/
namespace Scuttlecast

/-- What was done to a window: the blocks pushed, the width of every slice opened, the width
wanted for the next, and each `retain_from` with the number of the slice then being filled. -/
structure Pushes where
  geometry : Geometry
  blocks : List Bytes
  widths : List ℕ
  wanted : ℕ
  retained : List (ℕ × ℕ)

namespace Pushes

def new (g : Geometry) : Pushes := ⟨g, [], [g.parityPerSlice], g.parityPerSlice, []⟩

/-- Number of the slice being filled. -/
def current (p : Pushes) : ℕ := p.widths.length - 1

def put (p : Pushes) (block : Bytes) : Pushes := { p with blocks := p.blocks ++ [block] }

/-- The slice being filled is sealed, and the next one opened at the width wanted. -/
def opened (p : Pushes) : Pushes := { p with widths := p.widths ++ [p.wanted] }

/-- One more block; when it is the last of its slice, the next slice is opened. -/
def push (p : Pushes) (block : Bytes) : Pushes :=
  if p.blocks.length + 1 = (p.current + 1) * p.geometry.blocksPerSlice then (p.put block).opened
  else p.put block

def cover (p : Pushes) (wanted : ℕ) : Pushes :=
  { p with wanted := min wanted p.geometry.parityPerSlice }

def retain (p : Pushes) (firstNeeded : ℕ) : Pushes :=
  { p with retained := p.retained ++ [(firstNeeded, p.current)] }

/-- The last slice is sealed, unless there is nothing in it. -/
def close (p : Pushes) : Pushes :=
  if p.blocks.length = p.current * p.geometry.blocksPerSlice then p else p.opened

/-- The blocks of a slice. -/
def slice (p : Pushes) (k : ℕ) : List Bytes := Chunks.chunk p.geometry.blocksPerSlice p.blocks k

/-- The parity of a slice of these blocks, zeros standing for those it has not, at a width. -/
def encoded (rs : ReedSolomon) (g : Geometry) (data : List Bytes) (width : ℕ) : List Bytes :=
  if width = 0 then []
  else rs.recovery g.blocksPerSlice width
    ((List.range g.blocksPerSlice).map fun slot => data.getD slot (List.replicate g.blockSize 0))

/-- The parity of a sealed slice, at the width it was opened with. -/
def parity (rs : ReedSolomon) (p : Pushes) (k : ℕ) : List Bytes :=
  encoded rs p.geometry (p.slice k) (p.widths.getD k 0)

/-- No `retain_from` given after the slice was sealed has asked for less. -/
def Needed (p : Pushes) (k : ℕ) : Prop := ∀ e ∈ p.retained, k < e.2 → e.1 ≤ k

instance (p : Pushes) (k : ℕ) : Decidable (p.Needed k) := by
  unfold Needed
  infer_instance

/-- The shards to be served: of the slice being filled and of every sealed one still needed, the
blocks at their places in the list, and of a sealed one its parity. -/
def shard (rs : ReedSolomon) (p : Pushes) (k slot : ℕ) : Option Bytes :=
  if k = p.current ∨ k < p.current ∧ p.Needed k then
    if slot < p.geometry.blocksPerSlice then
      p.blocks[k * p.geometry.blocksPerSlice + slot]?
    else if k < p.current then (p.parity rs k)[slot - p.geometry.blocksPerSlice]?
    else none
  else none

/-- The first slice that is still needed, if it is sealed. -/
def floor (p : Pushes) : ℕ := p.retained.foldl (fun floor e => max floor (min e.1 e.2)) 0

theorem floor_retain (p : Pushes) (v : ℕ) :
    (p.retain v).floor = max p.floor (min v p.current) := by
  simp [floor, retain, List.foldl_append]

theorem current_opened {p : Pushes} (h : p.widths.length = p.current + 1) :
    p.opened.current = p.current + 1 := by
  rw [← h, current, opened, List.length_append, List.length_singleton, Nat.add_sub_cancel]

theorem needed_iff {p : Pushes} {k : ℕ} : p.Needed k ↔ p.floor ≤ k := by
  unfold Needed floor
  induction p.retained using List.reverseRecOn with
  | nil => simp
  | append_singleton retained e ih =>
    rw [List.foldl_append, List.foldl_cons, List.foldl_nil, max_le_iff, ← ih,
      List.forall_mem_append, List.forall_mem_singleton]
    refine and_congr_right fun _ => ?_
    constructor
    · intro h
      by_cases hk : k < e.2
      · exact (Nat.min_le_left ..).trans (h hk)
      · exact (Nat.min_le_right ..).trans (Nat.le_of_not_lt hk)
    · intro h hk
      omega

end Pushes

namespace Window

variable {rs : ReedSolomon} {g : Geometry} {w w' : Window} {p : Pushes}

/-- An encoder that took every shard it was given holds them all, each of its size. -/
theorem originals_of_foldlM {message : String} {e e' : Encoder} {f : ℕ → Bytes} {n : ℕ}
    (h : (List.range n).foldlM (fun codec slot =>
      expectOk message (codec.addOriginalShard (f slot))) e = .ok e') :
    e' = { e with originals := e.originals ++ (List.range n).map f } ∧
      ∀ i < n, (f i).length = e.shardBytes := by
  induction n generalizing e' with
  | zero =>
    cases h
    simp
  | succ n ih =>
    rw [List.range_succ, List.foldlM_append] at h
    obtain ⟨e₁, h₁, h⟩ := bind_ok_iff.mp h
    obtain ⟨rfl, hsize⟩ := ih h₁
    simp only [List.foldlM_cons, List.foldlM_nil, bind_pure] at h
    unfold Encoder.addOriginalShard at h
    split_ifs at h with hfull hbytes
    · cases h
    · cases h
    · cases h
      constructor
      · simp [List.range_succ]
      · intro i hi
        rcases Nat.lt_or_eq_of_le (Nat.le_of_lt_succ hi) with hi | rfl
        · exact hsize i hi
        · exact not_not.mp hbytes

/-- Where encoding does not die, the blocks are of the size of the transfer. -/
theorem sized_of_encodeParity (hc : w.CodecOk) (ha : w.geometry.Accepted)
    (hle : w.current.parityWidth ≤ w.geometry.parityPerSlice) {r : List Bytes × Window}
    (h : w.encodeParity rs = .ok r) (hzero : w.current.parityWidth ≠ 0) :
    ∀ slot < w.geometry.blocksPerSlice,
      (w.current.data.getD slot (List.replicate w.geometry.blockSize 0)).length =
        w.geometry.blockSize := by
  unfold Window.encodeParity at h
  rw [if_neg hzero, codecFor_eq hc ha (Nat.pos_of_ne_zero hzero) hle, ok_bind] at h
  obtain ⟨codec, hloop, -⟩ := bind_ok_iff.mp h
  exact (originals_of_foldlM hloop).2

/-- What a slice is closed with, where encoding does not die. -/
theorem encodeParity_eq_ok (hc : w.CodecOk) (ha : w.geometry.Accepted)
    (hle : w.current.parityWidth ≤ w.geometry.parityPerSlice) {parity : List Bytes}
    (h : w.encodeParity rs = .ok (parity, w')) :
    parity = Pushes.encoded rs w.geometry w.current.data w.current.parityWidth ∧
      parity.length = w.current.parityWidth ∧ w'.CodecOk ∧
      ∃ codec width, w' = { w with codec := codec, codecWidth := width } := by
  have hsize := sized_of_encodeParity hc ha hle h
  obtain ⟨w₁, hencode, hcodec, hsame⟩ :
      ∃ w₁, w.encodeParity rs = .ok (_, w₁) ∧ w₁.CodecOk ∧ _ :=
    encodeParity_eq hc ha hle hsize
  rw [hencode, Except.ok.injEq, Prod.mk.injEq] at h
  obtain ⟨rfl, rfl⟩ := h
  refine ⟨rfl, ?_, hcodec, hsame⟩
  split_ifs with hzero
  · exact hzero.symm
  · apply rs.length_recovery (ha.supported (Nat.pos_of_ne_zero hzero) hle)
    · rw [List.length_map, List.length_range]
    · intro block hblock
      obtain ⟨slot, hslot, rfl⟩ := List.mem_map.mp hblock
      exact hsize hzero slot (List.mem_range.mp hslot)

/-- Encoding does not die on blocks of the size of the transfer. -/
theorem exists_encodeParity (hc : w.CodecOk) (ha : w.geometry.Accepted)
    (hle : w.current.parityWidth ≤ w.geometry.parityPerSlice)
    (hsize : ∀ block ∈ w.current.data, block.length = w.geometry.blockSize) :
    ∃ r, w.encodeParity rs = .ok r := by
  obtain ⟨w', hencode, -⟩ : ∃ w', w.encodeParity rs = .ok (_, w') ∧ _ := by
    apply encodeParity_eq hc ha hle
    intro _ slot _
    rw [List.getD_eq_getElem?_getD]
    rcases hslot : w.current.data[slot]? with _ | block
    · exact List.length_replicate
    · exact hsize block (List.mem_of_getElem? hslot)
  exact ⟨_, hencode⟩

/-- Sealing does not either, while there is a number left for the next slice. -/
theorem exists_sealSlice (hc : w.CodecOk) (ha : w.geometry.Accepted)
    (hle : w.current.parityWidth ≤ w.geometry.parityPerSlice)
    (hsize : ∀ block ∈ w.current.data, block.length = w.geometry.blockSize)
    (hlt : w.current.sliceNo + 1 < 2 ^ 32) : ∃ r, w.sealSlice rs = .ok r := by
  by_cases hnil : w.current.data = []
  · exact ⟨_, sealSlice_of_nil hnil⟩
  · obtain ⟨⟨parity, w₁⟩, hencode⟩ : ∃ r, w.encodeParity rs = .ok r :=
      exists_encodeParity hc ha hle hsize
    obtain ⟨-, -, -, codec, width, rfl⟩ := encodeParity_eq_ok hc ha hle hencode
    exact ⟨_, (sealSlice_eq_ok hnil).mpr ⟨_, _, hencode, hlt, rfl, rfl⟩⟩

/-- A sealed slice as the pushes have it. -/
def sealedAs (rs : ReedSolomon) (p : Pushes) (k : ℕ) : Slice :=
  ⟨k, p.widths.getD k 0, p.slice k, p.parity rs k⟩

/-- The window after these pushes: the live slices are the sealed ones from the floor on, and the
current one has the blocks pushed since the last was sealed. -/
structure Keeps (rs : ReedSolomon) (p : Pushes) (w : Window) : Prop where
  geometry : w.geometry = p.geometry
  accepted : p.geometry.Accepted
  codec : w.CodecOk
  wanted : w.wantedParity = p.wanted
  wanted_le : p.wanted ≤ p.geometry.parityPerSlice
  current : w.current.sliceNo = p.current
  opened : p.widths.length = p.current + 1
  widths_le : ∀ width ∈ p.widths, width ≤ p.geometry.parityPerSlice
  width : p.widths[p.current]? = some w.current.parityWidth
  live : w.live = (List.range' p.floor (p.current - p.floor)).map (sealedAs rs p)
  floor_le : p.floor ≤ p.current
  parities : ∀ k < p.current, (p.parity rs k).length = p.widths.getD k 0
  data : w.current.data = p.blocks.drop (p.current * p.geometry.blocksPerSlice)
  parity : w.current.parity = []
  few : p.current - p.floor ≤ p.geometry.maxLiveSlices
  room : w.current.data ≠ [] → p.current - p.floor < p.geometry.maxLiveSlices

/-- No slice is closed before it is whole. -/
structure Open (p : Pushes) : Prop where
  started : p.current * p.geometry.blocksPerSlice ≤ p.blocks.length
  short : p.blocks.length < (p.current + 1) * p.geometry.blocksPerSlice

theorem Keeps.length_live (h : w.Keeps rs p) : w.live.length = p.current - p.floor := by
  rw [h.live, List.length_map, List.length_range']

theorem keeps_new (h : Window.new g = .ok w) : w.Keeps rs (.new g) ∧ Open (.new g) := by
  obtain ⟨haccepted, hcodec, heq⟩ := new_window h
  have hpos := g.blocksPerSlice_pos
  constructor
  · rw [heq] at hcodec ⊢
    constructor <;> first
      | exact haccepted
      | exact hcodec
      | simp [Pushes.new, Pushes.current, Pushes.floor, Slice.empty]
  · constructor
    · simp [Pushes.new, Pushes.current]
    · simpa [Pushes.new, Pushes.current] using hpos

theorem Keeps.cover (h : w.Keeps rs p) (wanted : ℕ) : (w.cover wanted).Keeps rs (p.cover wanted) := by
  have hwanted : min wanted w.geometry.parityPerSlice = min wanted p.geometry.parityPerSlice := by
    rw [h.geometry]
  exact ⟨h.geometry, h.accepted, h.codec, hwanted, Nat.min_le_right .., h.current, h.opened,
    h.widths_le, h.width, h.live, h.floor_le, h.parities, h.data, h.parity, h.few, h.room⟩

theorem Keeps.retain (h : w.Keeps rs p) (v : ℕ) : (w.retainFrom v).Keeps rs (p.retain v) := by
  have hfloor := p.floor_retain v
  have hle := h.floor_le
  have hcurrent : (p.retain v).current = p.current := rfl
  have hlive : (w.retainFrom v).live =
      (List.range' (p.retain v).floor (p.current - (p.retain v).floor)).map (sealedAs rs p) := by
    rw [hfloor, Window.retainFrom]
    simp only
    conv_lhs => rw [h.live]
    rw [dropWhile_range' _ (fun _ => rfl)]
    congr 2 <;> omega
  have hfew := h.few
  refine ⟨h.geometry, h.accepted, h.codec, h.wanted, h.wanted_le, h.current, h.opened,
    h.widths_le, h.width, hlive, ?_, h.parities, h.data, h.parity, ?_, fun hne => ?_⟩
  · rw [hfloor, hcurrent]
    omega
  · rw [hfloor, hcurrent]
    exact (by omega : _ ≤ _).trans hfew
  · have := h.room hne
    rw [hfloor, hcurrent]
    exact (by omega : _ ≤ _).trans_lt this

/-- A block put into the slice being filled changes none of those sealed. -/
theorem sealedAs_put (hstarted : p.current * p.geometry.blocksPerSlice ≤ p.blocks.length)
    (payload : Bytes) {k : ℕ} (hk : k < p.current) :
    sealedAs rs (p.put payload) k = sealedAs rs p k := by
  have hle : (k + 1) * p.geometry.blocksPerSlice ≤ p.blocks.length :=
    (Nat.mul_le_mul_right _ hk).trans hstarted
  have hslice : (p.put payload).slice k = p.slice k := by
    apply List.ext_getElem?
    intro i
    simp only [Pushes.slice, Pushes.put, Chunks.getElem?_chunk]
    split_ifs with hi
    · rw [Nat.succ_mul] at hle
      exact List.getElem?_append_left (by omega)
    · rfl
  unfold sealedAs Pushes.parity
  rw [hslice]
  rfl

/-- The next width is written down behind those of the slices there are. -/
theorem sealedAs_opened {k : ℕ} (hk : k < p.widths.length) :
    sealedAs rs p.opened k = sealedAs rs p k := by
  have hwidth : p.opened.widths.getD k 0 = p.widths.getD k 0 := by
    rw [List.getD_eq_getElem?_getD, List.getD_eq_getElem?_getD, Pushes.opened,
      List.getElem?_append_left hk]
  unfold sealedAs Pushes.parity
  rw [hwidth]
  rfl

theorem Keeps.put (h : w.Keeps rs p)
    (hstarted : p.current * p.geometry.blocksPerSlice ≤ p.blocks.length)
    (hroom : p.current - p.floor < p.geometry.maxLiveSlices) (payload : Bytes) :
    Keeps rs (p.put payload)
      { w with current := { w.current with data := w.current.data ++ [payload] } } := by
  have hkept {k : ℕ} (hk : k < p.current) : sealedAs rs (p.put payload) k = sealedAs rs p k :=
    sealedAs_put hstarted payload hk
  constructor
  case live =>
    refine h.live.trans (List.map_congr_left fun k hk => (hkept ?_).symm)
    have := List.mem_range'_1.mp hk
    have := h.floor_le
    omega
  case parities =>
    intro k hk
    have hparity : (p.put payload).parity rs k = p.parity rs k := congrArg Slice.parity (hkept hk)
    rw [hparity]
    exact h.parities k hk
  case data =>
    exact (congrArg (· ++ [payload]) h.data).trans (List.drop_append_of_le_length hstarted).symm
  case room => exact fun _ => hroom
  case geometry => exact h.geometry
  case accepted => exact h.accepted
  case codec => exact h.codec
  case wanted => exact h.wanted
  case wanted_le => exact h.wanted_le
  case current => exact h.current
  case opened => exact h.opened
  case widths_le => exact h.widths_le
  case width => exact h.width
  case floor_le => exact h.floor_le
  case parity => exact h.parity
  case few => exact h.few

/-- Sealing a slice with a block in it adds it to those the pushes say are sealed. -/
theorem Keeps.seal (h : w.Keeps rs p) (hne : w.current.data ≠ [])
    (hshort : p.blocks.length ≤ (p.current + 1) * p.geometry.blocksPerSlice) {r : Option Sealed}
    (hs : w.sealSlice rs = .ok (r, w')) : w'.Keeps rs p.opened := by
  have hdata : w.current.data = p.slice p.current := by
    rw [h.data, Pushes.slice, Chunks.chunk, List.take_of_length_le]
    rw [List.length_drop]
    rw [Nat.succ_mul] at hshort
    omega
  obtain ⟨parity, w₁, hencode, -, rfl, rfl⟩ := (sealSlice_eq_ok hne).mp hs
  have hle : w.current.parityWidth ≤ w.geometry.parityPerSlice := by
    rw [h.geometry]
    exact h.widths_le _ (List.mem_of_getElem? h.width)
  obtain ⟨hparity, hlen, hcodec, codec, width, rfl⟩ :=
    encodeParity_eq_ok h.codec (h.geometry ▸ h.accepted) hle hencode
  have hcurrent : p.opened.current = p.current + 1 := Pushes.current_opened h.opened
  have hgetD : p.widths.getD p.current 0 = w.current.parityWidth := by
    rw [List.getD_eq_getElem?_getD, h.width]
    rfl
  have hkept {k : ℕ} (hk : k < p.current + 1) : sealedAs rs p.opened k = sealedAs rs p k :=
    sealedAs_opened (by rw [h.opened]; exact hk)
  have hlast : { w.current with parity := parity } = sealedAs rs p p.current := by
    have : p.parity rs p.current = parity := by
      rw [hparity, Pushes.parity, hgetD, hdata, h.geometry]
    unfold sealedAs
    rw [this, hgetD, ← hdata, ← h.current]
  have hfloor : p.opened.floor = p.floor := rfl
  have hfloor_le := h.floor_le
  constructor
  case geometry => exact h.geometry
  case accepted => exact h.accepted
  case codec => exact hcodec
  case wanted => exact h.wanted
  case wanted_le => exact h.wanted_le
  case current => simp [Slice.empty, hcurrent, h.current]
  case opened =>
    rw [hcurrent, ← h.opened]
    exact List.length_append
  case widths_le =>
    intro width hmem
    rcases List.mem_append.mp hmem with hmem | hmem
    · exact h.widths_le width hmem
    · rw [List.mem_singleton.mp hmem]
      exact h.wanted_le
  case width =>
    rw [hcurrent, ← h.opened]
    exact List.getElem?_concat_length.trans (congrArg some h.wanted.symm)
  case live =>
    have hsplit : p.current + 1 - p.floor = p.current - p.floor + 1 := by omega
    simp only
    rw [hcurrent, hfloor, hsplit, List.range'_concat, List.map_append, List.map_singleton,
      Nat.one_mul, Nat.add_sub_cancel' hfloor_le, hkept (Nat.lt_succ_self _), hlast]
    refine congrArg (· ++ _) (h.live.trans (List.map_congr_left fun k hk => (hkept ?_).symm))
    have := List.mem_range'_1.mp hk
    omega
  case floor_le => rw [hcurrent, hfloor]; omega
  case parities =>
    intro k hk
    rw [hcurrent] at hk
    have hparity : p.opened.parity rs k = p.parity rs k := congrArg Slice.parity (hkept hk)
    have hwidth : p.opened.widths.getD k 0 = p.widths.getD k 0 :=
      congrArg Slice.parityWidth (hkept hk)
    rw [hparity, hwidth]
    rcases Nat.lt_or_eq_of_le (Nat.le_of_lt_succ hk) with hk | rfl
    · exact h.parities k hk
    · rw [hgetD, ← hlen]
      exact congrArg (fun s : Slice => s.parity.length) hlast.symm
  case data =>
    rw [hcurrent]
    exact (List.drop_eq_nil_iff.mpr hshort).symm
  case parity => rfl
  case few =>
    have := h.room hne
    rw [hcurrent, hfloor]
    exact (by omega : _ ≤ p.current - p.floor + 1).trans this
  case room => exact fun hne => absurd rfl hne

theorem Keeps.push (h : w.Keeps rs p) (ho : Open p) (hroom : w.isFull = false) {payload : Bytes}
    {r : Pushed} (hok : w.push rs payload = .ok (r, w')) :
    w'.Keeps rs (p.push payload) ∧ Open (p.push payload) := by
  have hshort := ho.short
  have hstarted := ho.started
  have hfree : p.current - p.floor < p.geometry.maxLiveSlices := by
    unfold isFull at hroom
    rw [decide_eq_false_iff_not, h.length_live, h.geometry] at hroom
    omega
  have hput := h.put hstarted hfree payload
  have hlen : (w.current.data ++ [payload]).length =
      p.blocks.length - p.current * p.geometry.blocksPerSlice + 1 := by
    rw [List.length_append, List.length_singleton, h.data, List.length_drop]
  have hblocks : (p.put payload).blocks.length = p.blocks.length + 1 := List.length_append
  unfold Window.push at hok
  unfold Pushes.push
  dsimp only at hok
  rw [Nat.succ_mul] at hshort ⊢
  split_ifs at hok with hfull
  all_goals rw [hlen, h.geometry] at hfull
  · rw [if_pos (by omega)]
    obtain ⟨⟨sealedSlice, w₂⟩, hs, hok⟩ := bind_ok_iff.mp hok
    simp only [Except.ok.injEq, Prod.mk.injEq] at hok
    obtain ⟨-, rfl⟩ := hok
    have hend : (p.put payload).blocks.length =
        ((p.put payload).current + 1) * (p.put payload).geometry.blocksPerSlice := by
      rw [hblocks, Nat.succ_mul]
      exact (by omega : p.blocks.length + 1 =
        p.current * p.geometry.blocksPerSlice + p.geometry.blocksPerSlice)
    have hseal := hput.seal (by simp) hend.le hs
    have hcurrent : (p.put payload).opened.current = (p.put payload).current + 1 :=
      Pushes.current_opened h.opened
    refine ⟨hseal, ?_, ?_⟩
    · rw [hcurrent]
      exact hend.ge
    · have hpos := p.geometry.blocksPerSlice_pos
      rw [hcurrent, Nat.succ_mul]
      exact hend.trans_lt (Nat.lt_add_of_pos_right hpos)
  · rw [if_neg (by omega)]
    simp only [Except.ok.injEq, Prod.mk.injEq] at hok
    obtain ⟨-, rfl⟩ := hok
    refine ⟨hput, ?_, ?_⟩
    · rw [hblocks]
      exact hstarted.trans (Nat.le_succ _)
    · rw [hblocks, Nat.succ_mul]
      exact (by omega : p.blocks.length + 1 <
        p.current * p.geometry.blocksPerSlice + p.geometry.blocksPerSlice)

/-- A window with room takes every block of the size of the transfer while there are numbers
left for its slices. -/
theorem Keeps.exists_push (h : w.Keeps rs p) {payload : Bytes}
    (hsize : ∀ block ∈ p.blocks ++ [payload], block.length = p.geometry.blockSize)
    (hlt : p.current + 1 < 2 ^ 32) : ∃ r, w.push rs payload = .ok r := by
  unfold Window.push
  dsimp only
  split_ifs
  · have hle : w.current.parityWidth ≤ w.geometry.parityPerSlice := by
      rw [h.geometry]
      exact h.widths_le _ (List.mem_of_getElem? h.width)
    have hdata : ∀ block ∈ w.current.data ++ [payload], block.length = w.geometry.blockSize := by
      intro block hmem
      rw [h.data] at hmem
      rw [h.geometry]
      apply hsize
      rcases List.mem_append.mp hmem with hmem | hmem
      · exact List.mem_append_left _ (List.mem_of_mem_drop hmem)
      · exact List.mem_append_right _ hmem
    obtain ⟨r, hseal⟩ : ∃ r, Window.sealSlice rs
        { w with current := { w.current with data := w.current.data ++ [payload] } } = .ok r :=
      exists_sealSlice h.codec (h.geometry ▸ h.accepted) hle hdata (by simpa [h.current] using hlt)
    rw [hseal]
    exact ⟨_, rfl⟩
  · exact ⟨_, rfl⟩

/-- The seal at the end closes the slice being filled, or none if it is empty. -/
theorem Keeps.close (h : w.Keeps rs p) (ho : Open p) {r : Option Sealed}
    (hs : w.sealSlice rs = .ok (r, w')) : w'.Keeps rs p.close := by
  have hstarted := ho.started
  unfold Pushes.close
  by_cases hnil : w.current.data = []
  · have hle : p.blocks.length ≤ p.current * p.geometry.blocksPerSlice := by
      rw [h.data] at hnil
      exact List.drop_eq_nil_iff.mp hnil
    rw [sealSlice_of_nil hnil] at hs
    cases hs
    rw [if_pos (le_antisymm hle hstarted)]
    exact h
  · have hne : p.blocks.length ≠ p.current * p.geometry.blocksPerSlice := by
      intro heq
      rw [h.data] at hnil
      exact hnil (List.drop_eq_nil_iff.mpr heq.le)
    rw [if_neg hne]
    exact h.seal hnil ho.short.le hs

end Window

/-- A window, what was done to it, and whether the input has ended. -/
structure Filling where
  window : Window
  pushes : Pushes
  closed : Bool

namespace Filling

open Window

/-- A call on the window. -/
inductive Call where
  | push (payload : Bytes)
  | cover (wanted : ℕ)
  | retainFrom (firstNeeded : ℕ)
  | sealSlice

/-- A full window takes no block, and after the last slice was sealed it takes none either. -/
def next (rs : ReedSolomon) : Call → Filling → Option Filling
  | .push payload, s =>
    if s.closed || s.window.isFull then none
    else match s.window.push rs payload with
      | .ok (_, w) => some { s with window := w, pushes := s.pushes.push payload }
      | .error _ => none
  | .cover wanted, s =>
    some { s with window := s.window.cover wanted, pushes := s.pushes.cover wanted }
  | .retainFrom v, s =>
    some { s with window := s.window.retainFrom v, pushes := s.pushes.retain v }
  | .sealSlice, s =>
    if s.closed then none
    else match s.window.sealSlice rs with
      | .ok (_, w) => some ⟨w, s.pushes.close, true⟩
      | .error _ => none

/-- The calls on the window of a transfer, in any order. -/
def calls (rs : ReedSolomon) (g : Geometry) : Labelled.System Filling Call where
  init s := Window.new g = .ok s.window ∧ s.pushes = .new g ∧ s.closed = false
  next := next rs

variable {rs : ReedSolomon} {g : Geometry} {s s' : Filling} {c : Call}

/-- What the window keeps is what the pushes say; every slice is whole but the one being filled,
and one sealed at the end. -/
structure Sound (rs : ReedSolomon) (g : Geometry) (s : Filling) : Prop where
  geometry : s.pushes.geometry = g
  keeps : s.window.Keeps rs s.pushes
  whole : ∀ k < s.pushes.current, (k + 1) * g.blocksPerSlice ≤ s.pushes.blocks.length ∨
    s.closed = true ∧ k + 1 = s.pushes.current
  filling : s.closed = false → Open s.pushes

theorem sound_init (h : (calls rs g).init s) : s.Sound rs g := by
  obtain ⟨hnew, hpushes, hclosed⟩ := h
  obtain ⟨hkeeps, hopen⟩ : s.window.Keeps rs (.new g) ∧ Open (.new g) := keeps_new hnew
  rw [← hpushes] at hkeeps hopen
  refine ⟨by rw [hpushes]; rfl, hkeeps, ?_, fun _ => hopen⟩
  intro k hk
  rw [hpushes] at hk
  exact absurd hk (Nat.not_lt_zero k)

theorem Sound.push (h : s.Sound rs g) {payload : Bytes}
    (hn : Filling.next rs (.push payload) s = some s') : s'.Sound rs g := by
  unfold Filling.next at hn
  dsimp only at hn
  split_ifs at hn with hshut
  rw [Bool.or_eq_true, not_or, Bool.not_eq_true, Bool.not_eq_true] at hshut
  split at hn
  · next r w hok =>
    cases hn
    obtain ⟨hkeeps, hopen⟩ := h.keeps.push (h.filling hshut.1) hshut.2 hok
    have hgeometry : (s.pushes.push payload).geometry = g := by
      rw [← h.geometry]
      unfold Pushes.push
      split_ifs <;> rfl
    refine ⟨hgeometry, hkeeps, fun k hk => .inl ?_, fun _ => hopen⟩
    have hstarted := hopen.started
    rw [hgeometry] at hstarted
    exact (Nat.mul_le_mul_right _ hk).trans hstarted
  · cases hn

theorem Sound.sealSlice (h : s.Sound rs g) (hn : Filling.next rs .sealSlice s = some s') :
    s'.Sound rs g := by
  unfold Filling.next at hn
  dsimp only at hn
  split_ifs at hn with hshut
  split at hn
  · next r w hok =>
    cases hn
    have hopen := h.filling (Bool.eq_false_iff.mpr hshut)
    have hgeometry : s.pushes.close.geometry = g := by
      rw [← h.geometry]
      unfold Pushes.close
      split_ifs <;> rfl
    refine ⟨hgeometry, h.keeps.close hopen hok, fun k hk => ?_, fun hfalse => by cases hfalse⟩
    unfold Pushes.close at hk ⊢
    split_ifs at hk ⊢
    · exact (h.whole k hk).imp_right fun hlast => absurd hlast.1 hshut
    · rw [Pushes.current_opened h.keeps.opened] at hk ⊢
      rcases Nat.lt_or_eq_of_le (Nat.le_of_lt_succ hk) with hk | rfl
      · exact (h.whole k hk).imp_right fun hlast => absurd hlast.1 hshut
      · exact .inr ⟨rfl, rfl⟩
  · cases hn

theorem Sound.next {c : Call} (h : s.Sound rs g) (hn : Filling.next rs c s = some s') :
    s'.Sound rs g := by
  cases c with
  | push payload => exact h.push hn
  | cover wanted =>
    cases hn
    exact ⟨h.geometry, h.keeps.cover wanted, h.whole,
      fun hc => ⟨(h.filling hc).started, (h.filling hc).short⟩⟩
  | retainFrom v =>
    cases hn
    exact ⟨h.geometry, h.keeps.retain v, h.whole,
      fun hc => ⟨(h.filling hc).started, (h.filling hc).short⟩⟩
  | sealSlice => exact h.sealSlice hn

theorem sound_of_reachable (h : Labelled.Reachable (calls rs g) s) : s.Sound rs g :=
  h.invariant (fun _ h0 => sound_init h0) fun _ _ _ _ hs hn => hs.next hn

/-- The window as a view of the blocks pushed: which slices it has, and what it serves of them. -/
structure Refines (rs : ReedSolomon) (g : Geometry) (s : Filling) : Prop where
  geometry : s.window.geometry = g
  filling : s.window.current.sliceNo = s.pushes.current
  live_le : s.window.live.length ≤ s.pushes.current
  numbered : s.window.live.map Slice.sliceNo =
    List.range' (s.pushes.current - s.window.live.length) s.window.live.length
  few : s.window.live.length ≤ g.maxLiveSlices
  whole : ∀ slice ∈ s.window.live, slice.data.length = g.blocksPerSlice ∨
    s.closed = true ∧ slice.sliceNo + 1 = s.pushes.current
  shard : ∀ k slot, s.window.shard k slot = s.pushes.shard rs k slot
  width_le : ∀ k ≤ s.pushes.current, ∃ width ≤ g.parityPerSlice,
    s.pushes.widths[k]? = some width ∧
      (k < s.pushes.current → (s.pushes.parity rs k).length = width)

theorem Sound.shard (h : s.Sound rs g) (k slot : ℕ) :
    s.window.shard k slot = s.pushes.shard rs k slot := by
  have hkeeps := h.keeps
  unfold Window.shard Window.slice Pushes.shard
  rw [hkeeps.current, hkeeps.geometry, hkeeps.live, find?_range' _ (fun _ => rfl),
    Nat.add_sub_cancel' hkeeps.floor_le]
  by_cases hk : s.pushes.current = k
  · subst hk
    simp [hkeeps.data, hkeeps.parity]
  · rw [if_neg hk]
    have hiff : (s.pushes.floor ≤ k ∧ k < s.pushes.current) ↔
        (k = s.pushes.current ∨ k < s.pushes.current ∧ s.pushes.Needed k) := by
      rw [Pushes.needed_iff, or_iff_right (Ne.symm hk), and_comm]
    by_cases hlive : s.pushes.floor ≤ k ∧ k < s.pushes.current
    · rw [if_pos hlive, if_pos (hiff.mp hlive)]
      simp only [Option.bind_eq_bind, Option.bind_some, sealedAs, Pushes.slice]
      split_ifs with hslot
      · rw [Chunks.getElem?_chunk, if_pos hslot]
      · rfl
      · exact absurd hlive.2 ‹_›
    · rw [if_neg hlive, if_neg (mt hiff.mpr hlive)]
      rfl

theorem Sound.refines (h : s.Sound rs g) : s.Refines rs g := by
  have hkeeps := h.keeps
  have hfloor := hkeeps.floor_le
  constructor
  case geometry => exact hkeeps.geometry.trans h.geometry
  case filling => exact hkeeps.current
  case live_le =>
    rw [hkeeps.length_live]
    exact Nat.sub_le ..
  case numbered =>
    rw [hkeeps.length_live, Nat.sub_sub_self hfloor, hkeeps.live, List.map_map]
    exact List.map_id _
  case few =>
    rw [hkeeps.length_live, ← h.geometry]
    exact hkeeps.few
  case whole =>
    intro slice hslice
    rw [hkeeps.live] at hslice
    obtain ⟨k, hk, rfl⟩ := List.mem_map.mp hslice
    have hlt : k < s.pushes.current := by
      have := List.mem_range'_1.mp hk
      omega
    refine (h.whole k hlt).imp_left fun hle => ?_
    simp only [sealedAs, Pushes.slice]
    rw [h.geometry, Chunks.length_chunk]
    rw [Nat.succ_mul] at hle
    omega
  case shard => exact h.shard
  case width_le =>
    intro k hk
    have hlt : k < s.pushes.widths.length := by
      rw [hkeeps.opened]
      exact Nat.lt_succ_of_le hk
    refine ⟨s.pushes.widths[k], ?_, List.getElem?_eq_getElem hlt, fun hk => ?_⟩
    · rw [← h.geometry]
      exact hkeeps.widths_le _ (List.getElem_mem hlt)
    · rw [hkeeps.parities k hk, List.getD_eq_getElem?_getD, List.getElem?_eq_getElem hlt]
      rfl

/-- Whatever is pushed, covered and retained, in any order and up to the seal at the end: the
window serves what the plain list of the blocks has at these places. Until then it takes every
block of the right size that there is room and a number for. -/
theorem window_refines_pushes (h : Labelled.Reachable (calls rs g) s) : s.Refines rs g ∧
    ∀ payload, s.closed = false → s.window.isFull = false →
      (∀ block ∈ s.pushes.blocks ++ [payload], block.length = g.blockSize) →
        s.pushes.current + 1 < 2 ^ 32 → ∃ s', Filling.next rs (.push payload) s = some s' := by
  have hsound := sound_of_reachable h
  refine ⟨hsound.refines, fun payload hopen hroom hsize hlt => ?_⟩
  rw [← hsound.geometry] at hsize
  obtain ⟨r, hok⟩ := hsound.keeps.exists_push hsize hlt
  refine ⟨{ s with window := r.2, pushes := s.pushes.push payload }, ?_⟩
  simp [Filling.next, hopen, hroom, hok]

/-- Of two slices the first is let go of, and then nothing more of it. The second was opened with
one parity block only, and has one when it is sealed with half its blocks. -/
theorem window_refines_pushes_narrowed : ∃ s parity,
    Labelled.Reachable (calls .interpolated (.of 2 2 2 2)) s ∧
    s.pushes.blocks = [[1, 2], [3, 4], [5, 6]] ∧ s.Refines .interpolated (.of 2 2 2 2) ∧
    s.window.shard 0 1 = none ∧ s.window.shard 0 2 = none ∧ s.window.shard 1 0 = some [5, 6] ∧
    ReedSolomon.interpolated.recovery 2 1 [[5, 6], [0, 0]] = [parity] ∧
    s.window.shard 1 2 = some parity := by
  let run : List Call :=
    [.push [1, 2], .cover 1, .push [3, 4], .push [5, 6], .retainFrom 1, .sealSlice]
  obtain ⟨w, hnew⟩ : ∃ w, Window.new (.of 2 2 2 2) = .ok w := ⟨_, rfl⟩
  obtain ⟨s, hrun, hpushes⟩ : ∃ s, Labelled.exec (calls .interpolated (.of 2 2 2 2)) run
      ⟨w, .new (.of 2 2 2 2), false⟩ = some s ∧
        (s.pushes.geometry, s.pushes.blocks, s.pushes.widths, s.pushes.retained) =
          (.of 2 2 2 2, [[1, 2], [3, 4], [5, 6]], [2, 1, 1], [(1, 1)]) := by
    cases hnew
    apply Option.map_eq_some_iff.mp
    decide +kernel
  simp only [Prod.mk.injEq] at hpushes
  obtain ⟨hgeometry, hblocks, hwidths, hretained⟩ := hpushes
  have hreach : Labelled.Reachable (calls .interpolated (.of 2 2 2 2)) s :=
    .exec (.start ⟨hnew, rfl, rfl⟩) hrun
  have hrefines := (window_refines_pushes hreach).1
  obtain ⟨parity, hparity⟩ : ∃ parity,
      ReedSolomon.interpolated.recovery 2 1 [[5, 6], [0, 0]] = [parity] := by
    apply List.length_eq_one_iff.mp
    apply ReedSolomon.interpolated.length_recovery (b := 2)
    · decide
    · rfl
    · simp
  have hgone (slot : ℕ) : s.window.shard 0 slot = none := by
    rw [hrefines.shard]
    simp [Pushes.shard, Pushes.current, Pushes.Needed, hwidths, hretained]
  have hkept : s.window.shard 1 0 = some [5, 6] := by
    rw [hrefines.shard]
    simp [Pushes.shard, Pushes.current, Pushes.Needed, hgeometry, hblocks, hwidths, hretained]
  have hslice : s.pushes.slice 1 = [[5, 6]] := by
    rw [Pushes.slice, hgeometry, hblocks]
    rfl
  have hcoded : s.pushes.parity .interpolated 1 = [parity] := by
    rw [Pushes.parity, hslice, hgeometry, hwidths, ← hparity]
    rfl
  have hshard : s.window.shard 1 2 = some parity := by
    rw [hrefines.shard]
    simp [Pushes.shard, Pushes.current, Pushes.Needed, hgeometry, hwidths, hretained, hcoded]
  exact ⟨s, parity, hreach, hblocks, hrefines, hgone 1, hgone 2, hkept, hparity, hshard⟩

end Filling
end Scuttlecast
