import Scuttlecast.Sender.Tracking
import Scuttlecast.Receiver.Release
import Scuttlecast.Interpolated
import Scuttlecast.Library.Labelled

/-! From the window that codes to the assembler that decodes: any enough shards of a slice give
its blocks back, whatever the widths and the order. The slots of a slice have to fit sixteen bits,
and the slices with the receive window above them thirty-two. -/
namespace Scuttlecast

namespace Window

variable {rs : ReedSolomon} {L : Ledger} {w w' : Window} {p : ℕ}

/-- What is done to the window while it fills. -/
inductive Call where
  | push (block : Bytes)
  | cover (wanted : ℕ)
  deriving DecidableEq, Repr

def Call.block? : Call → Option Bytes
  | .push block => some block
  | .cover _ => none

/-- The blocks pushed by the calls. -/
def pushes (calls : List Call) : List Bytes := calls.filterMap Call.block?

/-- The calls in order, and a last `seal`. -/
def fill (rs : ReedSolomon) : List Call → Window → Except Panic Window
  | [], w => do
    let (_, w) ← w.sealSlice rs
    .ok w
  | .push block :: rest, w => do
    let (_, w) ← w.push rs block
    fill rs rest w
  | .cover wanted :: rest, w => fill rs rest (w.cover wanted)

/-- The window is at the start of its next block, with nothing dropped yet. -/
structure Filling (rs : ReedSolomon) (L : Ledger) (p : ℕ) (w : Window) : Prop where
  tracks : w.Tracks rs L p
  base : w.base = 0
  short : w.current.data.length < L.geometry.blocksPerSlice
  bound : w.current.sliceNo < 2 ^ 32

/-- One more block, of a ledger that may have grown by the slice it opens. -/
theorem Filling.push (h : w.Filling rs L p) {payload : Bytes}
    (hp : L.blocks[p]? = some payload) {r : Pushed} (hok : w.push rs payload = .ok (r, w')) :
    ∃ L', L.Grows L' ∧ w'.Filling rs L' (p + 1) := by
  have hpos := L.geometry.blocksPerSlice_pos
  obtain ⟨_, _, hbase, hcase⟩ := h.tracks.push hp h.short hok
  rcases hcase with ⟨_, hno, hshort, htracks⟩ | ⟨_, _, hlt, _, hnil, htracks⟩
  · exact ⟨L, .refl L, htracks, hbase.trans h.base, hshort, hno ▸ h.bound⟩
  · exact ⟨_, .opened h.tracks.wanted, htracks, hbase.trans h.base, by simpa [hnil] using hpos, hlt⟩

/-- A window closed over all the blocks of the ledger, with all of its slices live. -/
structure Filled (rs : ReedSolomon) (L : Ledger) (w : Window) : Prop where
  tracks : w.Tracks rs L L.blocks.length
  base : w.base = 0
  sliceNo : w.current.sliceNo = L.slices
  data : w.current.data = []
  bound : L.slices < 2 ^ 32

/-- The last `seal` closes the window. -/
theorem Filling.close (h : w.Filling rs L L.blocks.length) {r : Option Sealed}
    (hok : w.sealSlice rs = .ok (r, w')) : ∃ L', L.Grows L' ∧ w'.Filled rs L' := by
  by_cases hnil : w.current.data = []
  · rw [sealSlice_of_nil hnil] at hok
    obtain ⟨_, rfl⟩ := Prod.mk.inj (Except.ok.inj hok)
    have hno := h.tracks.sliceNo_eq hnil
    exact ⟨L, .refl L, h.tracks, h.base, hno, hnil, hno ▸ h.bound⟩
  · have hdata := h.tracks.data_eq_slice (.inr rfl)
    obtain ⟨_, hno, hbase, hlt, hnil', htracks⟩ := h.tracks.sealSlice hnil hdata hok
    have hslices := htracks.sliceNo_eq hnil'
    exact ⟨_, .opened h.tracks.wanted, htracks, hbase.trans h.base, hslices, hnil',
      hslices ▸ hlt⟩

theorem getElem?_of_drop_cons {xs rest : List Bytes} {p : ℕ} {x : Bytes}
    (h : xs.drop p = x :: rest) : xs[p]? = some x ∧ xs.drop (p + 1) = rest := by
  constructor
  · rw [← Nat.add_zero p, ← List.getElem?_drop, h]
    rfl
  · rw [← List.drop_drop, h]
    rfl

/-- The calls that are left, from a window before the first of their blocks. -/
theorem Filling.fill (h : w.Filling rs L p) {calls : List Call}
    (hcalls : L.blocks.drop p = pushes calls) (hok : w.fill rs calls = .ok w') :
    ∃ L', L'.geometry = L.geometry ∧ L'.blocks = L.blocks ∧ w'.Filled rs L' := by
  induction calls generalizing w L p with
  | nil =>
    have hp : p = L.blocks.length := by
      have hle := List.drop_eq_nil_iff.mp hcalls
      exact Nat.le_antisymm h.tracks.pushed_le hle
    subst hp
    obtain ⟨⟨r, w₁⟩, hseal, hok⟩ := bind_ok_iff.mp hok
    obtain ⟨L', hgrows, hfilled⟩ := h.close hseal
    exact ⟨L', hgrows.geometry, hgrows.blocks, Except.ok.inj hok ▸ hfilled⟩
  | cons call rest ih =>
    cases call with
    | push block =>
      obtain ⟨⟨r, w₁⟩, hpush, hok⟩ := bind_ok_iff.mp hok
      obtain ⟨hp, hrest⟩ := getElem?_of_drop_cons hcalls
      obtain ⟨L₁, hgrows, h₁⟩ := h.push hp hpush
      obtain ⟨L', hgeometry, hblocks, hfilled⟩ := ih h₁ (hgrows.blocks ▸ hrest) hok
      exact ⟨L', hgeometry.trans hgrows.geometry, hblocks.trans hgrows.blocks, hfilled⟩
    | cover wanted =>
      exact ih (w := w.cover wanted) ⟨h.tracks.cover wanted, h.base, h.short, h.bound⟩ hcalls hok

theorem Filling.exists_push (h : w.Filling rs L p) {payload : Bytes}
    (hp : L.blocks[p]? = some payload) (hlt : L.slices < 2 ^ 32) :
    ∃ r w', w.push rs payload = .ok (r, w') := by
  obtain ⟨hle, -⟩ := h.tracks.put hp h.short
  have hno : w.current.sliceNo < L.slices :=
    Ledger.lt_slices_iff.mpr (hle.trans_lt (List.getElem?_eq_some_iff.mp hp).1)
  exact h.tracks.exists_push hp h.short (by omega)

theorem Filling.exists_seal (h : w.Filling rs L p) (hp : L.blocks.length ≤ p)
    (hlt : L.slices < 2 ^ 32) : ∃ r w', w.sealSlice rs = .ok (r, w') := by
  obtain rfl : p = L.blocks.length := Nat.le_antisymm h.tracks.pushed_le hp
  by_cases hnil : w.current.data = []
  · exact ⟨_, _, if_pos hnil⟩
  · have hlen := h.tracks.length_data
    have hpos := List.length_pos_iff.mpr hnil
    have hno : w.current.sliceNo < L.slices := Ledger.lt_slices_iff.mpr (by omega)
    exact h.tracks.exists_sealSlice (h.tracks.data_eq_slice (.inr rfl)) (by omega)

/-- With numbers enough for all the slices, no call dies. -/
theorem Filling.exists_fill (h : w.Filling rs L p) {calls : List Call}
    (hcalls : L.blocks.drop p = pushes calls) (hlt : L.slices < 2 ^ 32) :
    ∃ w', w.fill rs calls = .ok w' := by
  induction calls generalizing w L p with
  | nil =>
    obtain ⟨r, w', hseal⟩ := h.exists_seal (List.drop_eq_nil_iff.mp hcalls) hlt
    exact ⟨w', by rw [Window.fill, hseal]; rfl⟩
  | cons call rest ih =>
    cases call with
    | push block =>
      obtain ⟨hp, hrest⟩ := getElem?_of_drop_cons hcalls
      obtain ⟨r, w₁, hpush⟩ := h.exists_push hp hlt
      obtain ⟨L₁, hgrows, h₁⟩ := h.push hp hpush
      obtain ⟨w', hfill⟩ := ih h₁ (hgrows.blocks ▸ hrest) (hgrows.slices ▸ hlt)
      exact ⟨w', by rw [Window.fill, hpush]; exact hfill⟩
    | cover wanted =>
      exact ih (w := w.cover wanted) ⟨h.tracks.cover wanted, h.base, h.short, h.bound⟩ hcalls hlt

theorem Filled.live_eq (h : w.Filled rs L) :
    w.live = (List.range L.slices).map (sealedSlice rs L) := by
  have hlen := h.tracks.base_add
  rw [h.base, h.sliceNo, Nat.zero_add] at hlen
  rw [h.tracks.live, h.base, hlen, List.range_eq_range']

/-- A closed window gives out every shard of the ledger, and no other. -/
theorem Filled.shard_eq (h : w.Filled rs L) (k slot : ℕ) :
    w.shard k slot = L.shard rs k slot := by
  by_cases hk : k < L.slices
  · exact h.tracks.shard_of_sealed (by rw [h.base]; exact Nat.zero_le k) (by rwa [h.sliceNo]) slot
  · have hnone : L.shard rs k slot = none := by
      rw [Option.eq_none_iff_forall_ne_some]
      exact fun payload hp => hk (Ledger.lt_slices_of_shard hp)
    rw [hnone, Window.shard, h.tracks.slice_eq, h.sliceNo]
    by_cases hc : k = L.slices
    · rw [if_pos hc]
      simp [h.data, h.tracks.parity]
    · rw [if_neg hc, if_neg (by omega)]
      rfl

theorem Filled.sliceParity_eq (h : w.Filled rs L) {k : ℕ} (hk : k < L.slices) :
    w.sliceParity k = L.widths[k]? :=
  h.tracks.sliceParity_eq (by rw [h.base]; exact Nat.zero_le k) (by rw [h.sliceNo]; omega)

end Window

namespace Assembler

variable {rs : ReedSolomon} {L : Ledger} {a a' : Assembler} {s : Slice} {k slot w : ℕ}
variable {payload : Bytes} {taken : Bool}

/-- As many different slots as are held. -/
theorem Slice.length_le_countP {slots : List ℕ} (hnodup : slots.Nodup)
    (hheld : ∀ slot ∈ slots, (s.payload slot).isSome) :
    slots.length ≤ s.slots.countP (·.isSome) := by
  have hsub : slots ⊆ (List.range s.slots.length).filter fun slot => (s.payload slot).isSome := by
    intro slot hslot
    have hsome := hheld slot hslot
    refine List.mem_filter.mpr ⟨List.mem_range.mpr ?_, hsome⟩
    by_contra hle
    simp [Slice.payload_of_le (Nat.le_of_not_lt hle)] at hsome
  have hle := (hnodup.subperm hsub).length_le
  rw [← List.countP_eq_length_filter] at hle
  exact hle.trans_eq (by rw [← List.take_length (l := s.slots), ← held_slots]; simp [held, Slice.payload])

theorem has_iff : a.has k slot ↔
    ∃ s, a.slices.lookup k = some s ∧ (s.payload slot).isSome := by
  simp only [has, Option.any_eq_true]

/-- An insertion loses no shard. -/
theorem has_of_insert (hi : a.insert k slot w payload = .ok (taken, a')) {k' slot' : ℕ}
    (h : a.has k' slot') : a'.has k' slot' := by
  rcases insert_eq_ok hi with ⟨_, rfl, _⟩ | ⟨_, _, s', hs', rfl⟩
  · exact h
  obtain ⟨s, hs, hheld⟩ := has_iff.mp h
  rw [has_iff]
  simp only [Table.lookup_insert']
  by_cases hk : k' = k
  · subst hk
    have hslice : a.sliceFor k' = s := by simp [Assembler.sliceFor, hs]
    rw [hslice] at hs'
    refine ⟨s', if_pos rfl, ?_⟩
    cases taken with
    | false => rwa [(Slice.insert_eq_false hs').1]
    | true =>
      rw [Slice.payload_insert hs']
      split_ifs
      · rfl
      · exact hheld
  · exact ⟨s, by rw [if_neg hk, hs], hheld⟩

/-- Inside the window a shard of the transfer is held once it is inserted. -/
theorem Holds.has_insert (h : a.Holds rs L) (hshard : L.shard rs k slot = some payload)
    (hw : L.widths[k]? = some w) (hi : a.insert k slot w payload = .ok (taken, a'))
    (hge : a.nextNeeded ≤ k) (hlt : k < a.nextNeeded + a.geometry.maxLiveSlices) :
    a'.has k slot := by
  cases taken with
  | false => exact has_of_insert hi (has_iff.mpr (h.refused_held hshard hw hi hge hlt))
  | true =>
    rcases insert_eq_ok hi with ⟨hfalse, _, _⟩ | ⟨_, _, s', hs', rfl⟩
    · exact absurd hfalse (by simp)
    · rw [has_iff]
      refine ⟨s', by simp, ?_⟩
      rw [Slice.payload_insert hs', if_pos rfl]
      rfl

/-- A release loses only the shards of the slices released. -/
theorem Released.has_iff {blocks : List Bytes} (h : Released rs a blocks a') :
    a'.has k slot ↔ a.has k slot ∧ ¬ (a.nextNeeded ≤ k ∧ k < a'.nextNeeded) := by
  rw [has, h.frame.2.2.2, has]
  split_ifs with hk <;> simp [hk]

end Assembler

/-- The receiving end: the assembler, the shards it was given while their slice was inside its
window, and the blocks it gave out. -/
structure Exchange where
  assembler : Assembler
  inserted : List (ℕ × ℕ)
  emitted : List Bytes

namespace Exchange

variable {rs : ReedSolomon} {L : Ledger} {w : Window} {x x' : Exchange} {k slot : ℕ}

inductive Call where
  | insert (sliceNo slot : ℕ)
  | done
  | takeReady
  deriving DecidableEq, Repr

/-- The slice is inside the receive window. -/
def Inside (x : Exchange) (sliceNo : ℕ) : Prop :=
  x.assembler.nextNeeded ≤ sliceNo ∧
    sliceNo < x.assembler.nextNeeded + x.assembler.geometry.maxLiveSlices

instance (x : Exchange) (sliceNo : ℕ) : Decidable (x.Inside sliceNo) := by
  unfold Inside
  infer_instance

def insert (x : Exchange) (sliceNo slot parityWidth : ℕ) (payload : Bytes) :
    Except Panic Exchange := do
  let (_, assembler) ← x.assembler.insert sliceNo slot parityWidth payload
  .ok { x with assembler := assembler, inserted := (sliceNo, slot) :: x.inserted }

def takeReady (rs : ReedSolomon) (x : Exchange) : Except Panic Exchange := do
  let (ready, assembler) ← x.assembler.takeReady rs
  .ok { x with assembler := assembler, emitted := x.emitted ++ ready }

/-- A call on the assembler: a shard that the window has, inside the receive window; the true
total; or `take_ready`. -/
def call (rs : ReedSolomon) (w : Window) (totalBlocks : ℕ) (x : Exchange) :
    Call → Option (Except Panic Exchange)
  | .insert sliceNo slot =>
    match w.shard sliceNo slot, w.sliceParity sliceNo with
    | some payload, some parityWidth =>
      if x.Inside sliceNo then some (x.insert sliceNo slot parityWidth payload) else none
    | _, _ => none
  | .done => some (.ok { x with assembler := x.assembler.onDone totalBlocks })
  | .takeReady => some (x.takeReady rs)

/-- All orders of calls on a new assembler. -/
def calls (rs : ReedSolomon) (w : Window) (totalBlocks : ℕ) (assembler : Assembler) :
    Labelled.System Exchange Call where
  init x := x = ⟨assembler, [], []⟩
  next c x :=
    match x.call rs w totalBlocks c with
    | some (.ok x) => some x
    | _ => none

/-- The size of the slice is settled: the total is known, a later slice has been seen, or all the
data slots a slice can have are there. -/
def Settled (x : Exchange) (sliceNo : ℕ) : Prop :=
  x.assembler.totalBlocks.isSome ∨ (∃ shard ∈ x.inserted, sliceNo < shard.1) ∨
    ∀ slot < x.assembler.geometry.blocksPerSlice, (sliceNo, slot) ∈ x.inserted

/-- What is asked of the receiving end: no call dies, what it gave out is the data of the slices
released, and any enough shards of the next slice, its size settled, release it. -/
structure Faithful (rs : ReedSolomon) (w : Window) (totalBlocks : ℕ) (x : Exchange) : Prop where
  alive : ∀ c p, x.call rs w totalBlocks c ≠ some (.error p)
  emitted : x.emitted = (w.live.take x.assembler.nextNeeded).flatMap (·.data)
  released : ∀ slice ∈ w.live, slice.sliceNo = x.assembler.nextNeeded →
    x.Settled slice.sliceNo → ∀ slots : List ℕ, slots.Nodup →
    (∀ slot ∈ slots, (slice.sliceNo, slot) ∈ x.inserted) → slice.data.length ≤ slots.length →
    ∃ rest assembler, x.assembler.takeReady rs = .ok (slice.data ++ rest, assembler)

/-- The receiving end against the ledger. -/
structure Tracks (rs : ReedSolomon) (L : Ledger) (x : Exchange) : Prop where
  holds : x.assembler.Holds rs L
  emitted : x.emitted = L.blocks.take (x.assembler.nextNeeded * L.geometry.blocksPerSlice)
  inserted : ∀ k slot, (k, slot) ∈ x.inserted →
    k < x.assembler.nextNeeded ∨ x.assembler.has k slot

theorem Tracks.insert (h : x.Tracks rs L) {width : ℕ} {payload : Bytes}
    (hshard : L.shard rs k slot = some payload) (hwidth : L.widths[k]? = some width)
    (hinside : x.Inside k) (hx : x.insert k slot width payload = .ok x') : x'.Tracks rs L := by
  obtain ⟨⟨taken, assembler⟩, hi, hx⟩ := bind_ok_iff.mp hx
  rw [← Except.ok.inj hx]
  have hnext : assembler.nextNeeded = x.assembler.nextNeeded := by
    rcases Assembler.insert_eq_ok hi with ⟨_, rfl, _⟩ | ⟨_, _, _, _, rfl⟩ <;> rfl
  refine ⟨h.holds.insert hshard hwidth hi, by rw [h.emitted, hnext], fun k' slot' hmem => ?_⟩
  rcases List.mem_cons.mp hmem with heq | hmem
  · obtain ⟨rfl, rfl⟩ := Prod.mk.inj heq
    exact .inr (h.holds.has_insert hshard hwidth hi hinside.1 hinside.2)
  · exact (h.inserted k' slot' hmem).imp (by rw [hnext]; exact id) (Assembler.has_of_insert hi)

theorem Tracks.takeReady (h : x.Tracks rs L) (hx : x.takeReady rs = .ok x') :
    x'.Tracks rs L := by
  obtain ⟨⟨ready, assembler⟩, htake, hx⟩ := bind_ok_iff.mp hx
  rw [← Except.ok.inj hx]
  obtain ⟨hholds, hblocks⟩ := h.holds.takeReady htake
  have hreleased := (Assembler.takeReady_eq_ok.mp htake).1
  refine ⟨hholds, by rw [h.emitted, hblocks], fun k slot hmem => ?_⟩
  have hle := hreleased.frame.1
  rcases h.inserted k slot hmem with hlt | hhas
  · exact .inl (hlt.trans_le hle)
  · by_cases hk : k < assembler.nextNeeded
    · exact .inl hk
    · exact .inr (hreleased.has_iff.mpr ⟨hhas, fun hin => hk hin.2⟩)

/-- What a call on the transfer's shards can be. -/
theorem call_cases (hw : w.Filled rs L) {total : ℕ} {c : Call} {r : Except Panic Exchange}
    (hc : x.call rs w total c = some r) :
    (∃ k slot width payload, L.shard rs k slot = some payload ∧ L.widths[k]? = some width ∧
      x.Inside k ∧ r = x.insert k slot width payload) ∨
    r = .ok { x with assembler := x.assembler.onDone total } ∨ r = x.takeReady rs := by
  cases c with
  | insert k slot =>
    simp only [call] at hc
    split at hc
    · next payload width hshard hwidth =>
      split_ifs at hc with hinside
      rw [hw.shard_eq] at hshard
      rw [hw.sliceParity_eq (Ledger.lt_slices_of_shard hshard)] at hwidth
      exact .inl ⟨k, slot, width, payload, hshard, hwidth, hinside, (Option.some.inj hc).symm⟩
    · simp at hc
  | done => exact .inr (.inl (Option.some.inj hc).symm)
  | takeReady => exact .inr (.inr (Option.some.inj hc).symm)

theorem Tracks.call (h : x.Tracks rs L) (hw : w.Filled rs L) {c : Call}
    (hc : x.call rs w L.blocks.length c = some (.ok x')) : x'.Tracks rs L := by
  rcases call_cases hw hc with ⟨k, slot, width, payload, hshard, hwidth, hinside, heq⟩ | heq | heq
  · exact h.insert hshard hwidth hinside heq.symm
  · rw [Except.ok.inj heq]
    exact ⟨h.holds.onDone, h.emitted, h.inserted⟩
  · exact h.takeReady heq.symm

/-- The slots of a slice fit sixteen bits, and its slices with a window above them thirty-two. -/
def Fits (L : Ledger) : Prop :=
  L.geometry.blocksPerSlice + L.geometry.parityPerSlice < 2 ^ 16 ∧
    L.slices + L.geometry.maxLiveSlices ≤ 2 ^ 32

/-- An insertion whose numbers fit does not die. -/
theorem Tracks.insert_alive (h : x.Tracks rs L) {width : ℕ} {payload : Bytes}
    (hslots : L.geometry.blocksPerSlice + L.geometry.parityPerSlice < 2 ^ 16)
    (hbound : x.assembler.nextNeeded + L.geometry.maxLiveSlices < 2 ^ 32) (p : Panic) :
    x.insert k slot width payload ≠ .error p := by
  intro hx
  have hgeometry := h.holds.geometry
  rcases bind_error_iff.mp hx with hi | ⟨_, _, hi⟩
  · obtain ⟨_, ⟨_, hover⟩ | ⟨_, hover⟩⟩ := Assembler.insert_eq_error hi <;>
      rw [hgeometry] at hover <;> omega
  · simp at hi

/-- Nor does `take_ready`, on no more slices than the window can number. -/
theorem Tracks.takeReady_alive (h : x.Tracks rs L) (hw : w.Filled rs L) (p : Panic) :
    x.takeReady rs ≠ .error p := by
  intro hx
  rcases bind_error_iff.mp hx with htake | ⟨_, _, htake⟩
  · have hover := (h.holds.takeReady_error htake).2
    have := hw.bound
    omega
  · simp at htake

/-- Where the numbers fit, no call dies. -/
theorem Tracks.alive (h : x.Tracks rs L) (hw : w.Filled rs L) (hfits : L.blocks ≠ [] → Fits L)
    (c : Call) (p : Panic) : x.call rs w L.blocks.length c ≠ some (.error p) := by
  intro hc
  rcases call_cases hw hc with ⟨k, slot, width, payload, hshard, hwidth, hinside, heq⟩ | heq | heq
  · have hk := Ledger.lt_slices_of_shard hshard
    have hne : L.blocks ≠ [] := by
      rintro hnil
      have := Ledger.lt_slices_iff.mp hk
      simp [hnil] at this
    obtain ⟨hslots, hslices⟩ := hfits hne
    have hle := hinside.1
    exact h.insert_alive hslots (by omega) p heq.symm
  · simp at heq
  · exact h.takeReady_alive hw p heq.symm

/-- Enough shards of the next slice, its size settled, make it ready. -/
theorem Tracks.ready (h : x.Tracks rs L) {slots : List ℕ}
    (hsettled : x.Settled x.assembler.nextNeeded) (hnodup : slots.Nodup)
    (hslots : ∀ slot ∈ slots, (x.assembler.nextNeeded, slot) ∈ x.inserted)
    (hk : x.assembler.nextNeeded < L.slices)
    (hlen : (L.slice x.assembler.nextNeeded).length ≤ slots.length) : x.assembler.Ready := by
  have hhas : ∀ k slot, x.assembler.nextNeeded ≤ k → (k, slot) ∈ x.inserted →
      ∃ s, x.assembler.slices.lookup k = some s ∧ (s.payload slot).isSome :=
    fun k slot hle hmem =>
      Assembler.has_iff.mp ((h.inserted k slot hmem).resolve_left (Nat.not_lt.mpr hle))
  obtain ⟨slot₀, hslot₀⟩ : ∃ slot, slot ∈ slots := by
    apply List.exists_mem_of_length_pos
    exact (Ledger.length_slice_pos_iff.mpr hk).trans_le hlen
  obtain ⟨s, hs, -⟩ := hhas _ slot₀ le_rfl (hslots slot₀ hslot₀)
  have hwf := h.holds.wf _ s hs
  have hheld : ∀ slot, (x.assembler.nextNeeded, slot) ∈ x.inserted → (s.payload slot).isSome := by
    intro slot hmem
    obtain ⟨s', hs', hheld⟩ := hhas _ slot le_rfl hmem
    rwa [← Option.some.inj (hs.symm.trans hs')] at hheld
  have hwrite : x.assembler.canWrite x.assembler.nextNeeded := by
    rw [Assembler.canWrite_iff]
    rcases hsettled with htotal | ⟨shard, hmem, hlt⟩ | hfull
    · exact .inl htotal
    · obtain ⟨s', hs', -⟩ := hhas shard.1 shard.2 hlt.le hmem
      exact .inr (.inl ⟨shard.1, s', hlt, hs'⟩)
    · exact .inr (.inr ⟨s, hs, Assembler.Slice.dataPresent_iff.mpr fun i hi =>
        hheld i (hfull i (Nat.lt_min.mp hi).1)⟩)
  refine ⟨hwrite, ?_⟩
  have hcount := Assembler.Slice.length_le_countP hnodup fun slot hslot =>
    hheld slot (hslots slot hslot)
  rw [Assembler.isComplete, hs, Option.any_some, h.holds.target_eq hs hwrite, hwf.received]
  exact decide_eq_true (hlen.trans hcount)

/-- A closed window's receiving end is faithful where the numbers fit. -/
theorem Tracks.faithful (h : x.Tracks rs L) (hw : w.Filled rs L)
    (hfits : L.blocks ≠ [] → Fits L) : x.Faithful rs w L.blocks.length := by
  refine ⟨h.alive hw hfits, ?_, ?_⟩
  · have hdata : (fun slice => slice.data) ∘ Window.sealedSlice rs L = L.slice := rfl
    rw [h.emitted, hw.live_eq, ← List.map_take, List.take_range,
      Nat.min_eq_left h.holds.nextNeeded_le, List.flatMap_def, List.map_map, hdata]
    exact (Chunks.flatten_map_chunk ..).symm
  · intro slice hmem hno hsettled slots hnodup hslots hlen
    rw [hw.live_eq] at hmem
    obtain ⟨k, hk, rfl⟩ := List.mem_map.mp hmem
    obtain rfl : k = x.assembler.nextNeeded := hno
    have hready := h.ready hsettled hnodup hslots (List.mem_range.mp hk) hlen
    rcases htake : x.assembler.takeReady rs with p | ⟨blocks, a'⟩
    · have hdies : x.call rs w L.blocks.length .takeReady = some (.error p) := by
        rw [Exchange.call, Exchange.takeReady, htake]
        rfl
      exact absurd hdies (h.alive hw hfits .takeReady p)
    · obtain ⟨-, rest, rfl⟩ := h.holds.takeReady_of_ready hready htake
      exact ⟨rest, a', rfl⟩

theorem tracks_of_reachable {a : Assembler} (ha : Assembler.new L.geometry = .ok a)
    (hw : w.Filled rs L) (hx : Labelled.Reachable (calls rs w L.blocks.length a) x) :
    x.Tracks rs L := by
  refine Labelled.Reach.invariant ?_ ?_ hx
  · rintro x rfl
    have hnext := (Assembler.new_wf ha).2.2.2.1
    exact ⟨Assembler.new_holds rs ha, by simp [hnext], by simp⟩
  · intro c x x' _ h hn
    simp only [calls] at hn
    split at hn
    · next hc => exact Option.some.inj hn ▸ h.call hw hc
    · simp at hn

section Limits

variable {a : Assembler} {n : ℕ}

theorem reachable_step (hx : Labelled.Reachable (calls rs w L.blocks.length a) x) {c : Call}
    (hc : x.call rs w L.blocks.length c = some (.ok x')) :
    Labelled.Reachable (calls rs w L.blocks.length a) x' :=
  hx.step (a := c) trivial (by simp only [calls, hc])

/-- The total is known, and nothing is held of the slices from `n` on. -/
structure Waits (n : ℕ) (x : Exchange) : Prop where
  next : x.assembler.nextNeeded ≤ n
  total : x.assembler.totalBlocks.isSome
  none : ∀ k, n ≤ k → x.assembler.slices.lookup k = none

/-- A new receiving end that has been told the total. -/
theorem exists_waiting (ha : Assembler.new L.geometry = .ok a) :
    ∃ x, Labelled.Reachable (calls rs w L.blocks.length a) x ∧ x.assembler.nextNeeded = 0 ∧
      x.Waits 0 := by
  obtain ⟨_, _, hslices, hnext, _, _⟩ := Assembler.new_wf ha
  refine ⟨⟨a.onDone L.blocks.length, [], []⟩, ?_, hnext, hnext.le, rfl, fun k _ => ?_⟩
  · exact (Labelled.Reach.start rfl).step (a := .done) trivial rfl
  · simp [Assembler.onDone, hslices]

/-- The window has every data shard of the next slice, and its call is an insertion. -/
theorem Tracks.insert_call (h : x.Tracks rs L) (hw : w.Filled rs L) {slot : ℕ}
    (hk : x.assembler.nextNeeded < L.slices)
    (hslot : slot < (L.slice x.assembler.nextNeeded).length) : ∃ width payload,
      x.call rs w L.blocks.length (.insert x.assembler.nextNeeded slot) =
        some (x.insert x.assembler.nextNeeded slot width payload) := by
  have hle := L.length_slice_le x.assembler.nextNeeded
  have hshard : w.shard x.assembler.nextNeeded slot =
      some ((L.slice x.assembler.nextNeeded)[slot]) := by
    rw [hw.shard_eq, Ledger.shard_data (hslot.trans_le hle), List.getElem?_eq_getElem hslot]
  have hwidth := hw.sliceParity_eq hk
  have hno : x.assembler.nextNeeded ≤ w.current.sliceNo := by
    rw [hw.sliceNo]
    exact hk.le
  rw [(hw.tracks.getElem?_widths hno).1] at hwidth
  have hinside : x.Inside x.assembler.nextNeeded := by
    have := L.geometry.maxLiveSlices_pos
    refine ⟨le_rfl, ?_⟩
    rw [h.holds.geometry]
    omega
  refine ⟨L.widths.getD x.assembler.nextNeeded 0, (L.slice x.assembler.nextNeeded)[slot], ?_⟩
  simp only [Exchange.call, hshard, hwidth]
  exact if_pos hinside

/-- A data shard of the next slice can be inserted where the numbers fit. -/
theorem Tracks.exists_insert (h : x.Tracks rs L) (hw : w.Filled rs L)
    (hslots : L.geometry.blocksPerSlice + L.geometry.parityPerSlice < 2 ^ 16)
    (hbound : x.assembler.nextNeeded + L.geometry.maxLiveSlices < 2 ^ 32) {slot : ℕ}
    (hk : x.assembler.nextNeeded < L.slices)
    (hslot : slot < (L.slice x.assembler.nextNeeded).length) :
    ∃ width payload x', x.insert x.assembler.nextNeeded slot width payload = .ok x' ∧
      x.call rs w L.blocks.length (.insert x.assembler.nextNeeded slot) = some (.ok x') := by
  obtain ⟨width, payload, hcall⟩ := h.insert_call hw hk hslot
  rcases hr : x.insert x.assembler.nextNeeded slot width payload with p | x'
  · exact absurd hr (h.insert_alive hslots hbound p)
  · exact ⟨width, payload, x', hr, by rw [hcall, hr]⟩

variable (hslots : L.geometry.blocksPerSlice + L.geometry.parityPerSlice < 2 ^ 16)
include hslots

/-- Data shards of the next slice, one after the other. -/
theorem exists_gathered (ha : Assembler.new L.geometry = .ok a) (hw : w.Filled rs L)
    (hn : n < L.slices) (hbound : n + L.geometry.maxLiveSlices < 2 ^ 32)
    (hx : Labelled.Reachable (calls rs w L.blocks.length a) x)
    (hnext : x.assembler.nextNeeded = n) (hwaits : x.Waits n) {j : ℕ}
    (hj : j ≤ (L.slice n).length) :
    ∃ x, Labelled.Reachable (calls rs w L.blocks.length a) x ∧ x.assembler.nextNeeded = n ∧
      x.Waits (n + 1) ∧ ∀ slot < j, (n, slot) ∈ x.inserted := by
  induction j with
  | zero =>
    exact ⟨x, hx, hnext, ⟨hnext.le.trans (Nat.le_succ n), hwaits.total,
      fun k hk => hwaits.none k (by omega)⟩, by simp⟩
  | succ j ih =>
    obtain ⟨x₁, hx₁, rfl, hwaits₁, hinserted⟩ := ih (by omega)
    obtain ⟨width, payload, x₂, hinsert, hcall⟩ :=
      (tracks_of_reachable ha hw hx₁).exists_insert hw hslots hbound hn hj
    have hx₂ := reachable_step hx₁ hcall
    obtain ⟨⟨taken, assembler⟩, hi, heq⟩ := bind_ok_iff.mp hinsert
    rw [← Except.ok.inj heq] at hx₂
    refine ⟨_, hx₂, ?_⟩
    have hmem : ∀ slot < j + 1, (x₁.assembler.nextNeeded, slot) ∈
        (x₁.assembler.nextNeeded, j) :: x₁.inserted := by
      intro slot hslot
      rcases Nat.lt_succ_iff_lt_or_eq.mp hslot with hlt | rfl
      · exact List.mem_cons_of_mem _ (hinserted slot hlt)
      · exact List.mem_cons_self
    rcases Assembler.insert_eq_ok hi with ⟨_, rfl, _⟩ | ⟨_, _, s', _, rfl⟩
    · exact ⟨rfl, ⟨hwaits₁.next, hwaits₁.total, hwaits₁.none⟩, hmem⟩
    · refine ⟨rfl, ⟨hwaits₁.next, hwaits₁.total, fun k hk => ?_⟩, hmem⟩
      simp only
      rw [Table.lookup_insert', if_neg (by omega)]
      exact hwaits₁.none k hk

/-- The receiving end can be led past any slices whose numbers fit, to the first slice it has
nothing of. -/
theorem exists_reached (ha : Assembler.new L.geometry = .ok a) (hw : w.Filled rs L)
    (hn : n ≤ L.slices) (hbound : n + L.geometry.maxLiveSlices ≤ 2 ^ 32) :
    ∃ x, Labelled.Reachable (calls rs w L.blocks.length a) x ∧ x.assembler.nextNeeded = n ∧
      x.Waits n := by
  induction n with
  | zero => exact exists_waiting ha
  | succ n ih =>
    obtain ⟨x, hx, hnext, hwaits⟩ := ih (by omega) (by omega)
    obtain ⟨x₁, hx₁, rfl, hwaits₁, hinserted⟩ :=
      exists_gathered hslots ha hw (by omega) (by omega) hx hnext hwaits le_rfl
    have h₁ := tracks_of_reachable ha hw hx₁
    have hready : x₁.assembler.Ready :=
      h₁.ready (.inl hwaits₁.total) List.nodup_range (fun slot hslot =>
        hinserted slot (List.mem_range.mp hslot)) (by omega) (by rw [List.length_range])
    rcases htake : x₁.takeReady rs with p | x₂
    · exact absurd htake (h₁.takeReady_alive hw p)
    · have hx₂ := reachable_step (c := .takeReady) hx₁ (congrArg some htake)
      obtain ⟨⟨blocks, a'⟩, htake, heq⟩ := bind_ok_iff.mp htake
      have hlt := (h₁.holds.takeReady_of_ready hready htake).1
      have hreleased := (Assembler.takeReady_eq_ok.mp htake).1
      obtain ⟨_, htotal, _, hlookup⟩ := hreleased.frame
      have hle : a'.nextNeeded ≤ x₁.assembler.nextNeeded + 1 := by
        by_contra hgt
        have hcomplete := (hreleased.complete (x₁.assembler.nextNeeded + 1) (by omega) (by omega)).1
        simp [Assembler.isComplete, hwaits₁.none _ le_rfl] at hcomplete
      rw [← Except.ok.inj heq] at hx₂
      refine ⟨_, hx₂, by simp only; omega, ⟨hle, by simp only [htotal]; exact hwaits₁.total,
        fun k hk => ?_⟩⟩
      simp only
      rw [hlookup]
      split_ifs
      · rfl
      · exact hwaits₁.none k hk

omit hslots

/-- The numbers of a transfer fit if they do wherever a slice is waited for of which there is
nothing yet. -/
theorem fits_of_bounds (ha : Assembler.new L.geometry = .ok a) (hw : w.Filled rs L)
    (hbounds : ∀ x, Labelled.Reachable (calls rs w L.blocks.length a) x →
      x.Waits x.assembler.nextNeeded → x.assembler.nextNeeded < L.slices →
        x.assembler.nextNeeded + L.geometry.maxLiveSlices < 2 ^ 32 ∧
          L.geometry.blocksPerSlice + L.geometry.parityPerSlice < 2 ^ 16)
    (hne : L.blocks ≠ []) : Fits L := by
  have hpos : 0 < L.slices := by
    rw [Ledger.lt_slices_iff, Nat.zero_mul]
    exact List.length_pos_iff.mpr hne
  obtain ⟨x₀, hx₀, hnext₀, hwaits₀⟩ : ∃ x, Labelled.Reachable
      (calls rs w L.blocks.length a) x ∧ x.assembler.nextNeeded = 0 ∧ x.Waits 0 :=
    exists_waiting ha
  have hslots := (hbounds x₀ hx₀ (hnext₀.symm ▸ hwaits₀) (hnext₀.symm ▸ hpos)).2
  refine ⟨hslots, Nat.le_of_not_lt fun hover => ?_⟩
  -- the first slice whose window ends past what 32 bits can number
  have hlive := L.geometry.maxLiveSlices_lt
  obtain ⟨x, hx, hnext, hwaits⟩ := exists_reached hslots ha hw
    (n := 2 ^ 32 - L.geometry.maxLiveSlices) (by omega) (by omega)
  have hbound := (hbounds x hx (hnext.symm ▸ hwaits) (by omega)).1
  omega

theorem fits_of_faithful (ha : Assembler.new L.geometry = .ok a) (hw : w.Filled rs L)
    (hall : ∀ x, Labelled.Reachable (calls rs w L.blocks.length a) x →
      x.Faithful rs w L.blocks.length) (hne : L.blocks ≠ []) : Fits L := by
  refine fits_of_bounds ha hw (fun x hx _ hk => ?_) hne
  have h := tracks_of_reachable ha hw hx
  obtain ⟨width, payload, hcall⟩ := h.insert_call hw hk (Ledger.length_slice_pos_iff.mpr hk)
  rcases hr : x.insert x.assembler.nextNeeded 0 width payload with p | x'
  · exact absurd (hcall.trans (congrArg some hr)) ((hall x hx).alive _ p)
  · obtain ⟨_, hi, _⟩ := bind_ok_iff.mp hr
    have hlive := L.geometry.maxLiveSlices_pos
    have hgeometry := h.holds.geometry
    have hbounds := Assembler.bounds_of_insert le_rfl (by rw [hgeometry]; omega) hi
    rwa [hgeometry] at hbounds

end Limits

section Shape

variable {g : Geometry} {w₀ : Window} {a : Assembler} {pushed : List Window.Call}

/-- The calls close the window without dying, and its receiving end is always faithful. -/
def RoundTrips (rs : ReedSolomon) (w₀ : Window) (a : Assembler) (pushed : List Window.Call) :
    Prop :=
  ∃ w, w₀.fill rs pushed = .ok w ∧
    ∀ x, Labelled.Reachable (calls rs w (Window.pushes pushed).length a) x →
      x.Faithful rs w (Window.pushes pushed).length

/-- A new window, and what the calls make of it. -/
theorem exists_ledger (rs : ReedSolomon) (hwindow : Window.new g = .ok w₀)
    (hsize : ∀ block ∈ Window.pushes pushed, block.length = g.blockSize) :
    ∃ L : Ledger, L.geometry = g ∧ L.blocks = Window.pushes pushed ∧ w₀.Filling rs L 0 := by
  let L : Ledger :=
    { geometry := g
      blocks := Window.pushes pushed
      widths := [g.parityPerSlice]
      accepted := (Window.new_window hwindow).1
      size := hsize
      width_le := fun width hw => (List.mem_singleton.mp hw).le }
  obtain ⟨htracks, -, -, hcurrent⟩ := Window.tracks_new (L := L) hwindow rfl
  refine ⟨L, rfl, rfl, htracks, ?_, ?_, ?_⟩
  · rw [Window.base, hcurrent]
    exact Nat.zero_sub _
  · rw [hcurrent]
    exact g.blocksPerSlice_pos
  · simp [hcurrent, Window.Slice.empty]

/-- The ledger of a window that has been filled. -/
theorem exists_filled (hwindow : Window.new g = .ok w₀)
    (hsize : ∀ block ∈ Window.pushes pushed, block.length = g.blockSize)
    (hfill : w₀.fill rs pushed = .ok w) :
    ∃ L : Ledger, L.geometry = g ∧ L.blocks = Window.pushes pushed ∧ w.Filled rs L := by
  obtain ⟨L, rfl, hblocks, hfilling⟩ := exists_ledger rs hwindow hsize
  obtain ⟨L', hgeometry, hblocks', hw⟩ :=
    hfilling.fill (by rw [hblocks]; exact List.drop_zero ..) hfill
  exact ⟨L', hgeometry, hblocks'.trans hblocks, hw⟩

/-- A window takes any blocks whose slices it can number. -/
theorem exists_fill (hwindow : Window.new g = .ok w₀)
    (hsize : ∀ block ∈ Window.pushes pushed, block.length = g.blockSize)
    (hslices : Chunks.divCeil (Window.pushes pushed).length g.blocksPerSlice < 2 ^ 32) :
    ∃ w, w₀.fill rs pushed = .ok w := by
  obtain ⟨L, rfl, hblocks, hfilling⟩ := exists_ledger rs hwindow hsize
  rw [← hblocks] at hslices
  exact hfilling.exists_fill hblocks hslices

theorem RoundTrips.fits (hwindow : Window.new g = .ok w₀) (hassembler : Assembler.new g = .ok a)
    (hsize : ∀ block ∈ Window.pushes pushed, block.length = g.blockSize)
    (h : RoundTrips rs w₀ a pushed) (hne : Window.pushes pushed ≠ []) :
    g.blocksPerSlice + g.parityPerSlice < 2 ^ 16 ∧
      Chunks.divCeil (Window.pushes pushed).length g.blocksPerSlice + g.maxLiveSlices ≤
        2 ^ 32 := by
  obtain ⟨w, hfill, hall⟩ := h
  obtain ⟨L, rfl, hblocks, hw⟩ := exists_filled hwindow hsize hfill
  rw [← hblocks] at hall hne ⊢
  exact fits_of_faithful hassembler hw hall hne

/-- Whatever is pushed and covered, the shards of every slice sealed come back as its data from
any enough of them, and nothing dies, exactly where something is pushed only if the slots of a
slice fit sixteen bits and the slices with a window above them fit thirty-two. -/
theorem round_trips_iff (hwindow : Window.new g = .ok w₀) (hassembler : Assembler.new g = .ok a)
    (hsize : ∀ block ∈ Window.pushes pushed, block.length = g.blockSize) :
    RoundTrips rs w₀ a pushed ↔
      (Window.pushes pushed ≠ [] → g.blocksPerSlice + g.parityPerSlice < 2 ^ 16 ∧
        Chunks.divCeil (Window.pushes pushed).length g.blocksPerSlice + g.maxLiveSlices ≤
          2 ^ 32) := by
  refine ⟨fun h hne => h.fits hwindow hassembler hsize hne, fun hfits => ?_⟩
  have hslices : Chunks.divCeil (Window.pushes pushed).length g.blocksPerSlice < 2 ^ 32 := by
    by_cases hnil : Window.pushes pushed = []
    · have hle : Chunks.divCeil (Window.pushes pushed).length g.blocksPerSlice ≤ 0 :=
        (Chunks.divCeil_le_iff g.blocksPerSlice_pos).mpr (by simp [hnil])
      omega
    · have hpos := g.maxLiveSlices_pos
      have hle := (hfits hnil).2
      omega
  obtain ⟨w, hfill⟩ : ∃ w, w₀.fill rs pushed = .ok w := exists_fill hwindow hsize hslices
  obtain ⟨L, rfl, hblocks, hw⟩ := exists_filled hwindow hsize hfill
  refine ⟨w, hfill, fun x hx => ?_⟩
  rw [← hblocks] at hfits hx ⊢
  exact (tracks_of_reachable hassembler hw hx).faithful hw hfits

end Shape

/-- As many slots as both ends accept: one too many for the type that counts them. -/
def widest : Geometry := .of 2 65408 128 1

/-- One block in a window of that shape cannot be given back. -/
theorem widest_does_not_round_trip : ∃ w₀ a, Window.new widest = .ok w₀ ∧
    Assembler.new widest = .ok a ∧ ¬ RoundTrips .interpolated w₀ a [.push [1, 2]] := by
  have haccepted : widest.Accepted := .inr (by decide)
  obtain ⟨w₀, hwindow⟩ := Window.exists_new haccepted
  obtain ⟨a, hassembler⟩ := Assembler.exists_new haccepted
  refine ⟨w₀, a, hwindow, hassembler, fun h => ?_⟩
  have hfits := h.fits hwindow hassembler (by decide) (by decide)
  exact absurd hfits.1 (by decide)

/-- Two data blocks a slice with one of parity, and one slice in the window. -/
def narrow : Geometry := .of 2 2 1 1

theorem round_trips_iff_narrow : ∃ w₀ a, Window.new narrow = .ok w₀ ∧
    Assembler.new narrow = .ok a ∧
    RoundTrips .interpolated w₀ a [.push [1, 2], .cover 0, .push [3, 4], .push [5, 6]] := by
  have haccepted : narrow.Accepted := .inr (by decide)
  obtain ⟨w₀, hwindow⟩ := Window.exists_new haccepted
  obtain ⟨a, hassembler⟩ := Assembler.exists_new haccepted
  exact ⟨w₀, a, hwindow, hassembler,
    (round_trips_iff hwindow hassembler (by decide)).mpr fun _ => by decide⟩

end Exchange

end Scuttlecast
