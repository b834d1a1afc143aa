import Scuttlecast.Sender.Tracking
import Scuttlecast.Receiver.Release
import Scuttlecast.Receiver.Session

/-! The numbers of a slice's slots. Of the shapes the codec serves, eight have one slot more than
sixteen bits can count. -/
namespace Scuttlecast

/-- A supported shape with as many shards as sixteen bits have values. -/
theorem Supported.eq_of_sum {o r b : ℕ} (h : Supported o r b) (hr : r < 2 ^ 8)
    (hsum : o + r = 2 ^ 16) : ∃ k, r = 2 ^ k ∧ o = 2 ^ 16 - 2 ^ k := by
  have hro : nextPowerOfTwo r ≤ nextPowerOfTwo o := nextPowerOfTwo_mono (by omega)
  have hle : nextPowerOfTwo r + o ≤ 2 ^ 16 := by
    have := h.2.2.1
    omega
  have hup : r ≤ nextPowerOfTwo r := Nat.le_pow_clog (by decide) r
  have heq : r = 2 ^ Nat.clog 2 r := hup.antisymm (by omega)
  exact ⟨Nat.clog 2 r, heq, by omega⟩

namespace Session

variable {s : Session} {frame : Frame}

/-- The check passes what fits the transfer, if the slots can be counted at all. -/
theorem checkShard_of_checked
    (hslots : s.assembler.geometry.blocksPerSlice + s.assembler.geometry.parityPerSlice < 2 ^ 16)
    (hgeometry : s.geometry = s.assembler.geometry)
    (h : Assembler.Checked s.geometry frame.slot frame.sliceParity frame.payload) :
    s.checkShard frame = .ok (.ok ()) := by
  have hslot := h.slot_lt
  have hwidth := h.width_le
  have hparity := h.parity
  rw [checkShard, Assembler.totalSlots, addChecked_of_lt hslots, ok_bind, ← hgeometry]
  rw [if_neg (by omega), if_neg (by omega), if_neg (by omega), if_neg (by simp [h.size])]

end Session

namespace Geometry

variable {g : Geometry} {a : Assembler}

/-- The slots are counted exactly, the parity slots the slicer assigns are of them, and in any
state a session of the transfer accepts a shard in each of them. -/
structure SlotsFit (g : Geometry) (a : Assembler) : Prop where
  total : a.totalSlots = .ok (g.blocksPerSlice + g.parityPerSlice)
  assigned : ∀ sliceNo width emitFloor payloads, payloads.length ≤ g.parityPerSlice →
    ∃ shards, Slicer.parityShards g sliceNo width emitFloor 0 payloads = .ok shards ∧
      ∀ message ∈ shards, ∃ slot payload,
        message = .shard sliceNo slot width emitFloor payload ∧ slot < 2 ^ 16 ∧
          slot < g.blocksPerSlice + g.parityPerSlice
  accepted : ∀ s : Session, s.geometry = g → s.assembler.geometry = g → ∀ frame,
    Assembler.Checked g frame.slot frame.sliceParity frame.payload →
      s.checkShard frame = .ok (.ok ())

/-- With room for one more than the last, every slot fits. -/
theorem slotsFit_of_lt (ha : a.geometry = g)
    (hlt : g.blocksPerSlice + g.parityPerSlice < 2 ^ 16) : g.SlotsFit a := by
  refine ⟨?_, fun sliceNo width emitFloor payloads hlen => ?_, fun s hs hassembler frame hframe => ?_⟩
  · rw [Assembler.totalSlots, ha, addChecked_of_lt hlt]
  · refine ⟨_, Slicer.parityShards_eq (.inr (by omega)), fun message hm => ?_⟩
    obtain ⟨⟨payload, index⟩, he, rfl⟩ := List.mem_map.mp hm
    have hindex := (List.mem_zipIdx he).2.1
    exact ⟨_, payload, rfl, by simp only; omega, by simp only; omega⟩
  · exact Session.checkShard_of_checked (by rwa [hassembler]) (hs.trans hassembler.symm)
      (hs.symm ▸ hframe)

/-- Of the shapes both constructors accept, the slots fit all but those with a power of two of
parity and the rest of the codec's positions for data. -/
theorem slots_fit_iff {w : Window} (hwindow : Window.new g = .ok w)
    (hassembler : Assembler.new g = .ok a) :
    g.SlotsFit a ↔ ¬ ∃ k, g.parityPerSlice = 2 ^ k ∧ g.blocksPerSlice = 2 ^ 16 - 2 ^ k := by
  have haccepted := (Window.new_window hwindow).1
  obtain ⟨-, ha, -⟩ := Assembler.new_wf hassembler
  have hparity := g.parityPerSlice_lt
  constructor
  · rintro ⟨htotal, -, -⟩ ⟨k, hk, hblocks⟩
    rw [Assembler.totalSlots, ha] at htotal
    have hlt := (addChecked_eq_ok.mp htotal).1
    omega
  · intro hfrontier
    refine slotsFit_of_lt ha (lt_of_le_of_ne ?_ fun hsum => ?_)
    · rcases haccepted with hzero | hsupported
      · have := g.blocksPerSlice_lt
        omega
      · exact hsupported.shards_le
    · rcases haccepted with hzero | hsupported
      · have := g.blocksPerSlice_lt
        omega
      · exact hfrontier (hsupported.eq_of_sum hparity hsum)

/-- One shard of parity over all the other positions. -/
def frontier : Geometry := .of 2 65535 1 1

theorem frontier_is_not_counted : ∃ w a, Window.new frontier = .ok w ∧
    Assembler.new frontier = .ok a ∧ a.totalSlots = .error (.overflow 16) ∧
      ¬ frontier.SlotsFit a := by
  have haccepted : frontier.Accepted := .inr (by decide)
  obtain ⟨w, hwindow⟩ := Window.exists_new haccepted
  obtain ⟨a, hassembler⟩ := Assembler.exists_new haccepted
  have htotal : a.totalSlots = .error (.overflow 16) := by
    rw [Assembler.totalSlots, (Assembler.new_wf hassembler).2.1]
    rfl
  refine ⟨w, a, hwindow, hassembler, htotal, fun hfit => ?_⟩
  cases htotal.symm.trans hfit.total

/-- Next to it, with one position left over. -/
def below : Geometry := .of 2 65534 1 1

theorem slots_fit_iff_below : ∃ w a, Window.new below = .ok w ∧ Assembler.new below = .ok a ∧
    below.SlotsFit a := by
  have haccepted : below.Accepted := .inr (by decide)
  obtain ⟨w, hwindow⟩ := Window.exists_new haccepted
  obtain ⟨a, hassembler⟩ := Assembler.exists_new haccepted
  refine ⟨w, a, hwindow, hassembler, (slots_fit_iff hwindow hassembler).mpr ?_⟩
  rintro ⟨k, hk, hblocks⟩
  have hone : 2 ^ k = 1 := hk.symm
  have hdata : 65534 = 2 ^ 16 - 2 ^ k := hblocks
  omega

end Geometry

end Scuttlecast
