import Scuttlecast.Sender.Tracking

/-! What the slicer has yet to queue: the rest of its current handler, and the shards that the
requests waiting for it ask for. Reading on only adds to it. -/
namespace Scuttlecast

namespace Window

variable {rs : ReedSolomon} {L L' : Ledger} {w w' : Window} {p p' k slot : ℕ}

/-- What is dropped from the front is not what is looked for. -/
theorem find?_dropWhile {α : Type*} {drop want : α → Bool} (h : ∀ x, want x → drop x = false)
    (xs : List α) : (xs.dropWhile drop).find? want = xs.find? want := by
  induction xs with
  | nil => rfl
  | cons x xs ih =>
    rw [List.dropWhile_cons]
    split_ifs with hdrop
    · have hnot : want x = false := by
        by_contra hwant
        simp [h x (by simpa using hwant)] at hdrop
      rw [ih, List.find?_cons_of_neg (by simp [hnot])]
    · rfl

/-- Dropping the slices below a bound takes no shard from there on away. -/
theorem shard_retainFrom {v : ℕ} (h : v ≤ k) : (w.retainFrom v).shard k slot = w.shard k slot := by
  have hslice : (w.retainFrom v).slice k = w.slice k := by
    unfold slice retainFrom
    split_ifs
    · rfl
    · exact find?_dropWhile (fun slice hk => by simp at hk ⊢; omega) w.live
  rw [shard, hslice]
  rfl

/-- A window that has gone on, and dropped nothing, has every shard it had. -/
theorem Tracks.shard_isSome (h : w.Tracks rs L p) (hroomy : w.Roomy) (h' : w'.Tracks rs L' p')
    (hgrows : L.Grows L') (hbase : w'.base = w.base) (hp : p ≤ p')
    (hcur : w.current.sliceNo ≤ w'.current.sliceNo) (hs : (w.shard k slot).isSome) :
    (w'.shard k slot).isSome := by
  obtain ⟨payload, hpayload⟩ := Option.isSome_iff_exists.mp hs
  obtain ⟨hshard, hle, -, hk⟩ := h.shard_eq_some hroomy hpayload
  rcases (hk.trans hcur).lt_or_eq with hlt | heq
  · rw [h'.shard_of_sealed (hbase.trans_le hle) hlt, hgrows.shard hshard]
    rfl
  · have hcurrent : k = w.current.sliceNo := by omega
    rw [Window.shard, h.slice_eq, if_pos hcurrent, h.geometry] at hpayload
    rw [Window.shard, h'.slice_eq, if_pos heq, h'.geometry, hgrows.geometry]
    simp only [Option.bind_eq_bind, Option.bind_some, h.parity, List.getElem?_nil] at hpayload ⊢
    split_ifs at hpayload ⊢
    have hlt := (List.getElem?_eq_some_iff.mp hpayload).1
    have hlen := h.length_data
    have hlen' := h'.length_data
    rw [hgrows.geometry, ← heq, hcurrent] at hlen'
    rw [List.getElem?_eq_getElem (by omega)]
    rfl

end Window

namespace Slicer

variable {rs : ReedSolomon} {L L' : Ledger} {r : Reader} {s s' : Slicer} {p p' : ℕ}

theorem length_resend (s : Slicer) (k : ℕ) (slots : List ℕ) :
    (s.resend k slots).length = slots.countP fun slot => (s.window.shard k slot).isSome := by
  unfold resend
  split
  · next hnone =>
    have hslice : s.window.slice k = none := by simpa [Window.sliceParity] using hnone
    simp [Window.shard, hslice]
  · simp [List.length_filterMap_eq_countP]

/-- How many messages the answer to a feedback message takes. -/
def answer (s : Slicer) : Feedback → ℕ
  | .resend sliceNo blocks => (s.resend sliceNo blocks).length
  | _ => 0

def owed (s : Slicer) (feedback : List Feedback) : ℕ := (feedback.map s.answer).sum

@[simp] theorem owed_nil (s : Slicer) : s.owed [] = 0 := rfl

@[simp] theorem owed_cons (s : Slicer) (message : Feedback) (rest : List Feedback) :
    s.owed (message :: rest) = s.answer message + s.owed rest := by
  simp [owed]

@[simp] theorem owed_append (s : Slicer) (feedback feedback' : List Feedback) :
    s.owed (feedback ++ feedback') = s.owed feedback + s.owed feedback' := by
  simp [owed]

/-- No floor in the queue is above the slice of a request behind it. -/
def Ordered (feedback : List Feedback) : Prop :=
  feedback.Pairwise fun a b => ∀ v k blocks, a = .needed v → b = .resend k blocks → v ≤ k

theorem owed_retainFrom {v : ℕ} {feedback : List Feedback}
    (h : ∀ k blocks, .resend k blocks ∈ feedback → v ≤ k) :
    owed { s with window := s.window.retainFrom v } feedback = s.owed feedback := by
  refine congrArg List.sum (List.map_congr_left fun message hm => ?_)
  cases message with
  | resend k blocks =>
    rw [answer, answer, length_resend, length_resend]
    simp only [Window.shard_retainFrom (h k blocks hm)]
  | _ => rfl

theorem owed_cover {parity : ℕ} {feedback : List Feedback} :
    owed { s with window := s.window.cover parity } feedback = s.owed feedback := rfl

/-- Having read on makes no answer shorter. -/
theorem Tracks.owed_le (h : s.Tracks rs L r p) (h' : s'.Tracks rs L' r p') (hgrows : L.Grows L')
    (hbase : s'.window.base = s.window.base) (hp : p ≤ p')
    (hcur : s.window.current.sliceNo ≤ s'.window.current.sliceNo) (feedback : List Feedback) :
    s.owed feedback ≤ s'.owed feedback := by
  refine List.sum_le_sum fun message _ => ?_
  cases message with
  | resend k blocks =>
    rw [answer, answer, length_resend, length_resend]
    exact List.countP_mono_left fun slot _ =>
      h.window.shard_isSome h.roomy h'.window hgrows hbase hp hcur
  | _ => exact le_rfl

/-- `endInput` dies only when the slices run out of numbers. -/
theorem Tracks.exists_endInput (h : s.Tracks rs L r L.blocks.length) (hlt : L.slices < 2 ^ 32) :
    ∃ s' messages, s.endInput rs = .ok (s', messages) := by
  unfold Slicer.endInput
  by_cases hnil : s.window.current.data = []
  · rw [Window.sealSlice_of_nil hnil]
    exact ⟨_, _, rfl⟩
  · have hdata := h.window.data_eq_slice (.inr rfl)
    have hlen := h.window.length_data
    have hpos := List.length_pos_iff.mpr hnil
    have hno : s.window.current.sliceNo < L.slices := Ledger.lt_slices_iff.mpr (by omega)
    obtain ⟨_, window, hseal⟩ := h.window.exists_sealSlice hdata (by omega)
    obtain ⟨rfl, _, _, _, _, htracks⟩ := h.window.sealSlice hnil hdata hseal
    have hget := (h.window.getElem?_widths (le_refl s.window.current.sliceNo)).1
    have heq := queueParity_eq rs (L := L) (s := { s with window := window })
      htracks.geometry hget (by omega) h.floor
    rw [hseal, ok_bind]
    exact ⟨_, _, by simp only [queueSealed, heq]; rfl⟩

end Slicer

namespace SlicerTask

variable {rs : ReedSolomon} {L : Ledger} {r : Reader} {t t' : SlicerTask}

/-- The messages the task has yet to queue if it reads nothing more. -/
def backlog (t : SlicerTask) (feedback : List Feedback) : ℕ :=
  t.todo.length + t.slicer.owed feedback

/-- Taking a feedback message other than `Done` turns what is asked for into what is to be sent. -/
theorem backlog_recv {message : Feedback} {rest : List Feedback} (htodo : t.todo = [])
    (hordered : Slicer.Ordered (message :: rest)) (hdone : message ≠ .done) :
    (t.recv message).backlog rest = t.backlog (message :: rest) ∧
      (t.recv message).ended = t.ended := by
  obtain ⟨hfirst, -⟩ := List.pairwise_cons.mp hordered
  cases message with
  | needed v =>
    have howed := Slicer.owed_retainFrom (s := t.slicer)
      fun k blocks hm => hfirst _ hm v k blocks rfl rfl
    exact ⟨by simp [backlog, recv, htodo, howed, Slicer.answer], rfl⟩
  | cover parity =>
    exact ⟨by simp [backlog, recv, htodo, Slicer.owed_cover, Slicer.answer], rfl⟩
  | resend k blocks => exact ⟨by simp [backlog, recv, htodo, Slicer.answer], rfl⟩
  | done => exact absurd rfl hdone

/-- Reading on adds to what is to be queued, unless it ends the task, and never ends it well. -/
theorem Tracks.backlog_read (h : t.Tracks rs L r) (hr : t.read rs = some t')
    (feedback : List Feedback) : t'.ended ≠ some (.returned (.ok ())) ∧
      (t'.ended = none → t.backlog feedback ≤ t'.backlog feedback) := by
  obtain ⟨p, hs, hended, htodo, -, hroom, hcase⟩ := h.read_cases hr
  rcases hcase with ⟨block, _, hb, -, rfl⟩ | ⟨e, input, -, rfl⟩ | ⟨rfl, hfault, -, rfl⟩
  · rcases hpush : t.slicer.push rs block with e | ⟨s, messages⟩
    · simp [SlicerTask.begin]
    obtain ⟨L', hgrows, hs', hbase, tail, hmessages, htail⟩ := hs.push hb hroom hpush
    have hcur : t.slicer.window.current.sliceNo ≤ s.window.current.sliceNo := by omega
    have hle := hs.owed_le hs' hgrows hbase (Nat.le_succ p) hcur feedback
    refine ⟨by simp [SlicerTask.begin, hended], fun _ => ?_⟩
    simp only [backlog, SlicerTask.begin, htodo, List.length_nil]
    omega
  · simp
  · rcases hend : t.slicer.endInput rs with e | ⟨s, messages⟩
    · simp [SlicerTask.begin]
    obtain ⟨L', hgrows, hs', hbase, hcur, -, -⟩ := hs.endInput rfl hfault hend
    have hle := hs.owed_le hs' hgrows hbase le_rfl (hs.window.sliceNo_le.trans_eq hcur.symm) feedback
    refine ⟨by simp [SlicerTask.begin, hended], fun _ => ?_⟩
    simp only [backlog, SlicerTask.begin, htodo, List.length_nil]
    omega

/-- The input can be read to its end: no read fails, and no counter leaves its type. -/
structure Readable (r : Reader) (g : Geometry) : Prop where
  fault : r.fault = none
  bytes : r.bytes.length < 2 ^ 64
  slices : Chunks.divCeil (r.blocks g).length g.blocksPerSlice < 2 ^ 32

theorem Tracks.ended_read (h : t.Tracks rs L r) (hreadable : Readable r L.geometry)
    (hr : t.read rs = some t') : t'.ended = none := by
  obtain ⟨p, hs, hended, htodo, -, hroom, hcase⟩ := h.read_cases hr
  have hlen := congrArg List.length hs.blocks
  rw [List.length_map] at hlen
  have hslices : L.slices < 2 ^ 32 := by
    rw [Ledger.slices, hlen]
    exact hreadable.slices
  rcases hcase with ⟨block, _, hb, -, rfl⟩ | ⟨e, input, hfault, rfl⟩ | ⟨rfl, hfault, -, rfl⟩
  · have hp := (List.getElem?_eq_some_iff.mp hb).1
    have hno : t.slicer.window.current.sliceNo < L.slices :=
      Ledger.lt_slices_iff.mpr ((hs.start_le (hlen ▸ hp)).trans_lt (hlen ▸ hp))
    have hbytes : t.slicer.totalBytes + block.length ≤ r.bytes.length := by
      have htake := List.take_add_one (l := r.blocks L.geometry) (i := p)
      rw [hb, Option.toList_some] at htake
      have hpre := ((List.take_prefix (p + 1) (r.blocks L.geometry)).flatten).trans
        (Reader.flatten_blocks_prefix L.geometry r)
      simpa [htake, hs.totalBytes] using hpre.length_le
    have hcount : p < 2 ^ 32 * 2 ^ 16 := by
      have hbps := L.geometry.blocksPerSlice_lt
      have hmul : ¬ 2 ^ 32 * L.geometry.blocksPerSlice < L.blocks.length := fun h =>
        absurd (Ledger.lt_slices_iff.mpr h) (by omega)
      omega
    obtain ⟨s', messages, hpush⟩ := hs.exists_push hb (hbytes.trans_lt hreadable.bytes) (by omega)
      (by omega)
    simp [SlicerTask.begin, hpush, hended]
  · simp [hreadable.fault] at hfault
  · obtain ⟨s', messages, hend⟩ := hs.exists_endInput hslices
    simp [SlicerTask.begin, hend, hended]

end SlicerTask
end Scuttlecast
