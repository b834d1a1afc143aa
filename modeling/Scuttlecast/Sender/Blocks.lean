import Scuttlecast.Proto.Payload
import Scuttlecast.Library.Chunks
import Mathlib.Algebra.Order.BigOperators.Group.List

/-! The stream of blocks the sender cuts its input into. -/
namespace Scuttlecast

/-- An input as its reader delivers it: the non-empty reads, then either the end of the input
or an error. A zero-length read is the permanent end. -/
structure Reader where
  reads : List Bytes
  reads_ne_nil : ∀ read ∈ reads, read ≠ []
  fault : Option IoError

namespace Reader

def bytes (r : Reader) : Bytes := r.reads.flatten

/-- The results of the successive calls to `read_buf`, up to the end of the input. -/
def results (r : Reader) : List (Except IoError Bytes) :=
  r.reads.map .ok ++ r.fault.toList.map .error

end Reader

namespace Blocks

/-- The inner loop of `split`: read until the slab holds a block, the input ends or fails.
The end of the list is the read that returns `Ok(0)`. -/
def fill (blockSize : ℕ) (slab : Bytes) :
    List (Except IoError Bytes) → Except IoError Bytes × List (Except IoError Bytes)
  | [] => (.ok slab, [])
  | read :: rest =>
    if slab.length < blockSize then
      match read with
      | .ok bytes => fill blockSize (slab ++ bytes) rest
      | .error e => (.error e, rest)
    else (.ok slab, read :: rest)

/-- Bytes still to come out of a slab and the reads behind it. -/
def pendingBytes (slab : Bytes) (reads : List (Except IoError Bytes)) : ℕ :=
  slab.length + (reads.map fun read => (read.toOption.getD []).length).sum

theorem fill_pendingBytes {blockSize : ℕ} {slab slab' : Bytes}
    {reads rest : List (Except IoError Bytes)}
    (h : fill blockSize slab reads = (.ok slab', rest)) :
    pendingBytes slab' rest = pendingBytes slab reads := by
  induction reads generalizing slab with
  | nil =>
    simp only [fill, Prod.mk.injEq, Except.ok.injEq] at h
    rw [← h.1, ← h.2]
  | cons read reads ih =>
    unfold fill at h
    split at h
    · cases read with
      | error e => simp at h
      | ok bytes =>
        rw [ih h]
        simp [pendingBytes, Except.toOption]
        omega
    · simp only [Prod.mk.injEq, Except.ok.injEq] at h
      rw [← h.1, ← h.2]

/-- `blocks::split`: the items of the stream, from a slab and the reads still to come. -/
def split (g : Geometry) (slab : Bytes) (reads : List (Except IoError Bytes)) :
    List (Except IoError Bytes) :=
  match _h : fill g.blockSize slab reads with
  | (.error e, _) => [.error e]
  | (.ok slab', rest) =>
    if slab' = [] then []
    else .ok (slab'.take g.blockSize) :: split g (slab'.drop g.blockSize) rest
termination_by pendingBytes slab reads
decreasing_by
  have hlen : 0 < slab'.length := List.length_pos_iff.mpr ‹_›
  have hpos := g.blockSize_pos
  have heq := fill_pendingBytes _h
  simp only [pendingBytes, List.length_drop] at heq ⊢
  omega

/-- What the stream yields of an input `b`: its blocks, or, when the reader fails, those that
were full before the error. -/
def items (g : Geometry) (b : Bytes) : Option IoError → List (Except IoError Bytes)
  | none => (Chunks.chunks g.blockSize b).map .ok
  | some e => ((List.range (b.length / g.blockSize)).map fun k =>
      .ok (Chunks.chunk g.blockSize b k)) ++ [.error e]

theorem items_of_le {g : Geometry} {b : Bytes} (h : g.blockSize ≤ b.length)
    (fault : Option IoError) :
    items g b fault = .ok (b.take g.blockSize) :: items g (b.drop g.blockSize) fault := by
  have hpos := g.blockSize_pos
  cases fault with
  | none =>
    have hne : b ≠ [] := by rintro rfl; simp at h; omega
    simp [items, Chunks.chunks_of_ne_nil hpos hne]
  | some e =>
    have hdiv : b.length / g.blockSize = (b.drop g.blockSize).length / g.blockSize + 1 := by
      rw [List.length_drop, ← Nat.div_eq_sub_div hpos h]
    unfold items
    rw [hdiv, List.range_succ_eq_map, List.map_cons, List.map_map]
    simp only [List.cons_append, List.cons.injEq, Chunks.chunk, Nat.zero_mul, List.drop_zero,
      true_and, List.append_cancel_right_eq]
    apply List.map_congr_left
    intro k _
    simp only [Function.comp_apply, List.drop_drop, Nat.succ_mul, Except.ok.injEq]
    congr 2
    omega

/-- The slab that `fill` leaves holds a block, or all that was left of the input. -/
theorem fill_results {g : Geometry} (slab : Bytes) (reads : List Bytes) (fault : Option IoError) :
    (∃ slab' reads', fill g.blockSize slab (reads.map .ok ++ fault.toList.map .error) =
        (.ok slab', reads'.map .ok ++ fault.toList.map .error) ∧
      slab' ++ reads'.flatten = slab ++ reads.flatten ∧
      (g.blockSize ≤ slab'.length ∨ reads' = [] ∧ fault = none)) ∨
    ∃ e rest, fault = some e ∧ (slab ++ reads.flatten).length < g.blockSize ∧
      fill g.blockSize slab (reads.map .ok ++ fault.toList.map .error) = (.error e, rest) := by
  induction reads generalizing slab with
  | nil =>
    cases fault with
    | none => exact .inl ⟨slab, [], by simp [fill], by simp, .inr ⟨rfl, rfl⟩⟩
    | some e =>
      by_cases hlt : slab.length < g.blockSize
      · exact .inr ⟨e, [], rfl, by simpa using hlt, by simp [fill, hlt]⟩
      · exact .inl ⟨slab, [], by simp [fill, hlt], by simp, .inl (by omega)⟩
  | cons read reads ih =>
    by_cases hlt : slab.length < g.blockSize
    · have heq : fill g.blockSize slab ((read :: reads).map .ok ++ fault.toList.map .error) =
          fill g.blockSize (slab ++ read) (reads.map .ok ++ fault.toList.map .error) := by
        simp [fill, hlt]
      rw [heq]
      simpa only [List.flatten_cons, List.append_assoc] using ih (slab ++ read)
    · exact .inl ⟨slab, read :: reads, by simp [fill, hlt], by simp, .inl (by omega)⟩

/-- However the reader splits the input into reads, the stream yields the same blocks. -/
theorem split_results (g : Geometry) (slab : Bytes) (reads : List Bytes)
    (fault : Option IoError) :
    split g slab (reads.map .ok ++ fault.toList.map .error) =
      items g (slab ++ reads.flatten) fault := by
  have hpos := g.blockSize_pos
  induction hn : (slab ++ reads.flatten).length using Nat.strong_induction_on
    generalizing slab reads with
  | _ n ih =>
    rw [split.eq_def]
    rcases fill_results (g := g) slab reads fault with
      ⟨slab', reads', hfill, hflat, hstop⟩ | ⟨e, rest, rfl, hlt, hfill⟩
    · split
      next e _ h => rw [hfill] at h; simp at h
      next slab'' rest h =>
        rw [hfill] at h
        simp only [Prod.mk.injEq, Except.ok.injEq] at h
        obtain ⟨rfl, rfl⟩ := h
        rw [← hflat] at hn ⊢
        split_ifs with hnil
        · subst hnil
          rcases hstop with hle | ⟨rfl, rfl⟩
          · simp at hle; omega
          · simp [items, Chunks.chunks_nil hpos]
        · have hlen := List.length_pos_iff.mpr hnil
          rw [ih _ (by simp only [List.length_append, List.length_drop] at hn ⊢; omega) _ _ rfl]
          rcases hstop with hle | ⟨rfl, rfl⟩
          · rw [items_of_le (b := slab' ++ reads'.flatten) (by simp; omega)]
            rw [List.take_append_of_le_length hle, List.drop_append_of_le_length hle]
          · simp [items, Chunks.chunks_of_ne_nil hpos hnil]
    · split
      next e' _ h =>
        rw [hfill] at h
        simp only [Prod.mk.injEq, Except.error.injEq] at h
        simp only [items, Nat.div_eq_of_lt hlt, List.range_zero, List.map_nil, List.nil_append,
          h.1]
      next slab'' rest h => rw [hfill] at h; simp at h

end Blocks

/-- The items of the stream over the whole input. -/
def Reader.items (g : Geometry) (r : Reader) : List (Except IoError Bytes) :=
  Blocks.split g [] r.results

/-- The blocks the input is cut into; of an input that fails, those full before the error. -/
def Reader.blocks (g : Geometry) (r : Reader) : List Bytes :=
  match r.fault with
  | none => Chunks.chunks g.blockSize r.bytes
  | some _ => (List.range (r.bytes.length / g.blockSize)).map (Chunks.chunk g.blockSize r.bytes)

theorem Reader.items_eq (g : Geometry) (r : Reader) :
    r.items g = Blocks.items g r.bytes r.fault := by
  simpa [Reader.items, Reader.results, Reader.bytes] using Blocks.split_results g [] r.reads r.fault

theorem Reader.items_eq_blocks (g : Geometry) (r : Reader) :
    r.items g = (r.blocks g).map .ok ++ r.fault.toList.map .error := by
  rw [items_eq, blocks]
  cases r.fault with
  | none => simp [Blocks.items]
  | some e => simp [Blocks.items, List.map_map, Function.comp_def]

/-- A block is never longer than the block size, and every block but the last is full. -/
theorem Reader.length_block {g : Geometry} {r : Reader} {i : ℕ} {block : Bytes}
    (h : (r.blocks g)[i]? = some block) : block.length ≤ g.blockSize ∧
      (i + 1 < (r.blocks g).length → block.length = g.blockSize) := by
  have hpos := g.blockSize_pos
  have hchunk (hlt : (i + 1) * g.blockSize ≤ r.bytes.length) :
      (Chunks.chunk g.blockSize r.bytes i).length = g.blockSize := by
    rw [Chunks.length_chunk]
    rw [Nat.succ_mul] at hlt
    omega
  unfold blocks at h ⊢
  split at h
  · rw [Chunks.getElem?_chunks] at h
    split_ifs at h with hi
    rw [← Option.some.inj h]
    refine ⟨by rw [Chunks.length_chunk]; omega, fun hnext => hchunk ?_⟩
    rw [Chunks.length_chunks, Chunks.lt_divCeil_iff hpos] at hnext
    omega
  · obtain ⟨hi, h⟩ := List.getElem?_eq_some_iff.mp h
    rw [List.length_map, List.length_range] at hi
    rw [List.getElem_map, List.getElem_range] at h
    have hle : (i + 1) * g.blockSize ≤ r.bytes.length :=
      (Nat.mul_le_mul_right _ hi).trans (Nat.div_mul_le_self _ _)
    rw [← h, hchunk hle]
    exact ⟨le_rfl, fun _ => rfl⟩

theorem Reader.length_blocks {g : Geometry} {r : Reader} (h : r.fault = none) :
    (r.blocks g).length = Chunks.divCeil r.bytes.length g.blockSize := by
  simp only [blocks, h]
  exact Chunks.length_chunks ..

theorem Reader.getElem?_blocks {g : Geometry} {r : Reader} {i : ℕ}
    (h : i < (r.blocks g).length) : (r.blocks g)[i]? = some (Chunks.chunk g.blockSize r.bytes i) := by
  unfold blocks at h ⊢
  split at h
  · rw [Chunks.length_chunks] at h
    rw [Chunks.getElem?_chunks, if_pos h]
  · rw [List.length_map, List.length_range] at h
    rw [List.getElem?_map, List.getElem?_range h]
    rfl

theorem Reader.length_flatten_take_le (g : Geometry) (r : Reader) (p : ℕ) :
    ((r.blocks g).take p).flatten.length ≤ p * g.blockSize := by
  rw [List.length_flatten]
  refine (List.sum_le_card_nsmul _ g.blockSize fun n hn => ?_).trans ?_
  · obtain ⟨block, hmem, rfl⟩ := List.mem_map.mp hn
    obtain ⟨i, hi⟩ := List.mem_iff_getElem?.mp (List.mem_of_mem_take hmem)
    exact (Reader.length_block hi).1
  · rw [List.length_map, List.length_take]
    exact Nat.mul_le_mul_right _ (Nat.min_le_left ..)

/-- The blocks put together are the input, when it does not fail. -/
theorem Reader.flatten_blocks {g : Geometry} {r : Reader} (h : r.fault = none) :
    (r.blocks g).flatten = r.bytes := by
  simp only [blocks, h]
  exact Chunks.flatten_chunks g.blockSize_pos r.bytes

/-- In any case they are a prefix of it. -/
theorem Reader.flatten_blocks_prefix (g : Geometry) (r : Reader) :
    (r.blocks g).flatten <+: r.bytes := by
  rcases hf : r.fault with _ | e
  · exact flatten_blocks hf ▸ List.prefix_rfl
  · simp only [blocks, hf, Chunks.flatten_map_chunk]
    exact List.take_prefix _ _

/-- The first of them too. -/
theorem Reader.flatten_take_blocks_prefix (g : Geometry) (r : Reader) (m : ℕ) :
    ((r.blocks g).take m).flatten <+: r.bytes := by
  have htake : ((r.blocks g).take m).flatten <+: (r.blocks g).flatten := by
    conv_rhs => rw [← List.take_append_drop m (r.blocks g), List.flatten_append]
    exact List.prefix_append _ _
  exact htake.trans (Reader.flatten_blocks_prefix g r)

end Scuttlecast
