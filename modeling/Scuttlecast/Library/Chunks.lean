import Mathlib.Data.List.Basic
import Mathlib.Tactic.Common
import Mathlib.Tactic.Ring

/-! Cutting a list into pieces of a fixed length, the last one possibly shorter, by index. -/
namespace Chunks

variable {α : Type*}

/-- Quotient rounded up. -/
def divCeil (a n : ℕ) : ℕ := (a + n - 1) / n

theorem divCeil_le_iff {a n k : ℕ} (hn : 0 < n) : divCeil a n ≤ k ↔ a ≤ k * n := by
  unfold divCeil
  rw [← Nat.lt_succ_iff, Nat.div_lt_iff_lt_mul hn, Nat.succ_mul]
  omega

theorem lt_divCeil_iff {a n k : ℕ} (hn : 0 < n) : k < divCeil a n ↔ k * n < a := by
  rw [← Nat.not_le, divCeil_le_iff hn, Nat.not_le]

theorem divCeil_mul {n : ℕ} (hn : 0 < n) (k : ℕ) : divCeil (k * n) n = k := by
  apply le_antisymm
  · exact (divCeil_le_iff hn).mpr le_rfl
  · by_contra h
    have := (divCeil_le_iff hn).mp (Nat.lt_succ_iff.mp (by omega : divCeil (k * n) n < k - 1 + 1))
    have hk : k = k - 1 + 1 := by omega
    rw [hk, Nat.add_mul] at this
    simp only [Nat.add_sub_cancel] at this
    omega

/-- The piece of index `k`. -/
def chunk (n : ℕ) (xs : List α) (k : ℕ) : List α := (xs.drop (k * n)).take n

theorem length_chunk (n : ℕ) (xs : List α) (k : ℕ) :
    (chunk n xs k).length = min n (xs.length - k * n) := by
  simp [chunk]

theorem getElem?_chunk (n : ℕ) (xs : List α) (k j : ℕ) :
    (chunk n xs k)[j]? = if j < n then xs[k * n + j]? else none := by
  simp [chunk, List.getElem?_take]

theorem chunk_eq_nil_iff {n : ℕ} (hn : 0 < n) {xs : List α} {k : ℕ} :
    chunk n xs k = [] ↔ xs.length ≤ k * n := by
  rw [← List.length_eq_zero_iff, length_chunk]
  omega

theorem mem_of_mem_chunk {n k : ℕ} {xs : List α} {x : α} (h : x ∈ chunk n xs k) : x ∈ xs :=
  List.mem_of_mem_drop (List.mem_of_mem_take h)

theorem take_succ_mul (n : ℕ) (xs : List α) (k : ℕ) :
    xs.take ((k + 1) * n) = xs.take (k * n) ++ chunk n xs k := by
  rw [Nat.succ_mul, List.take_add]
  rfl

/-- All the pieces, in order. -/
def chunks (n : ℕ) (xs : List α) : List (List α) :=
  (List.range (divCeil xs.length n)).map (chunk n xs)

@[simp] theorem length_chunks (n : ℕ) (xs : List α) :
    (chunks n xs).length = divCeil xs.length n := by simp [chunks]

theorem getElem?_chunks {n : ℕ} (xs : List α) (k : ℕ) :
    (chunks n xs)[k]? = if k < divCeil xs.length n then some (chunk n xs k) else none := by
  unfold chunks
  rw [List.getElem?_map]
  split
  next h => simp [List.getElem?_range h]
  next h => simp [List.getElem?_eq_none (by simpa using h : (List.range _).length ≤ k)]

theorem flatten_map_chunk (n : ℕ) (xs : List α) (k : ℕ) :
    ((List.range k).map (chunk n xs)).flatten = xs.take (k * n) := by
  induction k with
  | zero => simp
  | succ k ih =>
    rw [List.range_succ, List.map_append, List.flatten_append, ih, take_succ_mul]
    simp

theorem flatten_chunks {n : ℕ} (hn : 0 < n) (xs : List α) : (chunks n xs).flatten = xs := by
  rw [chunks, flatten_map_chunk]
  exact List.take_of_length_le ((divCeil_le_iff hn).mp le_rfl)

theorem chunk_ne_nil_of_mem {n : ℕ} (hn : 0 < n) {xs c : List α} (h : c ∈ chunks n xs) :
    c ≠ [] := by
  obtain ⟨k, hk, rfl⟩ := List.mem_map.mp h
  rw [Ne, chunk_eq_nil_iff hn, Nat.not_le]
  exact (lt_divCeil_iff hn).mp (List.mem_range.mp hk)

theorem length_le_of_mem {n : ℕ} {xs c : List α} (h : c ∈ chunks n xs) : c.length ≤ n := by
  obtain ⟨k, _, rfl⟩ := List.mem_map.mp h
  rw [length_chunk]
  omega

/-- A piece with another behind it is whole. -/
theorem length_of_mem_dropLast {n : ℕ} (hn : 0 < n) {xs c : List α}
    (h : c ∈ (chunks n xs).dropLast) : c.length = n ∧ n < xs.length := by
  obtain ⟨k, hk, rfl⟩ := List.mem_iff_getElem.mp h
  rw [List.length_dropLast, length_chunks] at hk
  have hmore : (k + 1) * n < xs.length := (lt_divCeil_iff hn).mp (by omega)
  have hchunk : (chunks n xs).dropLast[k] = chunk n xs k := by
    rw [List.getElem_dropLast]
    simp [chunks]
  rw [hchunk, length_chunk]
  rw [Nat.succ_mul] at hmore
  omega

/-- The first piece, and the pieces of what follows it. -/
theorem chunks_of_ne_nil {n : ℕ} (hn : 0 < n) {xs : List α} (h : xs ≠ []) :
    chunks n xs = xs.take n :: chunks n (xs.drop n) := by
  have hpos := List.length_pos_iff.mpr h
  have hlen : divCeil xs.length n = divCeil (xs.drop n).length n + 1 := by
    apply eq_of_forall_lt_iff
    intro k
    rw [lt_divCeil_iff hn]
    cases k with
    | zero => simp [hpos]
    | succ k =>
      rw [Nat.add_lt_add_iff_right, lt_divCeil_iff hn, Nat.succ_mul, List.length_drop]
      omega
  unfold chunks
  rw [hlen, List.range_succ_eq_map, List.map_cons, List.map_map]
  congr 1
  · simp [chunk]
  · apply List.map_congr_left
    intro k _
    simp only [Function.comp_apply, chunk, List.drop_drop, Nat.succ_mul]
    congr 2
    omega

/-- Numbered piece by piece, an element has its index divided by the length of a piece. -/
theorem flatMap_zipIdx_chunk {n : ℕ} (hn : 0 < n) (xs : List α) (m : ℕ) :
    ((List.range m).flatMap fun k => (chunk n xs k).zipIdx.map fun e => (k, e.2, e.1)) =
      (xs.take (m * n)).zipIdx.map fun e => (e.2 / n, e.2 % n, e.1) := by
  induction m with
  | zero => simp
  | succ m ih =>
    rw [List.range_succ, List.flatMap_append, List.flatMap_singleton, ih, take_succ_mul,
      List.zipIdx_append, List.map_append, Nat.zero_add]
    congr 1
    apply List.ext_getElem?
    intro j
    rw [List.getElem?_map, List.getElem?_map, List.getElem?_zipIdx, List.getElem?_zipIdx,
      getElem?_chunk]
    split_ifs with hj
    · rcases hx : xs[m * n + j]? with _ | x
      · rfl
      · have hlen : (xs.take (m * n)).length = m * n := by
          have := (List.getElem?_eq_some_iff.mp hx).1
          rw [List.length_take]
          omega
        have hdiv : (m * n + j) / n = m := by
          rw [Nat.add_comm, Nat.add_mul_div_right _ _ hn, Nat.div_eq_of_lt hj, Nat.zero_add]
        have hmod : (m * n + j) % n = j := by
          rw [Nat.add_comm, Nat.add_mul_mod_self_right, Nat.mod_eq_of_lt hj]
        simp [hlen, hdiv, hmod]
    · rfl

@[simp] theorem chunks_nil {n : ℕ} (hn : 0 < n) : chunks n ([] : List α) = [] := by
  have h : divCeil 0 n = 0 := Nat.le_zero.mp ((divCeil_le_iff hn).mpr (by simp))
  simp [chunks, h]

/-- What was put together from pieces of one length, but for a last one perhaps shorter, falls into
these pieces. -/
theorem chunks_flatten {n : ℕ} (hn : 0 < n) {pieces : List (List α)}
    (hfull : ∀ piece ∈ pieces.dropLast, piece.length = n)
    (hshort : ∀ piece ∈ pieces, piece ≠ [] ∧ piece.length ≤ n) : chunks n pieces.flatten = pieces := by
  induction pieces with
  | nil => exact chunks_nil hn
  | cons piece rest ih =>
    obtain ⟨hne, hle⟩ := hshort piece List.mem_cons_self
    have hwhole : (piece :: rest).flatten ≠ [] := by simp [hne]
    rw [chunks_of_ne_nil hn hwhole, List.flatten_cons]
    cases rest with
    | nil => simp [List.take_of_length_le hle, List.drop_of_length_le hle, hn]
    | cons next rest =>
      rw [List.dropLast_cons_cons, List.forall_mem_cons] at hfull
      rw [List.take_left' hfull.1, List.drop_left' hfull.1,
        ih hfull.2 fun p hp => hshort p (List.mem_cons_of_mem _ hp)]

/-- What was put together from pieces of one length falls into these pieces. -/
theorem chunks_flatMap {β : Type*} {n : ℕ} (hn : 0 < n) {f : β → List α} {xs : List β}
    (h : ∀ x ∈ xs, (f x).length = n) : chunks n (xs.flatMap f) = xs.map f := by
  induction xs with
  | nil => exact chunks_nil hn
  | cons x xs ih =>
    have hx := h x List.mem_cons_self
    have hne : (x :: xs).flatMap f ≠ [] := by
      rw [List.flatMap_cons]
      exact List.append_ne_nil_of_left_ne_nil (List.ne_nil_of_length_pos (by omega)) _
    rw [chunks_of_ne_nil hn hne, List.flatMap_cons, List.take_left' hx, List.drop_left' hx,
      ih fun y hy => h y (List.mem_cons_of_mem x hy), List.map_cons]

end Chunks
