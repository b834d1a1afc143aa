import Scuttlecast.ReedSolomon
import Scuttlecast.Library.Interpolation

/-! There is a code with the properties that are asked of `ReedSolomon`: shards of one size are
the symbols of an interpolation code over a field with as many elements. -/
namespace Scuttlecast
namespace ReedSolomon

open Finset

variable {o r b : ℕ} {xs ys : List Bytes}

abbrev Shard (b : ℕ) : Type := { shard : Bytes // shard.length = b }

theorem card_shard (b : ℕ) : Nat.card (Shard b) = 2 ^ (8 * b) ∧ Finite (Shard b) := by
  let e : UInt8 ≃ Fin (2 ^ 8) := ⟨UInt8.toFin, UInt8.ofFin, fun _ => rfl, fun _ => rfl⟩
  have : Fintype UInt8 := .ofEquiv _ e.symm
  change Nat.card (List.Vector UInt8 b) = _ ∧ Finite (List.Vector UInt8 b)
  refine ⟨?_, inferInstance⟩
  rw [Nat.card_eq_fintype_card, card_vector, Fintype.card_congr e, Fintype.card_fin, pow_mul]

theorem nonempty_code (h : Supported o r b) :
    Nonempty (Interpolation.Code (Shard b) o (o + r)) := by
  obtain ⟨hcard, hfinite⟩ := card_shard b
  obtain ⟨_, _, _, hpos, heven⟩ := id h
  have hpow : 2 ^ 16 ≤ 2 ^ (8 * b) := Nat.pow_le_pow_right Nat.two_pos (by omega)
  have : Fact (Nat.Prime 2) := ⟨Nat.prime_two⟩
  exact Interpolation.nonempty_code (by omega) hcard (Nat.le_add_right o r)
    (h.shards_le.trans hpow)

noncomputable def code (h : Supported o r b) : Interpolation.Code (Shard b) o (o + r) :=
  Classical.choice (nonempty_code h)

/-- Shards of one size as a word; what is not of that size counts as zeros. -/
def word (b : ℕ) (xs : List Bytes) (i : ℕ) : Shard b :=
  if h : (xs.getD i []).length = b then ⟨xs.getD i [], h⟩ else ⟨List.replicate b 0, List.length_replicate⟩

theorem word_of_getElem? {x : Bytes} {i : ℕ} (h : xs[i]? = some x) (hx : x.length = b) :
    (word b xs i).1 = x := by
  have hget : xs.getD i [] = x := by rw [List.getD_eq_getElem?_getD, h, Option.getD_some]
  have hlen : (xs.getD i []).length = b := by rw [hget, hx]
  rw [word, dif_pos hlen]
  exact hget

/-- Shards `xs` to be sent with `r` recovery shards. -/
structure Shape (o r b : ℕ) (xs : List Bytes) : Prop where
  supported : Supported o r b
  length : xs.length = o
  size : ∀ x ∈ xs, x.length = b

noncomputable def recoveryShards (o r : ℕ) (xs : List Bytes) : List Bytes :=
  if h : Supported o r (xs.headD []).length then
    (List.range r).map fun j => ((code h).extend (word _ xs) (o + j)).1
  else []

theorem Shape.recoveryShards_eq (h : Shape o r b xs) : recoveryShards o r xs =
    (List.range r).map fun j => ((code h.supported).extend (word b xs) (o + j)).1 := by
  have hb : (xs.headD []).length = b := by
    have hpos := h.supported.1
    rcases xs with _ | ⟨x, xs⟩
    · have := h.length
      simp at this
      omega
    · exact h.size x List.mem_cons_self
  subst hb
  exact dif_pos h.supported

theorem Shape.size_recovery (h : Shape o r b xs) : ∀ y ∈ recoveryShards o r xs, y.length = b := by
  rw [h.recoveryShards_eq]
  intro y hy
  obtain ⟨j, _, rfl⟩ := List.mem_map.mp hy
  exact ((code h.supported).extend (word b xs) (o + j)).2

/-- What was received is of these shards. -/
def Received (o r : ℕ) (given recs : ℕ → Option Bytes) (xs : List Bytes) : Prop :=
  (∀ i < o, ∀ x, given i = some x → xs[i]? = some x) ∧
    ∀ j < r, ∀ y, recs j = some y → (recoveryShards o r xs)[j]? = some y

/-- The places of the extended word that were received. -/
def places (o r : ℕ) (given recs : ℕ → Option Bytes) : Finset ℕ :=
  (range o).filter (fun i => (given i).isSome) ∪
    ((range r).filter fun j => (recs j).isSome).map (addLeftEmbedding o)

theorem mem_places {given recs : ℕ → Option Bytes} {k : ℕ} (h : k ∈ places o r given recs) :
    (k < o ∧ ∃ x, given k = some x) ∨ ∃ j < r, k = o + j ∧ ∃ y, recs j = some y := by
  simp only [places, mem_union, mem_filter, mem_map, mem_range, Option.isSome_iff_exists,
    addLeftEmbedding_apply] at h
  rcases h with h | ⟨j, ⟨hj, hy⟩, rfl⟩
  · exact .inl h
  · exact .inr ⟨j, hj, rfl, hy⟩

theorem card_places (o r : ℕ) (given recs : ℕ → Option Bytes) :
    #(places o r given recs) = held given o + held recs r := by
  have hheld (f : ℕ → Option Bytes) (n : ℕ) :
      #((range n).filter fun i => (f i).isSome) = held f n := by
    rw [held, List.countP_eq_length_filter, ← List.toFinset_card_of_nodup
      ((List.nodup_range).filter _), List.toFinset_filter, List.toFinset_range]
  rw [places, card_union_of_disjoint, card_map, hheld, hheld]
  rw [disjoint_left]
  intro k hk hk'
  obtain ⟨j, _, rfl⟩ := mem_map.mp hk'
  have := mem_range.mp (mem_filter.mp hk).1
  simp at this

/-- Two lists that as many received shards come from are the same. -/
theorem eq_of_received {b' : ℕ} {given recs : ℕ → Option Bytes} (hx : Shape o r b xs)
    (hy : Shape o r b' ys) (hrx : Received o r given recs xs) (hry : Received o r given recs ys)
    (henough : o ≤ held given o + held recs r) : xs = ys := by
  rw [← card_places] at henough
  have hb : b = b' := by
    have hne : (places o r given recs).Nonempty :=
      card_pos.mp (lt_of_lt_of_le hx.supported.1 henough)
    obtain ⟨k, hk⟩ := hne
    rcases mem_places hk with ⟨hk, x, hgiven⟩ | ⟨j, hj, _, y, hrec⟩
    · rw [← hx.size x (List.mem_of_getElem? (hrx.1 k hk x hgiven)),
        ← hy.size x (List.mem_of_getElem? (hry.1 k hk x hgiven))]
    · rw [← hx.size_recovery y (List.mem_of_getElem? (hrx.2 j hj y hrec)),
        ← hy.size_recovery y (List.mem_of_getElem? (hry.2 j hj y hrec))]
  subst hb
  have hword := (code hx.supported).separates (word b xs) (word b ys) (places o r given recs)
    (fun k hk => by
      rcases mem_places hk with ⟨hk, _⟩ | ⟨j, hj, rfl, _⟩ <;> rw [mem_range] <;> omega)
    henough (fun k hk => by
      rcases mem_places hk with ⟨hk, x, hgiven⟩ | ⟨j, hj, rfl, y, hrec⟩
      · have hsize := hx.size x (List.mem_of_getElem? (hrx.1 k hk x hgiven))
        rw [(code hx.supported).systematic _ k hk, (code hx.supported).systematic _ k hk]
        apply Subtype.ext
        rw [word_of_getElem? (hrx.1 k hk x hgiven) hsize,
          word_of_getElem? (hry.1 k hk x hgiven) hsize]
      · have hxj := hrx.2 j hj y hrec
        have hyj := hry.2 j hj y hrec
        rw [hx.recoveryShards_eq, List.getElem?_map, List.getElem?_range hj] at hxj
        rw [hy.recoveryShards_eq, List.getElem?_map, List.getElem?_range hj] at hyj
        apply Subtype.ext
        exact Option.some.inj (hxj.trans hyj.symm))
  apply List.ext_getElem (hx.length.trans hy.length.symm)
  intro i hi hi'
  have hx' := List.getElem?_eq_getElem hi
  have hy' := List.getElem?_eq_getElem hi'
  have heq := congrArg Subtype.val (hword i (hx.length ▸ hi))
  rwa [word_of_getElem? hx' (hx.size _ (List.getElem_mem hi)),
    word_of_getElem? hy' (hy.size _ (List.getElem_mem hi'))] at heq

open Classical in
/-- The code: recovery shards extend the word, and what was received is looked up. -/
noncomputable def interpolated : ReedSolomon where
  recovery := recoveryShards
  restored o r given recs i :=
    if h : ∃ xs, (∃ b, Shape o r b xs) ∧ Received o r given recs xs then h.choose.getD i []
    else []
  length_recovery hs hlen hsize := by
    rw [Shape.recoveryShards_eq ⟨hs, hlen, hsize⟩, List.length_map, List.length_range]
  size_recovery hs hlen hsize := Shape.size_recovery ⟨hs, hlen, hsize⟩
  restores {o r b xs given recs} hs hlen hsize hgiven hrecs henough i hi := by
    have hex : ∃ xs, (∃ b, Shape o r b xs) ∧ Received o r given recs xs :=
      ⟨xs, ⟨b, hs, hlen, hsize⟩, hgiven, hrecs⟩
    obtain ⟨⟨b', hshape⟩, hreceived⟩ := hex.choose_spec
    have heq := eq_of_received ⟨hs, hlen, hsize⟩ hshape ⟨hgiven, hrecs⟩ hreceived henough
    rw [dif_pos hex, ← heq, List.getD_eq_getElem?_getD,
      List.getElem?_eq_getElem (hlen.symm ▸ hi)]
    rfl

end ReedSolomon
end Scuttlecast
