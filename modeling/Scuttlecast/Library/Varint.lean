import Mathlib.Data.List.Basic
import Mathlib.Algebra.GroupWithZero.Nat
import Mathlib.Algebra.Order.BigOperators.Group.List
import Mathlib.Algebra.Order.Group.Nat
import Mathlib.Tactic.Common

/-! Variable-length unsigned integers, and sequences with their length in front: small numbers
take one byte, larger ones a marker and two, four or eight bytes, lowest first. -/
namespace Varint

def bytesLe : ℕ → ℕ → List UInt8
  | 0, _ => []
  | width + 1, v => UInt8.ofNat v :: bytesLe width (v / 256)

def ofBytesLe : List UInt8 → ℕ
  | [] => 0
  | b :: bs => b.toNat + 256 * ofBytesLe bs

@[simp] theorem length_bytesLe (width v : ℕ) : (bytesLe width v).length = width := by
  induction width generalizing v with
  | zero => rfl
  | succ width ih => simp [bytesLe, ih]

theorem drop_bytesLe {width n : ℕ} (h : width ≤ n) (v : ℕ) : (bytesLe width v).drop n = [] :=
  List.drop_of_length_le (by rwa [length_bytesLe])

theorem ofBytesLe_bytesLe {width v : ℕ} (h : v < 256 ^ width) :
    ofBytesLe (bytesLe width v) = v := by
  induction width generalizing v with
  | zero => simp only [Nat.pow_zero, Nat.lt_one_iff] at h; subst h; rfl
  | succ width ih =>
    have hdiv : v / 256 < 256 ^ width := Nat.div_lt_of_lt_mul (by rwa [Nat.pow_succ'] at h)
    rw [bytesLe, ofBytesLe, ih hdiv, UInt8.toNat_ofNat']
    omega

theorem bytesLe_ofBytesLe (bs : List UInt8) : bytesLe bs.length (ofBytesLe bs) = bs := by
  induction bs with
  | nil => rfl
  | cons b bs ih =>
    have hb := b.toNat_lt
    have hlow : UInt8.ofNat (b.toNat + 256 * ofBytesLe bs) = b := by
      apply UInt8.toNat_inj.mp
      rw [UInt8.toNat_ofNat']
      omega
    have hhigh : (b.toNat + 256 * ofBytesLe bs) / 256 = ofBytesLe bs := by omega
    rw [List.length_cons, bytesLe, ofBytesLe, hlow, hhigh, ih]

/-- A number of `width` bytes in front of other bytes. -/
def readLe (width : ℕ) (bs : List UInt8) : Option (ℕ × List UInt8) :=
  if width ≤ bs.length then some (ofBytesLe (bs.take width), bs.drop width) else none

theorem readLe_append {width v : ℕ} (h : v < 256 ^ width) (rest : List UInt8) :
    readLe width (bytesLe width v ++ rest) = some (v, rest) := by
  rw [readLe, if_pos (by simp), List.take_left' (length_bytesLe ..),
    List.drop_left' (length_bytesLe ..), ofBytesLe_bytesLe h]

def encode (v : ℕ) : List UInt8 :=
  if v < 251 then [UInt8.ofNat v]
  else if v < 2 ^ 16 then 251 :: bytesLe 2 v
  else if v < 2 ^ 32 then 252 :: bytesLe 4 v
  else 253 :: bytesLe 8 v

/-- Read a number of a type of `width` bytes; a marker of a wider type is refused. -/
def decode (width : ℕ) : List UInt8 → Option (ℕ × List UInt8)
  | [] => none
  | b :: rest =>
    if b.toNat < 251 then some (b.toNat, rest)
    else if b = 251 ∧ 2 ≤ width then readLe 2 rest
    else if b = 252 ∧ 4 ≤ width then readLe 4 rest
    else if b = 253 ∧ 8 ≤ width then readLe 8 rest
    else none

theorem length_encode (v : ℕ) : (encode v).length =
    if v < 251 then 1 else if v < 2 ^ 16 then 3 else if v < 2 ^ 32 then 5 else 9 := by
  unfold encode
  split_ifs <;> simp

theorem length_encode_le (v : ℕ) : (encode v).length ≤ 9 := by
  rw [length_encode]
  split_ifs <;> omega

theorem length_encode_le_five {v : ℕ} (h : v < 2 ^ 32) : (encode v).length ≤ 5 := by
  rw [length_encode]
  split_ifs <;> omega

/-- A number of the type is read back, whatever follows it. -/
theorem decode_encode {width v : ℕ} (hw : width = 2 ∨ width = 4 ∨ width = 8)
    (h : v < 256 ^ width) (rest : List UInt8) :
    decode width (encode v ++ rest) = some (v, rest) := by
  unfold encode
  split_ifs with h1 h2 h3
  · have hb : (UInt8.ofNat v).toNat = v := by rw [UInt8.toNat_ofNat']; omega
    simp [decode, hb, h1]
  · have h2w : 2 ≤ width := by omega
    simp [decode, h2w, readLe_append (show v < 256 ^ 2 by omega)]
  · have h4w : 4 ≤ width := by
      rcases hw with rfl | rfl | rfl
      · simp at h; omega
      · omega
      · omega
    simp [decode, h4w, readLe_append (show v < 256 ^ 4 by omega)]
  · have h8w : 8 = width := by
      rcases hw with rfl | rfl | rfl
      · simp at h; omega
      · simp at h; omega
      · rfl
    subst h8w
    simp [decode, readLe_append h]

theorem ofBytesLe_lt (bs : List UInt8) : ofBytesLe bs < 256 ^ bs.length := by
  induction bs with
  | nil => exact Nat.one_pos
  | cons b bs ih =>
    have hb := b.toNat_lt
    rw [List.length_cons, Nat.pow_succ', ofBytesLe]
    omega

theorem readLe_fits {width v : ℕ} {bs rest : List UInt8} (h : readLe width bs = some (v, rest)) :
    v < 256 ^ width ∧ rest.length + width = bs.length := by
  unfold readLe at h
  split_ifs at h with hle
  cases h
  have htake : (bs.take width).length = width := by rw [List.length_take]; omega
  refine ⟨?_, by rw [List.length_drop]; omega⟩
  have hlt := ofBytesLe_lt (bs.take width)
  rwa [htake] at hlt

/-- A number that is read is one of its type, and would be written in no more bytes. -/
theorem decode_fits {width v : ℕ} (hw : width = 2 ∨ width = 4 ∨ width = 8) {bs rest : List UInt8}
    (h : decode width bs = some (v, rest)) :
    v < 256 ^ width ∧ (encode v).length + rest.length ≤ bs.length := by
  have hmono {n : ℕ} (hn : n ≤ width) : 256 ^ n ≤ 256 ^ width := Nat.pow_le_pow_right (by decide) hn
  cases bs with
  | nil => cases h
  | cons b bs =>
    unfold decode at h
    dsimp only at h
    rw [length_encode, List.length_cons]
    split_ifs at h with h1 h2 h4 h8
    · cases h
      have hone : 256 ^ 1 ≤ 256 ^ width := hmono (by omega)
      rw [if_pos h1]
      omega
    · obtain ⟨hlt, hlen⟩ := readLe_fits h
      have htype := hmono h2.2
      refine ⟨by omega, ?_⟩
      split_ifs <;> omega
    · obtain ⟨hlt, hlen⟩ := readLe_fits h
      have htype := hmono h4.2
      refine ⟨by omega, ?_⟩
      split_ifs <;> omega
    · obtain ⟨hlt, hlen⟩ := readLe_fits h
      have htype := hmono h8.2
      refine ⟨by omega, ?_⟩
      split_ifs <;> omega

section Sequence

variable {α : Type} (enc : α → List UInt8) (dec : List UInt8 → Option (α × List UInt8))

/-- As many elements as `count` says. -/
def readMany : ℕ → List UInt8 → Option (List α × List UInt8)
  | 0, bs => some ([], bs)
  | count + 1, bs => do
    let (x, bs) ← dec bs
    let (xs, bs) ← readMany count bs
    some (x :: xs, bs)

def encodeList (xs : List α) : List UInt8 := encode xs.length ++ xs.flatMap enc

def decodeList (bs : List UInt8) : Option (List α × List UInt8) := do
  let (count, bs) ← decode 8 bs
  readMany dec count bs

variable {enc dec}

theorem readMany_flatMap {xs : List α} (rest : List UInt8)
    (h : ∀ x ∈ xs, ∀ rest, dec (enc x ++ rest) = some (x, rest)) :
    readMany dec xs.length (xs.flatMap enc ++ rest) = some (xs, rest) := by
  induction xs with
  | nil => rfl
  | cons x xs ih =>
    have htail := ih fun y hy => h y (List.mem_cons_of_mem _ hy)
    simp [readMany, List.flatMap_cons, List.append_assoc, h x List.mem_cons_self, htail]

theorem length_encodeList (xs : List α) : (encodeList enc xs).length =
    (encode xs.length).length + (xs.map fun x => (enc x).length).sum := by
  rw [encodeList, List.length_append, List.length_flatMap]

theorem length_encode_mono {v w : ℕ} (h : v ≤ w) : (encode v).length ≤ (encode w).length := by
  rw [length_encode, length_encode]
  split_ifs <;> omega

/-- Fewer elements take no more room. -/
theorem length_encodeList_le {xs ys : List α} (h : xs.Sublist ys) :
    (encodeList enc xs).length ≤ (encodeList enc ys).length := by
  rw [length_encodeList, length_encodeList]
  have hsum := List.Sublist.sum_le_sum (h.map fun x => (enc x).length) fun _ _ => Nat.zero_le _
  have := length_encode_mono h.length_le
  omega

/-- The first `n` numbers take a byte each, and two more from the first that needs a marker. -/
theorem length_encodeList_range {n : ℕ} (h : n ≤ 2 ^ 16) :
    (encodeList encode (List.range n)).length = (encode n).length + (n + 2 * (n - 251)) := by
  have hsum : ((List.range n).map fun v => (encode v).length).sum = n + 2 * (n - 251) := by
    induction n with
    | zero => rfl
    | succ n ih =>
      rw [List.range_succ, List.map_append, List.sum_append, ih (by omega), List.map_singleton,
        List.sum_singleton, length_encode]
      split_ifs <;> omega
  rw [length_encodeList, List.length_range, hsum]

theorem decodeList_encodeList {xs : List α} (hlen : xs.length < 2 ^ 64) (rest : List UInt8)
    (h : ∀ x ∈ xs, ∀ rest, dec (enc x ++ rest) = some (x, rest)) :
    decodeList dec (encodeList enc xs ++ rest) = some (xs, rest) := by
  have hcount := decode_encode (v := xs.length) (.inr (.inr rfl)) (by simpa using hlen)
    (xs.flatMap enc ++ rest)
  rw [encodeList, List.append_assoc, decodeList, hcount]
  exact readMany_flatMap rest h

/-- A sequence whose elements fit takes no more bytes than it was read from. -/
theorem readMany_fits {P : α → Prop} (h : ∀ bs x rest, dec bs = some (x, rest) →
      P x ∧ (enc x).length + rest.length ≤ bs.length) {count : ℕ} {bs rest : List UInt8} {xs : List α}
    (hread : readMany dec count bs = some (xs, rest)) :
    xs.length = count ∧ (∀ x ∈ xs, P x) ∧ (xs.flatMap enc).length + rest.length ≤ bs.length := by
  induction count generalizing bs xs with
  | zero =>
    cases hread
    simp
  | succ count ih =>
    simp only [readMany, Option.bind_eq_bind, Option.bind_eq_some_iff, Prod.exists,
      Option.some.injEq, Prod.mk.injEq] at hread
    obtain ⟨x, bs₁, hx, ys, rest', hys, rfl, rfl⟩ := hread
    obtain ⟨hP, hlen⟩ := h _ _ _ hx
    obtain ⟨hcount, hall, hrest⟩ := ih hys
    refine ⟨by simp [hcount], List.forall_mem_cons.mpr ⟨hP, hall⟩, ?_⟩
    rw [List.flatMap_cons, List.length_append]
    omega

theorem decodeList_fits {P : α → Prop} (h : ∀ bs x rest, dec bs = some (x, rest) →
      P x ∧ (enc x).length + rest.length ≤ bs.length) {bs rest : List UInt8} {xs : List α}
    (hread : decodeList dec bs = some (xs, rest)) :
    xs.length < 2 ^ 64 ∧ (∀ x ∈ xs, P x) ∧
      (encodeList enc xs).length + rest.length ≤ bs.length := by
  simp only [decodeList, Option.bind_eq_bind, Option.bind_eq_some_iff, Prod.exists] at hread
  obtain ⟨count, bs₁, hcount, hmany⟩ := hread
  obtain ⟨hlt, hlen⟩ := decode_fits (.inr (.inr rfl)) hcount
  obtain ⟨rfl, hall, hrest⟩ := readMany_fits h hmany
  refine ⟨by omega, hall, ?_⟩
  rw [encodeList, List.length_append]
  omega

end Sequence

end Varint
