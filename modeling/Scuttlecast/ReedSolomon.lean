import Scuttlecast.Machine
import Mathlib.Data.Nat.Log
import Mathlib.Data.List.Range
import Mathlib.Tactic.Common

/-! The erasure codec both ends use, as its documentation describes it. The code itself is a
parameter (`ReedSolomon`); the encoder and decoder objects around it are modelled with the
calls that can fail and the errors they report. -/
namespace Scuttlecast

/-- Smallest power of two not below `n`. -/
def nextPowerOfTwo (n : ℕ) : ℕ := 2 ^ Nat.clog 2 n

theorem nextPowerOfTwo_mono {m n : ℕ} (h : m ≤ n) : nextPowerOfTwo m ≤ nextPowerOfTwo n :=
  Nat.pow_le_pow_right Nat.two_pos (Nat.clog_mono_right 2 h)

/-- Shard counts and sizes a codec can be built for. -/
def Supported (originalCount recoveryCount shardBytes : ℕ) : Prop :=
  0 < originalCount ∧ 0 < recoveryCount ∧
    min (nextPowerOfTwo originalCount) (nextPowerOfTwo recoveryCount) +
      max originalCount recoveryCount ≤ 65536 ∧ 0 < shardBytes ∧ shardBytes % 2 = 0

instance (o r b : ℕ) : Decidable (Supported o r b) := by
  unfold Supported
  infer_instance

/-- A shape narrower than a supported one is supported. -/
theorem Supported.narrow {o r r' b : ℕ} (h : Supported o r b) (hpos : 0 < r') (hle : r' ≤ r) :
    Supported o r' b := by
  obtain ⟨ho, _, hsum, hb⟩ := h
  refine ⟨ho, hpos, ?_, hb⟩
  have := nextPowerOfTwo_mono hle
  omega

/-- The shards of a supported shape can be counted in sixteen bits, but for one shape. -/
theorem Supported.shards_le {o r b : ℕ} (h : Supported o r b) : o + r ≤ 2 ^ 16 := by
  have ho : o ≤ nextPowerOfTwo o := Nat.le_pow_clog (by decide) o
  have hr : r ≤ nextPowerOfTwo r := Nat.le_pow_clog (by decide) r
  have := h.2.2.1
  omega

/-- How many of the first `n` places of `f` are taken. -/
def held {α : Type*} (f : ℕ → Option α) (n : ℕ) : ℕ :=
  (List.range n).countP fun i => (f i).isSome

/-- A systematic erasure code over byte shards, with the documented property that any
`originalCount` of its shards give back all the originals. -/
structure ReedSolomon where
  /-- recovery shards of the given originals -/
  recovery : (originalCount recoveryCount : ℕ) → List Bytes → List Bytes
  /-- what a decode puts at each original index, from the originals and recoveries received -/
  restored : (originalCount recoveryCount : ℕ) → (ℕ → Option Bytes) → (ℕ → Option Bytes) →
    ℕ → Bytes
  length_recovery {o r b : ℕ} {xs : List Bytes} : Supported o r b → xs.length = o →
    (∀ x ∈ xs, x.length = b) → (recovery o r xs).length = r
  size_recovery {o r b : ℕ} {xs : List Bytes} : Supported o r b → xs.length = o →
    (∀ x ∈ xs, x.length = b) → ∀ y ∈ recovery o r xs, y.length = b
  restores {o r b : ℕ} {xs : List Bytes} {given recs : ℕ → Option Bytes} : Supported o r b →
    xs.length = o → (∀ x ∈ xs, x.length = b) →
    (∀ i < o, ∀ x, given i = some x → xs[i]? = some x) →
    (∀ j < r, ∀ y, recs j = some y → (recovery o r xs)[j]? = some y) →
    o ≤ held given o + held recs r → ∀ i < o, xs[i]? = some (restored o r given recs i)

inductive RsError where
  | unsupportedShardCount
  | invalidShardSize
  | differentShardSize
  | tooManyOriginalShards
  | tooFewOriginalShards
  | invalidOriginalShardIndex
  | invalidRecoveryShardIndex
  | duplicateOriginalShardIndex
  | duplicateRecoveryShardIndex
  | notEnoughShards
  deriving DecidableEq, Repr

/-- The check `new` and `reset` make of a shape. -/
def checkShape (o r b : ℕ) : Except RsError Unit :=
  if 0 < o ∧ 0 < r ∧ min (nextPowerOfTwo o) (nextPowerOfTwo r) + max o r ≤ 65536 then
    if 0 < b ∧ b % 2 = 0 then .ok () else .error .invalidShardSize
  else .error .unsupportedShardCount

theorem checkShape_eq_ok {o r b : ℕ} : checkShape o r b = .ok () ↔ Supported o r b := by
  unfold checkShape Supported
  split_ifs <;> simp_all

/-- The encoder: its shape and the original shards added since it was last reset. -/
structure Encoder where
  originalCount : ℕ
  recoveryCount : ℕ
  shardBytes : ℕ
  originals : List Bytes
  deriving DecidableEq, Repr

namespace Encoder

/-- An encoder of the given shape that holds no shard yet. -/
def fresh (o r b : ℕ) : Encoder := ⟨o, r, b, []⟩

def new (o r b : ℕ) : Except RsError Encoder := do
  checkShape o r b
  .ok (fresh o r b)

def reset (_ : Encoder) (o r b : ℕ) : Except RsError Encoder := new o r b

def addOriginalShard (e : Encoder) (shard : Bytes) : Except RsError Encoder :=
  if e.originals.length = e.originalCount then .error .tooManyOriginalShards
  else if shard.length ≠ e.shardBytes then .error .differentShardSize
  else .ok { e with originals := e.originals ++ [shard] }

/-- The recovery shards; the encoder is empty again once they have been read. -/
def encode (rs : ReedSolomon) (e : Encoder) : Except RsError (List Bytes × Encoder) :=
  if e.originals.length = e.originalCount then
    .ok (rs.recovery e.originalCount e.recoveryCount e.originals, { e with originals := [] })
  else .error .tooFewOriginalShards

theorem new_eq_ok_iff {o r b : ℕ} {e : Encoder} :
    new o r b = .ok e ↔ Supported o r b ∧ e = fresh o r b := by
  rw [← checkShape_eq_ok, new]
  rcases checkShape o r b with err | _ <;> simp [Bind.bind, Except.bind, eq_comm]

theorem new_eq_ok {o r b : ℕ} (h : Supported o r b) : new o r b = .ok (fresh o r b) :=
  new_eq_ok_iff.mpr ⟨h, rfl⟩

end Encoder

/-- The decoder: its shape and the shards added since the last decode. -/
structure Decoder where
  originalCount : ℕ
  recoveryCount : ℕ
  shardBytes : ℕ
  original : ℕ → Option Bytes
  recovery : ℕ → Option Bytes

namespace Decoder

def fresh (o r b : ℕ) : Decoder := ⟨o, r, b, fun _ => none, fun _ => none⟩

def new (o r b : ℕ) : Except RsError Decoder := do
  checkShape o r b
  .ok (fresh o r b)

def addOriginalShard (d : Decoder) (index : ℕ) (shard : Bytes) : Except RsError Decoder :=
  if d.originalCount ≤ index then .error .invalidOriginalShardIndex
  else if (d.original index).isSome then .error .duplicateOriginalShardIndex
  else if shard.length ≠ d.shardBytes then .error .differentShardSize
  else .ok { d with original := Function.update d.original index (some shard) }

def addRecoveryShard (d : Decoder) (index : ℕ) (shard : Bytes) : Except RsError Decoder :=
  if d.recoveryCount ≤ index then .error .invalidRecoveryShardIndex
  else if (d.recovery index).isSome then .error .duplicateRecoveryShardIndex
  else if shard.length ≠ d.shardBytes then .error .differentShardSize
  else .ok { d with recovery := Function.update d.recovery index (some shard) }

/-- The originals that were not received, restored; the decoder is empty again afterwards. -/
def decode (rs : ReedSolomon) (d : Decoder) : Except RsError ((ℕ → Option Bytes) × Decoder) :=
  if held d.original d.originalCount + held d.recovery d.recoveryCount < d.originalCount then
    .error .notEnoughShards
  else
    .ok (fun i => if i < d.originalCount ∧ d.original i = none then
        some (rs.restored d.originalCount d.recoveryCount d.original d.recovery i) else none,
      fresh d.originalCount d.recoveryCount d.shardBytes)

theorem new_eq_ok_iff {o r b : ℕ} {d : Decoder} :
    new o r b = .ok d ↔ Supported o r b ∧ d = fresh o r b := by
  rw [← checkShape_eq_ok, new]
  rcases checkShape o r b with err | _ <;> simp [Bind.bind, Except.bind, eq_comm]

theorem new_eq_ok {o r b : ℕ} (h : Supported o r b) : new o r b = .ok (fresh o r b) :=
  new_eq_ok_iff.mpr ⟨h, rfl⟩

theorem decode_of_enough (rs : ReedSolomon) {d : Decoder}
    (h : d.originalCount ≤ held d.original d.originalCount + held d.recovery d.recoveryCount) :
    d.decode rs = .ok (fun i => if i < d.originalCount ∧ d.original i = none then
        some (rs.restored d.originalCount d.recoveryCount d.original d.recovery i) else none,
      fresh d.originalCount d.recoveryCount d.shardBytes) :=
  if_neg (Nat.not_lt.mpr h)

theorem decode_of_few (rs : ReedSolomon) {d : Decoder}
    (h : held d.original d.originalCount + held d.recovery d.recoveryCount < d.originalCount) :
    d.decode rs = .error .notEnoughShards :=
  if_pos h

end Decoder

end Scuttlecast
