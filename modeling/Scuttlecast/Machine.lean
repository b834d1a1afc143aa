import Mathlib.Algebra.Group.Nat.Defs

/-! What the Rust runtime adds to the arithmetic of the source: results are checked at the width
of their type, and a failed check, like a failed `expect`, ends the task it happens in. -/
namespace Scuttlecast

abbrev Bytes := List UInt8

/-- How a task dies: a result leaves its type, an `expect` or an assertion fails with its message,
or a slice is taken past the end of its buffer. -/
inductive Panic where
  | overflow (bits : ℕ)
  | expect (message : String)
  | assert (message : String)
  | outOfRange (endIndex len : ℕ)
  deriving DecidableEq, Repr

/-- `a + b` at an unsigned type of `bits` bits. -/
def addChecked (bits a b : ℕ) : Except Panic ℕ :=
  if a + b < 2 ^ bits then .ok (a + b) else .error (.overflow bits)

theorem addChecked_of_lt {bits a b : ℕ} (h : a + b < 2 ^ bits) :
    addChecked bits a b = .ok (a + b) := if_pos h

theorem addChecked_eq_ok {bits a b c : ℕ} :
    addChecked bits a b = .ok c ↔ a + b < 2 ^ bits ∧ c = a + b := by
  unfold addChecked
  split
  next h => simp [h, eq_comm]
  next h => simp [h]

theorem addChecked_eq_error {bits a b : ℕ} {e : Panic} :
    addChecked bits a b = .error e ↔ 2 ^ bits ≤ a + b ∧ e = .overflow bits := by
  unfold addChecked
  split
  next h => simp only [reduceCtorEq, false_iff]; omega
  next h => simp only [Except.error.injEq, Nat.not_lt.mp h, true_and, eq_comm]

/-- `a - b` at an unsigned type of `bits` bits. -/
def subChecked (bits a b : ℕ) : Except Panic ℕ :=
  if b ≤ a then .ok (a - b) else .error (.overflow bits)

/-- `a * b` at an unsigned type of `bits` bits. -/
def mulChecked (bits a b : ℕ) : Except Panic ℕ :=
  if a * b < 2 ^ bits then .ok (a * b) else .error (.overflow bits)

theorem subChecked_of_le {bits a b : ℕ} (h : b ≤ a) : subChecked bits a b = .ok (a - b) :=
  if_pos h

theorem mulChecked_eq_ok {bits a b c : ℕ} :
    mulChecked bits a b = .ok c ↔ a * b < 2 ^ bits ∧ c = a * b := by
  unfold mulChecked
  split
  next h => simp [h, eq_comm]
  next h => simp [h]

/-- `a.expect(message)` on an `Option`. -/
def expectSome {α : Type*} (message : String) : Option α → Except Panic α
  | some x => .ok x
  | none => .error (.expect message)

/-- `a.expect(message)` on a `Result`, whose error is dropped. -/
def expectOk {α ε : Type*} (message : String) : Except ε α → Except Panic α
  | .ok x => .ok x
  | .error _ => .error (.expect message)

@[simp] theorem expectSome_some {α : Type*} (message : String) (x : α) :
    expectSome message (some x) = .ok x := rfl

@[simp] theorem expectSome_none {α : Type*} (message : String) :
    expectSome message (none : Option α) = .error (.expect message) := rfl

@[simp] theorem expectOk_ok {α ε : Type*} (message : String) (x : α) :
    expectOk message (.ok x : Except ε α) = .ok x := rfl

@[simp] theorem expectOk_error {α ε : Type*} (message : String) (e : ε) :
    expectOk message (.error e : Except ε α) = .error (.expect message) := rfl

section Bind

variable {ε : Type*} {α β : Type} {x : Except ε α} {f : α → Except ε β}

/-- A bind succeeds exactly when both of its parts do. -/
theorem bind_ok_iff {b : β} : x >>= f = .ok b ↔ ∃ a, x = .ok a ∧ f a = .ok b := by
  rcases x with e | a <;> simp [Bind.bind, Except.bind]

/-- A bind fails in its first part or, that one done, in its second. -/
theorem bind_error_iff {e : ε} :
    x >>= f = .error e ↔ x = .error e ∨ ∃ a, x = .ok a ∧ f a = .error e := by
  rcases x with e | a <;> simp [Bind.bind, Except.bind]

theorem toOption_eq_some {a : α} : x.toOption = some a ↔ x = .ok a := by
  rcases x with e | a <;> simp [Except.toOption]

@[simp] theorem ok_bind {a : α} : (Except.ok a : Except ε α) >>= f = f a := rfl

end Bind

end Scuttlecast
