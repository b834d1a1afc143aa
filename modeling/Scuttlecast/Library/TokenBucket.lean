import Mathlib.Algebra.Order.Group.Defs
import Mathlib.Algebra.Order.Group.Unbundled.Basic
import Mathlib.Algebra.BigOperators.Group.List.Basic
import Mathlib.Order.Lattice
import Mathlib.Tactic.Abel
import Mathlib.Tactic.Common

/-! Token buckets whose size may change: what is earned is added up to the size of the moment, and
what is spent is taken out. Over any stretch no more is spent than the bucket holds at its start
and what is earned during it. -/
namespace TokenBucket

/-- One turn of a bucket. -/
structure Turn (K : Type*) where
  earned : K
  size : K
  spent : K

variable {K : Type*} [AddCommGroup K] [LinearOrder K]

/-- Filled up, and never past the size. -/
def Turn.filled (t : Turn K) (level : K) : K := min (level + t.earned) t.size

def Turn.after (t : Turn K) (level : K) : K := t.filled level - t.spent

/-- The level a list of turns leaves. -/
def levelAfter (level : K) (turns : List (Turn K)) : K :=
  turns.foldl (fun level t => t.after level) level

@[simp] theorem levelAfter_cons (level : K) (t : Turn K) (turns : List (Turn K)) :
    levelAfter level (t :: turns) = levelAfter (t.after level) turns := rfl

theorem Turn.after_add_spent_le (t : Turn K) (level : K) :
    t.after level + t.spent ≤ level + t.earned := by
  rw [Turn.after, sub_add_cancel]
  exact min_le_left ..

theorem Turn.after_add_spent_le_size (t : Turn K) (level : K) :
    t.after level + t.spent ≤ t.size := by
  rw [Turn.after, sub_add_cancel]
  exact min_le_right ..

variable [IsOrderedAddMonoid K]

/-- What is left and what was spent come out of the level at the start and what was earned. -/
theorem levelAfter_add_spent_le (level : K) (turns : List (Turn K)) :
    levelAfter level turns + (turns.map Turn.spent).sum ≤
      level + (turns.map Turn.earned).sum := by
  induction turns generalizing level with
  | nil => exact le_rfl
  | cons t turns ih =>
    rw [levelAfter_cons, List.map_cons, List.sum_cons, List.map_cons, List.sum_cons]
    calc levelAfter (t.after level) turns + (t.spent + (turns.map Turn.spent).sum)
        = levelAfter (t.after level) turns + (turns.map Turn.spent).sum + t.spent := by abel
      _ ≤ t.after level + (turns.map Turn.earned).sum + t.spent := add_le_add (ih _) le_rfl
      _ = t.after level + t.spent + (turns.map Turn.earned).sum := by abel
      _ ≤ level + t.earned + (turns.map Turn.earned).sum :=
          add_le_add (t.after_add_spent_le level) le_rfl
      _ = level + (t.earned + (turns.map Turn.earned).sum) := by abel

/-- They also come out of the size at the first turn and what was earned after it. -/
theorem levelAfter_add_spent_le_size (level : K) (t : Turn K) (turns : List (Turn K)) :
    levelAfter level (t :: turns) + ((t :: turns).map Turn.spent).sum ≤
      t.size + (turns.map Turn.earned).sum := by
  rw [levelAfter_cons, List.map_cons, List.sum_cons]
  calc levelAfter (t.after level) turns + (t.spent + (turns.map Turn.spent).sum)
      = levelAfter (t.after level) turns + (turns.map Turn.spent).sum + t.spent := by abel
    _ ≤ t.after level + (turns.map Turn.earned).sum + t.spent :=
        add_le_add (levelAfter_add_spent_le _ _) le_rfl
    _ = t.after level + t.spent + (turns.map Turn.earned).sum := by abel
    _ ≤ t.size + (turns.map Turn.earned).sum :=
        add_le_add (t.after_add_spent_le_size level) le_rfl

end TokenBucket
