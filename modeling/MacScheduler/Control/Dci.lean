import MacScheduler.Count

/-!
# Grant message locations

A grant message occupies consecutive control elements of the control region,
beginning at its first element: one of them at aggregation level zero, and twice
as many with each further level.
-/

namespace MacScheduler

def maxAggrLevel : Nat := 3

/-- Control elements that a message occupies at an aggregation level. -/
def levelSize (level : Nat) : Nat := 1 <<< level

@[simp] theorem levelSize_zero : levelSize 0 = 1 := rfl

theorem levelSize_succ (level : Nat) : levelSize (level + 1) = 2 * levelSize level := by
  simp only [levelSize, Nat.shiftLeft_succ]

theorem levelSize_pos (level : Nat) : 0 < levelSize level := by
  induction level with
  | zero => exact Nat.one_pos
  | succ level ih =>
      rw [levelSize_succ]
      omega

/-- First control element and aggregation level of a grant message. -/
structure DciLocation where
  first : Nat
  level : Nat
deriving DecidableEq

namespace DciLocation

/-- Control elements that the message occupies; a level beyond a word wraps around. -/
def size (d : DciLocation) : Nat := levelSize (d.level % 32)

/-- The element after the last one. -/
def stop (d : DciLocation) : Nat := wrap (d.first + d.size)

def overlaps (a b : DciLocation) : Bool :=
  decide (a.first < b.stop) && decide (b.first < a.stop)

end DciLocation

end MacScheduler
