import MacScheduler.Control.Dci
import MacScheduler.Link.Direction

/-!
# Search spaces

A terminal looks for its grant messages at a few places of the control region
only.  They follow from a hash of its identifier that moves on every subframe,
and successive candidates are successive aligned positions of the region.
-/

namespace MacScheduler

/-- Control elements of a region of `cfi` symbols on `nofPrb` resource blocks:
what the format indicator and one acknowledgement group per eight blocks leave,
in units of nine element groups. -/
def regionSize (nofPrb cfi : Nat) : Nat :=
  (nofPrb * (2 + 3 * (cfi - 1)) - (4 + 3 * ((nofPrb + 7) / 8))) / 9

namespace SearchSpace

/-- Candidates that a terminal tries at each aggregation level. -/
def nofCandidates (level : Nat) : Nat :=
  [6, 6, 2, 2].getD level 0

/-- The hash of an identifier after `n` steps. -/
def hash (rnti : Rnti) : Nat → Nat
  | 0 => rnti.val
  | n + 1 => 39827 * hash rnti n % 65537

/-- The aligned positions that `hash` and its successors select among `positions`. -/
def starts (hash positions level : Nat) : List Nat :=
  (List.range (nofCandidates level)).map fun m ↦ levelSize level * ((hash + m) % positions)

/-- Inserts into a strictly ascending list, keeping one copy of each value. -/
def insertAscending (x : Nat) : List Nat → List Nat
  | [] => [x]
  | y :: ys =>
      if x < y then x :: y :: ys
      else if x = y then y :: ys
      else y :: insertAscending x ys

def ascending : List Nat → List Nat
  | [] => []
  | x :: xs => insertAscending x (ascending xs)

/-- First control elements that `rnti` tries in a subframe, ascending. -/
def candidates (rnti : Rnti) (nofCce subframe level : Nat) : List Nat :=
  let positions := nofCce / levelSize level
  if positions = 0 then []
  else ascending (starts (hash rnti (subframe + 1)) positions level)

end SearchSpace

end MacScheduler
