import MacScheduler.Link.Direction

/-!
# Candidates for new data

Terminals with fresh data compete for what retransmissions leave.  Ratios of
rates are compared in the total order of doubles, in which negative numbers
come first and numbers that are no number come last.
-/

namespace MacScheduler

/-- A terminal that competes for new data in one pass. -/
structure Candidate where
  rnti : Rnti
  pending : Nat
  /-- Resource units asked for. -/
  units : Nat
  /-- Bytes that one unit carries at the present scheme. -/
  bytesPerUnit : Float

/-- Position of a double in the total order: positive ones follow their bits, and
negative ones the reverse, below them. -/
def floatRank (x : Float) : Nat :=
  let bits := x.toBits.toNat
  let signBit := 0x8000000000000000
  if bits < signBit then signBit + bits else 2 * signBit - 1 - bits

end MacScheduler
