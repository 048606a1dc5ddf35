/-!
# Occupied positions as bits

Resource groups, resource blocks and control elements are numbered slots of
which some are taken.  A word of bits records them, bit `i` for slot `i`.  The
contiguous run of slots is the one shape every allocation is built from.
-/

namespace MacScheduler.Bits

/-- The bits `start` up to `start + len`, cut off at the width of the word. -/
def span (w start len : Nat) : BitVec w :=
  BitVec.ofNat w ((1 <<< len - 1) <<< start)

theorem getLsbD_span (w start len i : Nat) :
    (span w start len).getLsbD i =
      (decide (i < w) && decide (start ≤ i) && decide (i < start + len)) := by
  have hones : 1 <<< len - 1 = 2 ^ len - 1 := by rw [Nat.shiftLeft_eq, Nat.one_mul]
  rw [span, BitVec.getLsbD_ofNat, hones, Nat.testBit_shiftLeft, Nat.testBit_two_pow_sub_one,
    Bool.and_assoc]
  by_cases hi : start ≤ i
  · have hlen : decide (i - start < len) = decide (i < start + len) :=
      decide_eq_decide.mpr (by omega)
    rw [hlen]
  · rw [decide_eq_false hi, Bool.false_and, Bool.false_and]

theorem getLsbD_span_one (w start i : Nat) :
    (span w start 1).getLsbD i = (decide (i = start) && decide (i < w)) := by
  rw [getLsbD_span]
  by_cases hi : i = start
  · subst hi
    simp
  · have hne : (decide (start ≤ i) && decide (i < start + 1)) = false := by
      simp only [Bool.and_eq_false_iff, decide_eq_false_iff_not]
      omega
    rw [Bool.and_assoc, hne, Bool.and_false, decide_eq_false hi, Bool.false_and]

def count {w : Nat} (b : BitVec w) : Nat :=
  (List.range w).countP b.getLsbD

end MacScheduler.Bits
