import MacScheduler.Count
import MacScheduler.Grid.Bits

/-!
# Resource block intervals

An uplink allocation is a contiguous interval of resource blocks.  The blocks
already taken in a subframe are kept in an occupancy map, and a search walks
its maximal free runs from the low end.
-/

namespace MacScheduler

/-- The blocks `start` up to `start + len`. -/
structure PrbInterval where
  start : Nat
  len : Nat
deriving DecidableEq

namespace PrbInterval

instance : Inhabited PrbInterval := ⟨⟨0, 0⟩⟩

/-- The block after the last one. -/
def stop (i : PrbInterval) : Nat := wrap (i.start + i.len)

def isEmpty (i : PrbInterval) : Bool := i.len == 0

def overlaps (a b : PrbInterval) : Bool :=
  !a.isEmpty && !b.isEmpty && decide (a.start < b.stop) && decide (b.start < a.stop)

end PrbInterval

/-- The blocks taken on a carrier of `size` blocks. -/
structure PrbMap where
  size : Nat
  bits : BitVec 128
deriving DecidableEq

namespace PrbMap

def empty (size : Nat) : PrbMap := ⟨size, 0⟩

def taken (m : PrbMap) (k : Nat) : Bool := m.bits.getLsbD k

/-- Whether the interval lies on the carrier and none of its blocks is taken. -/
def isFree (m : PrbMap) (i : PrbInterval) : Bool :=
  decide (i.stop ≤ m.size) &&
    (List.range' i.start (i.stop - i.start)).all fun k ↦ !m.taken k

/-- The part of the interval that lies on the carrier. -/
def clip (m : PrbMap) (i : PrbInterval) : BitVec 128 :=
  Bits.span 128 i.start (min i.stop m.size - i.start)

def fill (m : PrbMap) (i : PrbInterval) : PrbMap :=
  { m with bits := m.bits ||| m.clip i }

def clear (m : PrbMap) (i : PrbInterval) : PrbMap :=
  { m with bits := m.bits &&& ~~~ m.clip i }

def count (m : PrbMap) : Nat := Bits.count m.bits

/-! ## What the operations do to the blocks taken -/

@[simp] theorem taken_empty (size k : Nat) : (empty size).taken k = false := by
  simp [taken, empty]

theorem getLsbD_clip (m : PrbMap) (i : PrbInterval) (k : Nat) :
    (m.clip i).getLsbD k =
      (decide (k < 128) && decide (i.start ≤ k) && decide (k < min i.stop m.size)) := by
  rw [clip, Bits.getLsbD_span]
  by_cases hk : i.start ≤ k
  · have h : k < i.start + (min i.stop m.size - i.start) ↔ k < min i.stop m.size := by omega
    simp [hk, h]
  · simp [hk]

theorem taken_fill (m : PrbMap) (i : PrbInterval) (k : Nat) :
    (m.fill i).taken k =
      (m.taken k ||
        (decide (k < 128) && decide (i.start ≤ k) && decide (k < min i.stop m.size))) := by
  rw [taken, fill, BitVec.getLsbD_or, getLsbD_clip]
  rfl

theorem taken_clear (m : PrbMap) (i : PrbInterval) (k : Nat) :
    (m.clear i).taken k =
      (m.taken k && !(decide (i.start ≤ k) && decide (k < min i.stop m.size))) := by
  by_cases hk : k < 128
  · rw [taken, clear, BitVec.getLsbD_and, BitVec.getLsbD_not, getLsbD_clip]
    simp [hk, taken]
  · have hm : m.taken k = false := BitVec.getLsbD_of_ge _ _ (by omega)
    have hc : (m.clear i).taken k = false := BitVec.getLsbD_of_ge _ _ (by omega)
    rw [hm, hc, Bool.false_and]

theorem isFree_iff {m : PrbMap} {i : PrbInterval} :
    m.isFree i = true ↔
      i.stop ≤ m.size ∧ ∀ k, i.start ≤ k → k < i.stop → m.taken k = false := by
  have hmem (k : Nat) : i.start ≤ k ∧ k < i.start + (i.stop - i.start) ↔
      i.start ≤ k ∧ k < i.stop := by omega
  simp only [isFree, Bool.and_eq_true, decide_eq_true_eq, List.all_eq_true, List.mem_range'_1,
    hmem, Bool.not_eq_true', and_imp]

/-- Splits occupancy flags, the first of which belongs to block `pos`, into the
maximal runs of free blocks; `len` free blocks lie directly before `pos`. -/
def runsFrom : (pos len : Nat) → List Bool → List PrbInterval
  | pos, len, [] => if len = 0 then [] else [⟨pos - len, len⟩]
  | pos, len, false :: flags => runsFrom (pos + 1) (len + 1) flags
  | pos, len, true :: flags =>
      if len = 0 then runsFrom (pos + 1) 0 flags
      else ⟨pos - len, len⟩ :: runsFrom (pos + 1) 0 flags

def freeRuns (m : PrbMap) : List PrbInterval :=
  runsFrom 0 0 ((List.range m.size).map m.taken)

def findExact (m : PrbMap) (len : Nat) : Option PrbInterval :=
  if len = 0 then none
  else (m.freeRuns.find? fun run ↦ decide (len ≤ run.len)).map fun run ↦ ⟨run.start, len⟩

/-- The longest run of a list, the earlier one of two equals. -/
def longest : List PrbInterval → Option PrbInterval
  | [] => none
  | run :: runs =>
      match longest runs with
      | none => some run
      | some best => if run.len < best.len then some best else some run

/-- The first free interval of `len` blocks, or the longest free run when no
run is long enough. -/
def findUpTo (m : PrbMap) (len : Nat) : Option PrbInterval :=
  (m.findExact len).or (longest m.freeRuns)

end PrbMap

end MacScheduler
