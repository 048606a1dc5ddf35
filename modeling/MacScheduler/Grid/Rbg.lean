import MacScheduler.Count
import MacScheduler.Grid.Bits

/-!
# Resource block groups

Downlink bandwidth is handed out in groups of neighbouring resource blocks.
The group size grows with the bandwidth, and the last group of a carrier may
be shorter than the others.  A mask records which groups an allocation holds.
-/

namespace MacScheduler

/-- Resource blocks in a full group of a carrier of `nofPrb` blocks. -/
def rbgSize (nofPrb : Nat) : Nat :=
  if nofPrb ≤ 10 then 1
  else if nofPrb ≤ 26 then 2
  else if nofPrb ≤ 63 then 3
  else 4

/-- Groups that cover a carrier of `nofPrb` blocks. -/
def nofRbgs (nofPrb : Nat) : Nat :=
  (nofPrb + rbgSize nofPrb - 1) / rbgSize nofPrb

theorem rbgSize_pos (nofPrb : Nat) : 0 < rbgSize nofPrb := by
  unfold rbgSize
  split
  · decide
  · split
    · decide
    · split <;> decide

/-- A set of resource block groups of a carrier with `size` groups. -/
structure RbgMask where
  size : Nat
  bits : BitVec 64
deriving DecidableEq

namespace RbgMask

def empty (size : Nat) : RbgMask := ⟨size, 0⟩

instance : Inhabited RbgMask := ⟨empty 0⟩

def test (m : RbgMask) (i : Nat) : Bool :=
  decide (i < m.size) && m.bits.getLsbD i

/-- Adds group `i`; a group beyond the carrier is ignored. -/
def set (m : RbgMask) (i : Nat) : RbgMask :=
  if i < m.size then { m with bits := m.bits ||| Bits.span 64 i 1 } else m

/-- The groups `start` up to `start + len` that the carrier has. -/
def ofRange (size start len : Nat) : RbgMask :=
  (List.range' start (min (wrap (start + len)) size - start)).foldl set (empty size)

/-- The given groups, those beyond the carrier ignored. -/
def ofList (size : Nat) (groups : List Nat) : RbgMask :=
  groups.foldl set (empty size)

def toList (m : RbgMask) : List Nat :=
  (List.range m.size).filter m.test

def count (m : RbgMask) : Nat := Bits.count m.bits

def isEmpty (m : RbgMask) : Bool := m.bits == 0

/-- Whether the mask holds every group of its carrier and nothing else. -/
def isFull (m : RbgMask) : Bool := m.bits == Bits.span 64 0 m.size

def overlaps (m o : RbgMask) : Bool := m.bits &&& o.bits != 0

def union (m o : RbgMask) : RbgMask := { m with bits := m.bits ||| o.bits }

def diff (m o : RbgMask) : RbgMask := { m with bits := m.bits &&& ~~~ o.bits }

/-- The groups of the carrier that the mask leaves free, in ascending order. -/
def free (m : RbgMask) : List Nat :=
  (List.range m.size).filter fun i ↦ !m.test i

/-- The lowest `n` free groups, or all of them when fewer are free. -/
def pickFree (m : RbgMask) (n : Nat) : RbgMask :=
  ofList m.size (m.free.take n)

/-- Resource blocks of group `i` on a carrier of `nofPrb` blocks. -/
def groupPrbs (nofPrb i : Nat) : Nat :=
  min (rbgSize nofPrb) (nofPrb - i * rbgSize nofPrb)

/-- Resource blocks that the mask covers on a carrier of `nofPrb` blocks. -/
def nofPrb (m : RbgMask) (nofPrb : Nat) : Nat :=
  total (m.toList.map (groupPrbs nofPrb))

/-! ## What the operations do to the groups held -/

theorem lt_size_of_test {m : RbgMask} {i : Nat} (h : m.test i = true) : i < m.size := by
  simp only [test, Bool.and_eq_true, decide_eq_true_eq] at h
  exact h.1

theorem test_union (m o : RbgMask) (i : Nat) :
    (m.union o).test i = (m.test i || (decide (i < m.size) && o.bits.getLsbD i)) := by
  change (decide (i < m.size) && (m.bits ||| o.bits).getLsbD i) = _
  rw [BitVec.getLsbD_or, Bool.and_or_distrib_left, test]

@[simp] theorem mem_toList {m : RbgMask} {i : Nat} : i ∈ m.toList ↔ m.test i = true := by
  simp only [toList, List.mem_filter, List.mem_range]
  exact ⟨fun h ↦ h.2, fun h ↦ ⟨lt_size_of_test h, h⟩⟩

@[simp] theorem mem_free {m : RbgMask} {i : Nat} :
    i ∈ m.free ↔ i < m.size ∧ m.test i = false := by
  simp [free]

@[simp] theorem size_set (m : RbgMask) (i : Nat) : (m.set i).size = m.size := by
  unfold set
  split <;> rfl

@[simp] theorem size_foldl_set (groups : List Nat) (m : RbgMask) :
    (groups.foldl set m).size = m.size := by
  induction groups generalizing m with
  | nil => rfl
  | cons i groups ih => simp [ih]

@[simp] theorem size_pickFree (m : RbgMask) (n : Nat) : (m.pickFree n).size = m.size := by
  simp [pickFree, ofList, empty]

end RbgMask

end MacScheduler
