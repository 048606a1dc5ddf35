import Mathlib.Data.List.GetD
import MacScheduler.Proofs.Pucch.Pool

/-!
# Configuration indices

A period has as many configuration indices as it has subframes, counted from a first
one, and no index belongs to two periods.  So an index names its period and its
offset, as long as the offset lies inside the period.
-/

namespace MacScheduler

/-- First configuration index of a period. -/
def PucchKind.indexBase? : PucchKind → Nat → Option Nat
  | .sr, period => if isSrPeriod period then some (period - 5) else none
  | .cqi, period => if isCqiPeriod period then cqiIndexBase? period else none

namespace PucchKind

/-- The periods of a kind. -/
def periods : PucchKind → List Nat
  | .sr => srPeriods
  | .cqi => cqiPeriods

theorem mem_periods {kind : PucchKind} {period base : Nat}
    (h : kind.indexBase? period = some base) : period ∈ kind.periods := by
  cases kind with
  | sr =>
      by_contra hnot
      simp [indexBase?, isSrPeriod, show period ∉ srPeriods from hnot] at h
  | cqi =>
      by_contra hnot
      simp [indexBase?, isCqiPeriod, show period ∉ cqiPeriods from hnot] at h

theorem indexRanges_apart (kind : PucchKind) : ∀ n ∈ kind.periods, ∀ m ∈ kind.periods,
    ∀ a ∈ kind.indexBase? n, ∀ b ∈ kind.indexBase? m, n = m ∨ a + n ≤ b ∨ b + m ≤ a := by
  cases kind <;> decide

/-- No period and no first index is near the greatest count. -/
theorem add_indexBase_le {kind : PucchKind} {period base : Nat}
    (h : kind.indexBase? period = some base) : base + period ≤ maxCount := by
  have hall : ∀ n ∈ kind.periods, ∀ a ∈ kind.indexBase? n, a + n ≤ maxCount := by
    cases kind <;> decide
  exact hall period (mem_periods h) base h

theorem shortest_le {period : Nat} (h : period ∈ periods .sr) : 5 ≤ period := by
  revert period
  decide

end PucchKind

namespace PucchPool

variable {p q : PucchPool} {period offset index : Nat}

theorem configIdx?_eq (p : PucchPool) (period offset : Nat) :
    p.configIdx? period offset =
      (p.kind.indexBase? period).map fun base ↦ wrap (base + offset) := by
  unfold configIdx? PucchKind.indexBase?
  cases p.kind with
  | sr =>
      dsimp only
      split <;> rfl
  | cqi =>
      dsimp only
      split <;> rfl

/-- An index names its period and its offset. -/
theorem configIdx?_inj (hkind : q.kind = p.kind) {n m i j : Nat}
    (hp : p.configIdx? n i = some index) (hq : q.configIdx? m j = some index) (hi : i < n)
    (hj : j < m) : n = m ∧ i = j := by
  rw [configIdx?_eq] at hp hq
  rw [hkind] at hq
  obtain ⟨a, ha, hai⟩ := Option.map_eq_some_iff.mp hp
  obtain ⟨b, hb, hbj⟩ := Option.map_eq_some_iff.mp hq
  have hapart := p.kind.indexRanges_apart n (PucchKind.mem_periods ha) m (PucchKind.mem_periods hb)
    a ha b hb
  have hale := PucchKind.add_indexBase_le ha
  have hble := PucchKind.add_indexBase_le hb
  rw [wrap_of_le (by omega)] at hai hbj
  obtain rfl : n = m := by omega
  obtain rfl := Option.some.inj (ha.symm.trans hb)
  exact ⟨rfl, by omega⟩

/-! ## Resources of a pool -/

/-- The pool with no user on any slot. -/
def vacated (p : PucchPool) : PucchPool :=
  { p with occupancy := List.replicate p.occupancy.length 0 }

theorem vacated_eq {occupancy : List Nat} (h : occupancy.length = p.occupancy.length) :
    ({ p with occupancy } : PucchPool).vacated = p.vacated := by
  rw [vacated, vacated, h]

theorem vacated_release (p : PucchPool) (l : PucchLease) : (p.release l).vacated = p.vacated :=
  vacated_eq (List.length_modify _ _ _)

theorem vacated_lease (p : PucchPool) (period : Nat) :
    (p.lease period).2.vacated = p.vacated := by
  rcases p.lease_cases period with ⟨-, e, heq⟩ | ⟨slot, users, base, -, -, heq⟩
  · rw [heq]
  · rw [heq]
    exact vacated_eq List.length_set

/-- The resource is one that the pool leases for the period. -/
structure Issues (p : PucchPool) (period : Nat) (r : PucchResource) : Prop where
  kind_eq : r.kind = p.kind
  period_eq : r.period = period
  offset_mem : r.offset ∈ p.offsets
  configIdx_eq : p.configIdx? period r.offset = some r.configIdx

theorem Issues.shortest_le {r : PucchResource} (h : p.Issues period r) (hkind : p.kind = .sr) :
    5 ≤ r.period := by
  have hindex := h.configIdx_eq
  rw [configIdx?_eq, hkind, ← h.period_eq, Option.map_eq_some_iff] at hindex
  obtain ⟨base, hbase, -⟩ := hindex
  exact PucchKind.shortest_le (PucchKind.mem_periods hbase)

/-- Every slot has an offset of its own. -/
def Gridded (p : PucchPool) : Prop := p.occupancy.length = p.nofPrb * p.offsets.length

theorem Gridded.offset_mem (h : p.Gridded) {slot : Nat} (hslot : slot < p.occupancy.length) :
    p.offsets.getD (slot % p.offsets.length) 0 ∈ p.offsets := by
  have hpos : 0 < p.offsets.length := by
    by_contra hzero
    rw [h, Nat.eq_zero_of_not_pos hzero, Nat.mul_zero] at hslot
    exact Nat.not_lt_zero _ hslot
  have hlt := Nat.mod_lt slot hpos
  rw [List.getD_eq_getElem _ _ hlt]
  exact List.getElem_mem hlt

theorem Gridded.issues (h : p.Gridded) {l : PucchLease} {p' : PucchPool}
    (hlease : p.lease period = (.ok l, p')) : p.Issues period l.resource := by
  unfold lease at hlease
  cases hbase : p.configIdx? period 0 with
  | none => simp [hbase] at hlease
  | some base =>
      cases hleast : leastLoaded 0 p.occupancy with
      | none => simp [hbase, hleast] at hlease
      | some best =>
          obtain ⟨slot, users⟩ := best
          obtain ⟨⟨i, hi, hget⟩, -⟩ := of_leastLoaded hleast
          simp only [hbase, hleast] at hlease
          split at hlease
          · cases hlease
          · cases hlease
            have hlt : slot < p.occupancy.length := by
              have := (List.getElem?_eq_some_iff.mp hget).1
              omega
            refine ⟨rfl, rfl, h.offset_mem hlt, ?_⟩
            rw [configIdx?_eq] at hbase ⊢
            obtain ⟨a, ha, rfl⟩ := Option.map_eq_some_iff.mp hbase
            rw [ha, Option.map_some, resourceAt, wrap_wrap_add, Nat.add_zero]

end PucchPool

end MacScheduler
