import MacScheduler.Cell.Params
import MacScheduler.Config.Check

/-!
# What an accepted configuration promises

A configuration is accepted when no section breaks a rule.  The promises that
other parts rely on are bounds of single fields and the one relation between the
bandwidth and its control edges.
-/

namespace MacScheduler

namespace Violation

@[simp] theorem require_eq_nil_iff {ok : Bool} {field : String} {rule : ConfigRule} :
    require ok field rule = [] ↔ ok = true := by
  cases ok <;> simp [require]

@[simp] theorem within_eq_nil_iff {owner : String} {vs : List Violation} :
    within owner vs = [] ↔ vs = [] := by
  simp [within]

@[simp] theorem orSection_eq_nil_iff {fields : List Violation} {rule : Option ConfigRule} :
    orSection fields rule = [] ↔ fields = [] ∧ rule = none := by
  cases fields with
  | nil => cases rule <;> simp [orSection]
  | cons v vs => simp [orSection]

end Violation

@[simp] theorem inRange_iff {lo hi n : Nat} : inRange lo hi n = true ↔ lo ≤ n ∧ n ≤ hi := by
  simp [inRange]

namespace CellConfig

variable {c : CellConfig}

theorem nofPrb_mem_bandwidths (h : c.violations = []) : c.nofPrb ∈ bandwidths := by
  simp only [violations, Violation.orSection_eq_nil_iff, List.append_eq_nil_iff,
    Violation.require_eq_nil_iff] at h
  exact List.contains_iff_mem.mp h.1.1.1.1.1.1

theorem nofPrb_le (h : c.violations = []) : c.nofPrb ≤ 100 := by
  have hmem := nofPrb_mem_bandwidths h
  simp only [bandwidths, List.mem_cons, List.not_mem_nil, or_false] at hmem
  omega

end CellConfig

namespace HarqConfig

variable {h : HarqConfig}

theorem roundTrip_bounds (hv : h.violations = []) : 8 ≤ h.roundTrip ∧ h.roundTrip ≤ 16 := by
  simp only [violations, List.append_eq_nil_iff, Violation.require_eq_nil_iff, inRange_iff] at hv
  exact hv.1

end HarqConfig

theorem forall_of_mapIdx_flatten_eq_nil {cells : List CellConfig} {name : Nat → String}
    (h : (cells.mapIdx fun i c ↦ Violation.within (name i) c.violations).flatten = []) :
    ∀ c ∈ cells, c.violations = [] := by
  intro c hc
  obtain ⟨i, hi, rfl⟩ := List.mem_iff_getElem.mp hc
  have hin := List.flatten_eq_nil_iff.mp h (Violation.within (name i) cells[i].violations)
    (List.mem_mapIdx.mpr ⟨i, hi, rfl⟩)
  exact Violation.within_eq_nil_iff.mp hin

theorem of_cellViolations_eq_nil {cells : List CellConfig} (h : cellViolations cells = []) :
    (1 ≤ cells.length ∧ cells.length ≤ 8) ∧ ∀ c ∈ cells, c.violations = [] := by
  unfold cellViolations at h
  split at h
  · rename_i hlen
    exact ⟨inRange_iff.mp hlen, forall_of_mapIdx_flatten_eq_nil h⟩
  · cases h

namespace Config

variable {c : Config}

theorem check_eq_ok_iff : c.check = .ok () ↔ c.violations = [] := by
  unfold check
  cases c.violations <;> simp

theorem of_check (h : c.check = .ok ()) :
    cellViolations c.cells = [] ∧ c.harq.violations = [] ∧ c.pucch.violations = [] ∧
      c.policy.violations = [] ∧ c.timing.violations = [] := by
  have hv := check_eq_ok_iff.mp h
  simpa [violations, and_assoc] using hv

end Config

namespace CellParams

theorem mem_all {c : Config} {p : CellParams} (h : p ∈ all c) :
    p.cell ∈ c.cells ∧ p.harq = c.harq := by
  obtain ⟨i, -, hi⟩ := List.mem_filterMap.mp h
  obtain ⟨cell, hcell, rfl⟩ := Option.map_eq_some_iff.mp hi
  exact ⟨List.mem_of_getElem? hcell, rfl⟩

theorem map_some_filterMap {β γ : Type} {f : β → Option γ} {l : List β}
    (h : ∀ x ∈ l, (f x).isSome) : (l.filterMap f).map some = l.map f := by
  induction l with
  | nil => rfl
  | cons x l ih =>
      obtain ⟨y, hy⟩ := Option.isSome_iff_exists.mp (h x List.mem_cons_self)
      rw [List.filterMap_cons_some hy, List.map_cons, List.map_cons, hy,
        ih fun z hz ↦ h z (List.mem_cons_of_mem x hz)]

theorem getElem?_all (c : Config) (i : Nat) : (all c)[i]? = ofConfig? c i := by
  have hsome : ∀ j ∈ List.range c.cells.length, (ofConfig? c j).isSome := by
    intro j hj
    simp [ofConfig?, List.getElem?_eq_getElem (List.mem_range.mp hj)]
  have hmap := congrArg (·[i]?) (map_some_filterMap hsome)
  simp only [List.getElem?_map] at hmap
  change Option.map some (all c)[i]? = _ at hmap
  by_cases hi : i < c.cells.length
  · rw [List.getElem?_range hi] at hmap
    cases hall : (all c)[i]? with
    | none => simp [hall] at hmap
    | some p => simpa [hall] using hmap
  · have hrange : (List.range c.cells.length)[i]? = none :=
      List.getElem?_eq_none (by simpa using hi)
    have hcell : c.cells[i]? = none := List.getElem?_eq_none (Nat.le_of_not_lt hi)
    rw [hrange, Option.map_none, Option.map_eq_none_iff] at hmap
    rw [hmap, ofConfig?, hcell, Option.map_none]

theorem index_of_getElem?_all {c : Config} {i : Nat} {p : CellParams} (h : (all c)[i]? = some p) :
    p.index = i := by
  rw [getElem?_all] at h
  obtain ⟨cell, -, rfl⟩ := Option.map_eq_some_iff.mp h
  rfl

end CellParams

end MacScheduler
