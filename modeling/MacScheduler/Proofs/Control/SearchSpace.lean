import MacScheduler.Control.SearchSpace
import MacScheduler.Proofs.Config.Check

/-!
# Candidates lie inside the region

The candidates of a terminal are aligned positions of the control region, and the
region of an accepted cell is never larger than the largest one supported.
-/

namespace MacScheduler

namespace SearchSpace

theorem mem_insertAscending {x y : Nat} {l : List Nat} :
    y ∈ insertAscending x l ↔ y = x ∨ y ∈ l := by
  induction l with
  | nil => simp [insertAscending]
  | cons z l ih =>
      rw [insertAscending]
      by_cases hlt : x < z
      · simp [hlt]
      · by_cases heq : x = z
        · simp [heq]
        · simp only [if_neg hlt, if_neg heq, List.mem_cons, ih]
          exact or_left_comm

@[simp] theorem mem_ascending {y : Nat} {l : List Nat} : y ∈ ascending l ↔ y ∈ l := by
  induction l with
  | nil => simp [ascending]
  | cons x l ih => rw [ascending, mem_insertAscending, ih, List.mem_cons]

theorem stop_le_of_mem_starts {hash positions level first : Nat} (hpos : positions ≠ 0)
    (h : first ∈ starts hash positions level) :
    first + levelSize level ≤ levelSize level * positions := by
  obtain ⟨m, -, rfl⟩ := List.mem_map.mp h
  have hlt : (hash + m) % positions < positions := Nat.mod_lt _ (Nat.pos_of_ne_zero hpos)
  rw [← Nat.mul_succ]
  exact Nat.mul_le_mul_left _ hlt

theorem stop_le_of_mem_candidates {rnti : Rnti} {nofCce subframe level first : Nat}
    (h : first ∈ candidates rnti nofCce subframe level) :
    first + levelSize level ≤ nofCce := by
  have hdiv := Nat.mul_div_le nofCce (levelSize level)
  unfold candidates at h
  dsimp only at h
  split at h
  · cases h
  · rename_i hpos
    exact Nat.le_trans (stop_le_of_mem_starts hpos (mem_ascending.mp h)) hdiv

end SearchSpace

namespace CellConfig

variable {c : CellConfig}

theorem nofCce_le (h : c.violations = []) {n : Nat} (hn : c.nofCce = some n) : n ≤ 88 := by
  simp only [violations, Violation.orSection_eq_nil_iff, List.append_eq_nil_iff,
    Violation.require_eq_nil_iff] at h
  have hall := h.1.1.1.1.2
  rw [hn, Option.all_some] at hall
  exact (inRange_iff.mp hall).2

end CellConfig

theorem regionSize_le {nofPrb cfi : Nat} (hprb : nofPrb ≤ 100) (hcfi : cfi ≤ 3) :
    regionSize nofPrb cfi ≤ 88 := by
  have hmul : nofPrb * (2 + 3 * (cfi - 1)) ≤ nofPrb * 8 := Nat.mul_le_mul_left _ (by omega)
  unfold regionSize
  omega

theorem CellParams.nofCce_le {p : CellParams} (h : p.cell.violations = []) : p.nofCce ≤ 88 := by
  unfold nofCce nofCceAt
  cases hn : p.cell.nofCce with
  | some n => exact CellConfig.nofCce_le h hn
  | none => exact regionSize_le (CellConfig.nofPrb_le h) (by omega)

end MacScheduler
