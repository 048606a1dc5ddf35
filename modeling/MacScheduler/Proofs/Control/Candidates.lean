import Mathlib.Data.List.Nodup
import Mathlib.Data.Nat.ModEq
import MacScheduler.Proofs.Control.SearchSpace

/-!
# How many places a terminal tries

Successive candidates are successive positions of the region, taken round it.  They
differ until every position was taken once, and then they begin again.  So a terminal
tries as many places as its level has candidates, or all places of the region.
-/

namespace MacScheduler

theorem levelSize_eq (level : Nat) : levelSize level = 2 ^ level := Nat.one_shiftLeft level

namespace SearchSpace

/-! ## Ascending lists -/

theorem pairwise_insertAscending {x : Nat} {l : List Nat} (h : l.Pairwise (· < ·)) :
    (insertAscending x l).Pairwise (· < ·) := by
  induction l with
  | nil => exact List.pairwise_singleton _ x
  | cons y l ih =>
      obtain ⟨hy, hl⟩ := List.pairwise_cons.mp h
      rw [insertAscending]
      by_cases hlt : x < y
      · rw [if_pos hlt]
        refine List.pairwise_cons.mpr ⟨fun z hz ↦ ?_, h⟩
        rcases List.mem_cons.mp hz with rfl | hz
        · exact hlt
        · exact hlt.trans (hy z hz)
      · by_cases heq : x = y
        · rw [if_neg hlt, if_pos heq]
          exact h
        · rw [if_neg hlt, if_neg heq]
          refine List.pairwise_cons.mpr ⟨fun z hz ↦ ?_, ih hl⟩
          rcases mem_insertAscending.mp hz with rfl | hz
          · omega
          · exact hy z hz

theorem pairwise_ascending (l : List Nat) : (ascending l).Pairwise (· < ·) := by
  induction l with
  | nil => exact List.Pairwise.nil
  | cons x l ih => exact pairwise_insertAscending ih

/-- Each value is kept once, so the length is that of any other list of the same values
without repetition. -/
theorem length_ascending {l l' : List Nat} (hnodup : l'.Nodup) (hmem : ∀ x, x ∈ l' ↔ x ∈ l) :
    (ascending l).length = l'.length := by
  have hasc : (ascending l).Nodup := (pairwise_ascending l).imp Nat.ne_of_lt
  have hperm : (ascending l).Perm l' :=
    (List.perm_ext_iff_of_nodup hasc hnodup).mpr fun x ↦ mem_ascending.trans (hmem x).symm
  exact hperm.length_eq

/-! ## Successive positions -/

/-- The hash after some steps, without the steps between. -/
theorem hash_succ_eq (rnti : Rnti) (n : Nat) :
    hash rnti (n + 1) = 39827 ^ (n + 1) * rnti.val % 65537 := by
  induction n with
  | zero => rw [hash, hash, pow_one]
  | succ n ih => rw [hash, ih, Nat.mul_mod_mod, pow_succ' 39827 (n + 1), Nat.mul_assoc]

section Turn

variable {hash positions level first : Nat}

theorem mem_starts_iff :
    first ∈ starts hash positions level ↔
      ∃ m < nofCandidates level, first = levelSize level * ((hash + m) % positions) := by
  simp only [starts, List.mem_map, List.mem_range, eq_comm]

/-- One turn round the region comes to no position twice. -/
theorem nodup_take_starts (hash positions level : Nat) :
    ((starts hash positions level).take positions).Nodup := by
  rw [starts, ← List.map_take, List.take_range]
  refine List.Nodup.map_on (fun m hm n hn heq ↦ ?_) List.nodup_range
  have hmod : (hash + m) % positions = (hash + n) % positions :=
    Nat.eq_of_mul_eq_mul_left (levelSize_pos level) heq
  have hlt : ∀ k ∈ List.range (min positions (nofCandidates level)), k < positions :=
    fun k hk ↦ (List.mem_range.mp hk).trans_le (Nat.min_le_left _ _)
  exact (Nat.ModEq.add_left_cancel' hash hmod).eq_of_lt_of_lt (hlt m hm) (hlt n hn)

/-- Whatever is selected is selected in the first turn. -/
theorem mem_take_starts (hpos : 0 < positions) :
    first ∈ (starts hash positions level).take positions ↔
      first ∈ starts hash positions level := by
  refine ⟨List.mem_of_mem_take, fun h ↦ ?_⟩
  obtain ⟨m, hm, rfl⟩ := mem_starts_iff.mp h
  rw [starts, ← List.map_take, List.take_range]
  have hturn : m % positions < min positions (nofCandidates level) :=
    Nat.lt_min.mpr ⟨Nat.mod_lt m hpos, (Nat.mod_le m positions).trans_lt hm⟩
  refine List.mem_map.mpr ⟨m % positions, List.mem_range.mpr hturn, ?_⟩
  rw [Nat.add_mod_mod]

theorem length_ascending_starts (hpos : 0 < positions) :
    (ascending (starts hash positions level)).length = min (nofCandidates level) positions := by
  rw [length_ascending (nodup_take_starts hash positions level) fun x ↦ mem_take_starts hpos,
    List.length_take, starts, List.length_map, List.length_range, Nat.min_comm]

end Turn

/-! ## Candidates -/

variable {rnti : Rnti} {nofCce subframe level first : Nat}

theorem candidates_of_lt (h : nofCce < 2 ^ level) :
    candidates rnti nofCce subframe level = [] := by
  rw [← levelSize_eq] at h
  exact if_pos (Nat.div_eq_of_lt h)

theorem candidates_of_le (h : 2 ^ level ≤ nofCce) :
    candidates rnti nofCce subframe level =
      ascending (starts (hash rnti (subframe + 1)) (nofCce / 2 ^ level) level) := by
  rw [← levelSize_eq] at h ⊢
  exact if_neg (Nat.div_pos h (levelSize_pos level)).ne'

theorem pairwise_candidates (rnti : Rnti) (nofCce subframe level : Nat) :
    (candidates rnti nofCce subframe level).Pairwise (· < ·) := by
  by_cases h : nofCce < 2 ^ level
  · rw [candidates_of_lt h]
    exact List.Pairwise.nil
  · rw [candidates_of_le (Nat.le_of_not_lt h)]
    exact pairwise_ascending _

theorem mem_candidates_iff :
    first ∈ candidates rnti nofCce subframe level ↔
      2 ^ level ≤ nofCce ∧ ∃ m < nofCandidates level,
        first = 2 ^ level *
          ((39827 ^ (subframe + 1) * rnti.val % 65537 + m) % (nofCce / 2 ^ level)) := by
  by_cases h : nofCce < 2 ^ level
  · rw [candidates_of_lt h]
    exact iff_of_false List.not_mem_nil fun hle ↦ Nat.not_lt_of_le hle.1 h
  · have hle := Nat.le_of_not_lt h
    rw [candidates_of_le hle, mem_ascending, mem_starts_iff, hash_succ_eq, levelSize_eq]
    exact (and_iff_right hle).symm

theorem length_candidates (rnti : Rnti) (nofCce subframe level : Nat) :
    (candidates rnti nofCce subframe level).length =
      min (nofCandidates level) (nofCce / 2 ^ level) := by
  by_cases h : nofCce < 2 ^ level
  · rw [candidates_of_lt h, Nat.div_eq_of_lt h, Nat.min_zero, List.length_nil]
  · have hle := Nat.le_of_not_lt h
    rw [candidates_of_le hle, length_ascending_starts (Nat.div_pos hle (Nat.two_pow_pos level))]

/-- A level has candidates unless no message of its size fits into the region. -/
theorem candidates_eq_nil_iff (hlevel : level ≤ maxAggrLevel) :
    candidates rnti nofCce subframe level = [] ↔
      ∀ first, nofCce < first + levelSize level := by
  have hsome : ∀ l ≤ maxAggrLevel, nofCandidates l ≠ 0 := by decide
  have hstop (first : Nat) : first + levelSize level = first + 2 ^ level :=
    congrArg (first + ·) (levelSize_eq level)
  rw [← List.length_eq_zero_iff, length_candidates, Nat.min_eq_zero_iff,
    or_iff_right (hsome level hlevel), Nat.div_eq_zero_iff_lt (Nat.two_pow_pos level)]
  refine ⟨fun h first ↦ ?_, fun h ↦ ?_⟩
  · rw [hstop]
    omega
  · have hzero := h 0
    rwa [hstop, Nat.zero_add] at hzero

/-- At every level a terminal tries, in ascending order, the aligned places that its hash and
the numbers after it select round the region: as many as the level has candidates, or all that
fit. -/
theorem candidates_exact (rnti : Rnti) (nofCce subframe : Nat) {level : Nat}
    (hlevel : level ≤ maxAggrLevel) :
    (candidates rnti nofCce subframe level).Pairwise (· < ·) ∧
      (∀ first, first ∈ candidates rnti nofCce subframe level ↔
        2 ^ level ≤ nofCce ∧ ∃ m < nofCandidates level,
          first = 2 ^ level *
            ((39827 ^ (subframe + 1) * rnti.val % 65537 + m) % (nofCce / 2 ^ level))) ∧
      (∀ first ∈ candidates rnti nofCce subframe level,
        2 ^ level ∣ first ∧ first + 2 ^ level ≤ nofCce) ∧
      (candidates rnti nofCce subframe level).length =
        min (nofCandidates level) (nofCce / 2 ^ level) ∧
      (candidates rnti nofCce subframe level = [] ↔
        ∀ first, nofCce < first + levelSize level) := by
  refine ⟨pairwise_candidates _ _ _ _, fun first ↦ mem_candidates_iff, fun first hfirst ↦ ?_,
    length_candidates _ _ _ _, candidates_eq_nil_iff hlevel⟩
  obtain ⟨-, m, -, heq⟩ := mem_candidates_iff.mp hfirst
  have hstop := stop_le_of_mem_candidates hfirst
  rw [levelSize_eq] at hstop
  exact ⟨Dvd.intro _ heq.symm, hstop⟩

/-- A region of five places at the level, fewer than the level has candidates. -/
theorem candidates_exact_crowded :
    1 ≤ maxAggrLevel ∧ candidates ⟨0x46⟩ 11 9 1 = [0, 2, 4, 6, 8] ∧
      39827 ^ 10 * 0x46 % 65537 = 49551 ∧
      (∀ first, first ∈ candidates ⟨0x46⟩ 11 9 1 ↔ 2 ^ 1 ≤ 11 ∧ ∃ m < nofCandidates 1,
        first = 2 ^ 1 * ((39827 ^ 10 * 0x46 % 65537 + m) % (11 / 2 ^ 1))) ∧
      (candidates ⟨0x46⟩ 11 9 1).length = min (nofCandidates 1) (11 / 2 ^ 1) ∧
      (candidates ⟨0x46⟩ 11 9 1 = [] ↔ ∀ first, 11 < first + levelSize 1) := by
  have hlevel : 1 ≤ maxAggrLevel := by decide
  obtain ⟨-, hmem, -, hlength, hnil⟩ := candidates_exact ⟨0x46⟩ 11 9 hlevel
  exact ⟨hlevel, by decide, by decide, hmem, hlength, hnil⟩

end SearchSpace

end MacScheduler
