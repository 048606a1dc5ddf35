import Mathlib.Data.Int.ModEq
import MacScheduler.Count
import MacScheduler.Proofs.Clock.Tti

/-!
# Order on the clock

The signed distance is the one number of half a turn either way that leads from one point
to another, and turning the clock changes no distance.  Seen from any origin, the points
less than half a turn ahead are therefore ordered as they are reached, and so is every run
that ends before half a turn is over, also where the clock begins anew.
-/

namespace MacScheduler.Tti

variable {a b t : Tti}

/-- The distance is determined by leading from one point to the other within half a turn. -/
theorem eq_diff_iff {d : Int} :
    d = a.diff b ↔ -5120 ≤ d ∧ d ≤ 5119 ∧ b.index + d ≡ a.index [ZMOD period] := by
  have ha := a.index_lt
  have hlands : b.index + d ≡ a.index [ZMOD period] ↔ ((b.index : Int) + d) % 10240 = a.index := by
    rw [Int.ModEq, show (period : Int) = 10240 from rfl]
    omega
  constructor
  · rintro rfl
    refine ⟨a.diff_lower b, a.diff_upper b, hlands.mpr ?_⟩
    rw [diff]
    omega
  · rintro ⟨hlower, hupper, hland⟩
    have hindex := hlands.mp hland
    rw [diff]
    omega

theorem add_sub_cancel (t : Tti) (n : Nat) : t + n - n = t := by
  apply eq_of_index
  rw [index_sub, index_add]
  have := t.index_lt
  omega

/-- Turning the clock keeps distances. -/
theorem diff_add_both (a b : Tti) (n : Nat) : (a + n).diff (b + n) = a.diff b := by
  unfold diff
  rw [index_add, index_add]
  omega

/-! ## Half a turn ahead of an origin -/

/-- A run is at most as far from its origin as its steps are together. -/
theorem exists_of_mem_scanl {steps : List Nat} {p : Tti}
    (hp : p ∈ steps.scanl (· + ·) t) : ∃ k ≤ total steps, p = t + k := by
  induction steps generalizing t with
  | nil =>
      rw [List.scanl_nil, List.mem_singleton] at hp
      exact ⟨0, Nat.le_refl 0, hp.trans t.add_zero.symm⟩
  | cons d steps ih =>
      rw [List.scanl_cons, List.mem_cons] at hp
      rcases hp with rfl | hp
      · exact ⟨0, Nat.zero_le _, p.add_zero.symm⟩
      · obtain ⟨k, hk, rfl⟩ := ih hp
        exact ⟨d + k, Nat.add_le_add_left hk d, add_add t d k⟩

/-- The points of a run shorter than half a turn come one after the other. -/
theorem pairwise_scanl {steps : List Nat} (hpos : ∀ d ∈ steps, 0 < d)
    (hshort : total steps ≤ 5119) (t : Tti) :
    (steps.scanl (· + ·) t).Pairwise fun p q ↦ q.isAfter p = true := by
  induction steps generalizing t with
  | nil => exact List.pairwise_singleton _ t
  | cons d steps ih =>
      obtain ⟨hd, hrest⟩ := List.forall_mem_cons.mp hpos
      rw [total_cons] at hshort
      rw [List.scanl_cons]
      refine List.pairwise_cons.mpr ⟨fun q hq ↦ ?_, ih hrest (by omega) (t + d)⟩
      obtain ⟨k, hk, rfl⟩ := exists_of_mem_scanl hq
      rw [add_add]
      exact isAfter_add_self (by omega) (by omega)

/-- Distances are unique and kept by turning the clock, an offset is undone by going back as
far, and seen from any origin the points less than half a turn ahead are ordered as their
offsets are.  So the points of a run shorter than half a turn come one after the other, wherever
it begins. -/
theorem ordered_within_half_turn :
    (∀ (a b : Tti) (d : Int),
      d = a.diff b ↔ -5120 ≤ d ∧ d ≤ 5119 ∧ b.index + d ≡ a.index [ZMOD period]) ∧
      (∀ (a : Tti) (n : Nat), a + n - n = a) ∧
      (∀ (a b : Tti) (n : Nat), (a + n).diff (b + n) = a.diff b) ∧
      (∀ (t : Tti) (x y : Nat), x ≤ 5119 → y ≤ 5119 →
        ((t + x).isAfter (t + y) = true ↔ y < x) ∧ ((t + x).isBefore (t + y) = true ↔ x < y)) ∧
      ∀ (t : Tti) (steps : List Nat), (∀ d ∈ steps, 0 < d) → total steps ≤ 5119 →
        (steps.scanl (· + ·) t).Pairwise fun p q ↦ q.isAfter p = true := by
  refine ⟨fun a b d ↦ eq_diff_iff, add_sub_cancel, diff_add_both, fun t x y hx hy ↦ ?_,
    fun t steps hpos hshort ↦ pairwise_scanl hpos hshort t⟩
  rw [isAfter_add_add (by omega) (by omega), isBefore_add_add (by omega) (by omega),
    decide_eq_true_iff, decide_eq_true_iff]
  exact ⟨Iff.rfl, Iff.rfl⟩

/-- Across the turn: the longest distance on either side, and a run over the last point. -/
theorem ordered_across_turn :
    5119 ≤ 5119 ∧ 0 ≤ 5119 ∧ (ofNat 10238 + 5119).index = 5117 ∧
      (ofNat 10238 + 5119).isAfter (ofNat 10238 + 0) = true ∧
      (ofNat 10238 + 5120).isAfter (ofNat 10238 + 0) = false ∧
      (∀ d ∈ [1, 1, 5117], 0 < d) ∧ total [1, 1, 5117] ≤ 5119 ∧
      [1, 1, 5117].scanl (· + ·) (ofNat 10238) =
        [ofNat 10238, ofNat 10239, ofNat 0, ofNat 5117] ∧
      ([1, 1, 5117].scanl (· + ·) (ofNat 10238)).Pairwise fun p q ↦ q.isAfter p = true := by
  obtain ⟨-, -, -, horder, hrun⟩ := ordered_within_half_turn
  have hpos : ∀ d ∈ [1, 1, 5117], 0 < d := by decide
  have hshort : total [1, 1, 5117] ≤ 5119 := by decide
  exact ⟨by decide, by decide, by decide,
    (horder (ofNat 10238) 5119 0 (by decide) (by decide)).1.mpr (by decide), by decide, hpos,
    hshort, by decide, hrun (ofNat 10238) [1, 1, 5117] hpos hshort⟩

end MacScheduler.Tti
