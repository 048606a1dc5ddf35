import Mathlib.Data.List.Rotate
import Mathlib.Data.Nat.ModEq
import MacScheduler.Policy.Basic

/-!
# Turns of the rotation

The rotation begins with the candidate that the point of the clock selects among the
candidates in ascending order.  As many successive points as there are candidates select
each of them once, as long as the clock does not turn between them.  Where it turns, it
goes on with the lowest candidate, which is the next one only when the number of
candidates divides the period.
-/

namespace MacScheduler

/-! ## Successive numbers modulo the candidates -/

theorem existsUnique_add_mod {n s : Nat} (a : Nat) (hs : s < n) :
    ∃! k, k < n ∧ (a + k) % n = s := by
  have hpos : 0 < n := Nat.zero_lt_of_lt hs
  have hsum : a + (s + (n - a % n)) = s + n + n * (a / n) := by
    have hdiv := Nat.div_add_mod a n
    have hlt := Nat.mod_lt a hpos
    omega
  have hmod : (a + (s + (n - a % n)) % n) % n = s := by
    rw [Nat.add_mod_mod, hsum, Nat.add_mul_mod_self_left, Nat.add_mod_right, Nat.mod_eq_of_lt hs]
  refine ⟨(s + (n - a % n)) % n, ⟨Nat.mod_lt _ hpos, hmod⟩, fun k hk ↦ ?_⟩
  have hcancel := Nat.ModEq.add_left_cancel' a (hk.2.trans hmod.symm)
  exact hcancel.eq_of_lt_of_lt hk.1 (Nat.mod_lt _ hpos)

/-- A window over the turn of a clock meets some remainder twice, unless the period is a
multiple of the window. -/
theorem exists_same_remainder {period a n : Nat} (ha : a < period) (hturn : period < a + n)
    (hndvd : ¬n ∣ period) :
    ∃ k < n, ∃ l < n, k ≠ l ∧ (a + k) % period % n = (a + l) % period % n := by
  have hrest : period % n ≠ 0 := fun h ↦ hndvd (Nat.dvd_of_mod_eq_zero h)
  have hlt : period % n < n := Nat.mod_lt _ (by omega)
  have hle : period % n ≤ period := Nat.mod_le _ _
  obtain ⟨q, hq⟩ : n ∣ period - period % n := Nat.dvd_sub_mod period
  by_cases hshort : period % n ≤ period - a
  · -- the last multiple of `n` before the turn and the turn itself
    refine ⟨period - a - period % n, by omega, period - a, by omega, by omega, ?_⟩
    have hfirst : a + (period - a - period % n) = n * q := by omega
    have hsecond : a + (period - a) = period := by omega
    have hsmall : n * q < period := by omega
    rw [hfirst, hsecond, Nat.mod_self, Nat.zero_mod, Nat.mod_eq_of_lt hsmall, Nat.mul_mod_right]
  · -- the beginning of the window and the same remainder after the turn
    refine ⟨0, by omega, period % n, hlt, hrest.symm, ?_⟩
    have hfirst : a + 0 = n * q + (a + period % n - period) := by omega
    have hsecond : a + period % n = a + period % n - period + period := by omega
    have hsmall : a + period % n - period < period := by omega
    rw [Nat.mod_eq_of_lt (show a + 0 < period from ha), hfirst, Nat.mul_add_mod]
    rw [hsecond, Nat.add_mod_right, Nat.mod_eq_of_lt hsmall]
    congr 1
    omega

theorem existsUnique_remainder_iff {period a n : Nat} (ha : a < period) :
    (∀ s < n, ∃! k, k < n ∧ (a + k) % period % n = s) ↔ a + n ≤ period ∨ n ∣ period := by
  constructor
  · intro h
    by_contra hnot
    rw [not_or, Nat.not_le] at hnot
    obtain ⟨k, hk, l, hl, hne, hsame⟩ := exists_same_remainder ha hnot.1 hnot.2
    have hs : (a + l) % period % n < n := Nat.mod_lt _ (Nat.zero_lt_of_lt hl)
    exact hne ((h _ hs).unique ⟨hk, hsame⟩ ⟨hl, rfl⟩)
  · intro h s hs
    have hplain : ∀ k, k < n ∧ (a + k) % period % n = s ↔ k < n ∧ (a + k) % n = s := by
      intro k
      refine and_congr_right fun hk ↦ ?_
      rcases h with hle | hdvd
      · rw [Nat.mod_eq_of_lt (show a + k < period by omega)]
      · rw [Nat.mod_mod_of_dvd _ hdvd]
    exact (existsUnique_congr hplain).mpr (existsUnique_add_mod a hs)

theorem rotateLeft_eq_rotate {α : Type} (l : List α) (n : Nat) : l.rotateLeft n = l.rotate n := by
  unfold List.rotateLeft
  dsimp only
  split
  · rename_i hlen
    match l, hlen with
    | [], _ => rfl
    | [x], _ => exact (List.rotate_singleton x n).symm
  · exact List.rotate_eq_drop_append_take_mod.symm

namespace Policy

/-! ## Ascending candidates -/

def byTerminal (cs : List Candidate) : List Candidate :=
  cs.mergeSort fun a b ↦ decide (a.rnti.val ≤ b.rnti.val)

variable {cs : List Candidate} {carrier : Nat} {dir : Direction}

theorem byTerminal_perm (cs : List Candidate) : (byTerminal cs).Perm cs := List.mergeSort_perm _ _

@[simp] theorem length_byTerminal (cs : List Candidate) : (byTerminal cs).length = cs.length :=
  (byTerminal_perm cs).length_eq

theorem pairwise_byTerminal (hdistinct : (cs.map (·.rnti)).Nodup) :
    (byTerminal cs).Pairwise fun a b ↦ a.rnti.val < b.rnti.val := by
  have hle : (byTerminal cs).Pairwise fun a b ↦ decide (a.rnti.val ≤ b.rnti.val) = true := by
    refine List.pairwise_mergeSort (fun a b c hab hbc ↦ ?_) (fun a b ↦ ?_) cs
    · simp only [decide_eq_true_eq] at *
      exact hab.trans hbc
    · simpa using Nat.le_total a.rnti.val b.rnti.val
  have hne : (byTerminal cs).Pairwise fun a b ↦ a.rnti ≠ b.rnti :=
    List.pairwise_map.mp (((byTerminal_perm cs).map _).nodup_iff.mpr hdistinct)
  refine (hle.and hne).imp fun ⟨hab, hne⟩ ↦ ?_
  refine Nat.lt_of_le_of_ne (of_decide_eq_true hab) fun heq ↦ hne ?_
  exact congrArg Rnti.mk heq

theorem prioritize_roundRobin (now : Tti) (cs : List Candidate) :
    roundRobin.prioritize now carrier dir cs =
      (byTerminal cs).rotate (now.index % cs.length) :=
  rotateLeft_eq_rotate _ _

/-- A policy only changes the order of the candidates. -/
theorem prioritize_perm (p : Policy) (now : Tti) (carrier : Nat) (dir : Direction)
    (cs : List Candidate) : (p.prioritize now carrier dir cs).Perm cs := by
  cases p with
  | roundRobin =>
      rw [prioritize_roundRobin]
      exact (List.rotate_perm _ _).trans (byTerminal_perm cs)
  | proportionalFair weight averages => exact List.mergeSort_perm _ _

/-- The rotation begins with the candidate that the clock selects. -/
theorem head?_prioritize (hpos : 0 < cs.length) (now : Tti) :
    (roundRobin.prioritize now carrier dir cs).head? =
      (byTerminal cs)[now.index % cs.length]? := by
  rw [prioritize_roundRobin, List.head?_rotate]
  rw [length_byTerminal]
  exact Nat.mod_lt _ hpos

/-! ## Windows of the clock -/

/-- Over as many points from `t` on as there are candidates, each is first exactly once. -/
def FirstOnce (p : Policy) (t : Tti) (carrier : Nat) (dir : Direction) (cs : List Candidate) :
    Prop :=
  ∀ c ∈ cs, ∃! k, k < cs.length ∧ (p.prioritize (t + k) carrier dir cs).head? = some c

theorem firstOnce_roundRobin_iff (hdistinct : (cs.map (·.rnti)).Nodup) {t : Tti} :
    roundRobin.FirstOnce t carrier dir cs ↔
      t.index + cs.length ≤ Tti.period ∨ cs.length ∣ Tti.period := by
  have hnodup : (byTerminal cs).Nodup :=
    (byTerminal_perm cs).nodup_iff.mpr (List.Nodup.of_map _ hdistinct)
  have hfirst (s : Nat) (hs : s < (byTerminal cs).length) (k : Nat) :
      (k < cs.length ∧ (roundRobin.prioritize (t + k) carrier dir cs).head? =
        some (byTerminal cs)[s]) ↔
      k < cs.length ∧ (t.index + k) % Tti.period % cs.length = s := by
    refine and_congr_right fun hk ↦ ?_
    have hpos : 0 < cs.length := Nat.zero_lt_of_lt hk
    have hlt : (t + k).index % cs.length < (byTerminal cs).length := by
      rw [length_byTerminal]
      exact Nat.mod_lt _ hpos
    rw [head?_prioritize hpos, List.getElem?_eq_getElem hlt, Option.some_inj,
      hnodup.getElem_inj_iff, Tti.index_add]
    rfl
  have hstarts : roundRobin.FirstOnce t carrier dir cs ↔
      ∀ s < cs.length, ∃! k, k < cs.length ∧ (t.index + k) % Tti.period % cs.length = s := by
    constructor
    · intro h s hs
      rw [← length_byTerminal cs] at hs
      exact (existsUnique_congr (hfirst s hs)).mp
        (h _ ((byTerminal_perm cs).mem_iff.mp (List.getElem_mem hs)))
    · intro h c hc
      obtain ⟨s, hs, rfl⟩ := List.mem_iff_getElem.mp ((byTerminal_perm cs).mem_iff.mpr hc)
      exact (existsUnique_congr (hfirst s hs)).mpr (h s (length_byTerminal cs ▸ hs))
  exact hstarts.trans (existsUnique_remainder_iff t.index_lt)

/-- The rotation orders candidates as a rotation of their ascending list, and every one of them
comes first once in as many points of the clock, exactly when the clock does not turn before
the last of these points or its period is a multiple of their number. -/
theorem rotation_fair_iff (hdistinct : (cs.map (·.rnti)).Nodup) (carrier : Nat)
    (dir : Direction) (t : Tti) :
    (∃ sorted : List Candidate, sorted.Perm cs ∧
      (sorted.Pairwise fun a b ↦ a.rnti.val < b.rnti.val) ∧
        ∀ now, sorted.IsRotated (roundRobin.prioritize now carrier dir cs)) ∧
      (roundRobin.FirstOnce t carrier dir cs ↔
        t.index + cs.length ≤ Tti.period ∨ cs.length ∣ Tti.period) := by
  refine ⟨⟨byTerminal cs, byTerminal_perm cs, pairwise_byTerminal hdistinct, fun now ↦ ?_⟩,
    firstOnce_roundRobin_iff hdistinct⟩
  exact ⟨_, (prioritize_roundRobin now cs).symm⟩

/-- Terminals with identifiers `rntis` and the same demand. -/
def alike (rntis : List Nat) : List Candidate := rntis.map fun n ↦ ⟨⟨n⟩, 1000, 4, 50⟩

/-- Four terminals divide the period, so each is first once while the clock turns. -/
theorem rotation_fair_across_turn :
    ((alike [73, 70, 72, 71]).map (·.rnti)).Nodup ∧
      roundRobin.FirstOnce (Tti.ofNat 10238) 0 .downlink (alike [73, 70, 72, 71]) := by
  have hdistinct : ((alike [73, 70, 72, 71]).map (·.rnti)).Nodup := by decide
  exact ⟨hdistinct,
    (rotation_fair_iff hdistinct 0 .downlink (Tti.ofNat 10238)).2.mpr (.inr (by decide))⟩

/-- Three do not, and the lowest of them is first on both sides of the turn. -/
theorem first_twice_across_turn :
    ((alike [1, 2, 3]).map (·.rnti)).Nodup ∧
      (roundRobin.prioritize (Tti.ofNat 10239) 0 .downlink (alike [1, 2, 3])).head? =
        (roundRobin.prioritize (Tti.ofNat 10239 + 1) 0 .downlink (alike [1, 2, 3])).head? ∧
      ¬roundRobin.FirstOnce (Tti.ofNat 10239) 0 .downlink (alike [1, 2, 3]) := by
  have hdistinct : ((alike [1, 2, 3]).map (·.rnti)).Nodup := by decide
  have hpos : 0 < (alike [1, 2, 3]).length := by decide
  refine ⟨hdistinct, ?_, fun h ↦ absurd ((firstOnce_roundRobin_iff hdistinct).mp h) (by decide)⟩
  rw [head?_prioritize hpos, head?_prioritize hpos]
  rfl

end Policy

end MacScheduler
