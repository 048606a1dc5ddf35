import MacScheduler.Clock.Tti

/-!
# Arithmetic of the clock

Points reached from one origin by different numbers of subframes are compared
through those numbers: within half a turn the signed distance is the
difference of the two.  Every timing argument about blocks in flight fixes the
point of a transmission and counts from there.
-/

namespace MacScheduler.Tti

theorem eq_of_index {a b : Tti} (h : a.index = b.index) : a = b := by
  cases a
  cases b
  simpa using h

@[simp] theorem add_zero (t : Tti) : t + 0 = t := by
  apply eq_of_index
  rw [index_add]
  have := t.index_lt
  omega

theorem add_add (t : Tti) (m n : Nat) : t + m + n = t + (m + n) := by
  apply eq_of_index
  rw [index_add, index_add, index_add]
  omega

theorem add_eq_add_iff {t : Tti} {m n : Nat} : t + m = t + n ↔ m % 10240 = n % 10240 := by
  constructor
  · intro h
    have hi : (t + m).index = (t + n).index := by rw [h]
    rw [index_add, index_add] at hi
    omega
  · intro h
    apply eq_of_index
    rw [index_add, index_add]
    omega

theorem add_ne_self (t : Tti) {d : Nat} (hpos : 1 ≤ d) (hlt : d < 10240) : t + d ≠ t := by
  intro h
  have hmod := add_eq_add_iff.mp (h.trans t.add_zero.symm)
  omega

theorem add_right_cancel {a b : Tti} {n : Nat} (h : a + n = b + n) : a = b := by
  apply eq_of_index
  have hi : (a + n).index = (b + n).index := by rw [h]
  rw [index_add, index_add] at hi
  have ha := a.index_lt
  have hb := b.index_lt
  omega

theorem diff_add_add (t : Tti) (m n : Nat) :
    (t + m).diff (t + n) = ((m : Int) - n + 5120) % 10240 - 5120 := by
  unfold diff
  rw [index_add, index_add]
  omega

/-- Within half a turn the distance is the difference of the counts. -/
theorem diff_of_lt {t : Tti} {m n : Nat} (hm : m ≤ n + 5119) (hn : n ≤ m + 5120) :
    (t + m).diff (t + n) = (m : Int) - n := by
  rw [diff_add_add]
  omega

theorem diff_add_self {t : Tti} {n : Nat} (hn : n ≤ 5119) : (t + n).diff t = n := by
  have h := diff_of_lt (t := t) (m := n) (n := 0) (by omega) (by omega)
  rw [add_zero] at h
  omega

theorem isAfter_add_self {t : Tti} {n : Nat} (hpos : 1 ≤ n) (hn : n ≤ 5119) :
    (t + n).isAfter t = true := by
  rw [isAfter, diff_add_self hn]
  exact decide_eq_true (Int.ofNat_lt.mpr hpos)

theorem isAfter_add_add {t : Tti} {m n : Nat} (hm : m ≤ n + 5119) (hn : n ≤ m + 5120) :
    (t + m).isAfter (t + n) = decide (n < m) := by
  rw [isAfter, diff_of_lt hm hn]
  exact decide_eq_decide.mpr (by omega)

theorem isBefore_add_add {t : Tti} {m n : Nat} (hm : m ≤ n + 5119) (hn : n ≤ m + 5120) :
    (t + m).isBefore (t + n) = decide (m < n) := by
  rw [isBefore, diff_of_lt hm hn]
  exact decide_eq_decide.mpr (by omega)

end MacScheduler.Tti
