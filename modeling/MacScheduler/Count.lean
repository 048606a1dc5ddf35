/-!
# Counts

Bytes, resources and identifiers are counts of 32 bits wherever they are
written down.  The greatest count stands for something that has no number, a
sum or product beyond it wraps around, and a list of counts has a total.
-/

namespace MacScheduler

/-- The greatest count of 32 bits. -/
def maxCount : Nat := 0xFFFFFFFF

/-- What 32 bits keep of a number. -/
def wrap (n : Nat) : Nat := n % (maxCount + 1)

theorem wrap_le (n : Nat) : wrap n ≤ maxCount :=
  Nat.le_of_lt_succ (Nat.mod_lt n (Nat.succ_pos maxCount))

/-- A number that is a count is kept as it is. -/
theorem wrap_of_le {n : Nat} (h : n ≤ maxCount) : wrap n = n :=
  Nat.mod_eq_of_lt (Nat.lt_succ_of_le h)

theorem wrap_le_self (n : Nat) : wrap n ≤ n := Nat.mod_le n (maxCount + 1)

theorem wrap_wrap_add (m n : Nat) : wrap (wrap m + n) = wrap (m + n) :=
  Nat.mod_add_mod m (maxCount + 1) n

/-- The sum of a list of counts. -/
def total : List Nat → Nat
  | [] => 0
  | n :: ns => n + total ns

@[simp] theorem total_nil : total [] = 0 := rfl

@[simp] theorem total_cons (n : Nat) (ns : List Nat) : total (n :: ns) = n + total ns := rfl

@[simp] theorem total_append (ms ns : List Nat) : total (ms ++ ns) = total ms + total ns := by
  induction ms with
  | nil => rw [List.nil_append, total_nil, Nat.zero_add]
  | cons m ms ih => rw [List.cons_append, total_cons, total_cons, ih, Nat.add_assoc]

theorem total_replicate (k n : Nat) : total (List.replicate k n) = n * k := by
  induction k with
  | zero => exact (Nat.mul_zero n).symm
  | succ k ih => rw [List.replicate_succ, total_cons, ih, Nat.mul_succ, Nat.add_comm]

theorem le_total_of_mem {n : Nat} {ns : List Nat} (h : n ∈ ns) : n ≤ total ns := by
  induction ns with
  | nil => cases h
  | cons m ns ih =>
      rw [total_cons]
      rcases List.mem_cons.mp h with rfl | h
      · exact Nat.le_add_right n (total ns)
      · exact Nat.le_trans (ih h) (Nat.le_add_left (total ns) m)

theorem total_eq_zero_iff {ns : List Nat} : total ns = 0 ↔ ∀ n ∈ ns, n = 0 := by
  constructor
  · intro h n hn
    exact Nat.le_zero.mp (h ▸ le_total_of_mem hn)
  · intro h
    induction ns with
    | nil => rfl
    | cons m ns ih =>
        rw [total_cons, h m List.mem_cons_self, Nat.zero_add]
        exact ih fun n hn ↦ h n (List.mem_cons_of_mem m hn)

theorem total_set {l : List Nat} {i x : Nat} (h : l[i]? = some x) (y : Nat) :
    total (l.set i y) + x = total l + y := by
  induction l generalizing i with
  | nil => simp at h
  | cons n l ih =>
      cases i with
      | zero =>
          obtain rfl : n = x := by simpa using h
          simp
          omega
      | succ i =>
          have hrest := ih (by simpa using h : l[i]? = some x)
          simp only [List.set_cons_succ, total_cons]
          omega

/-- Lists that agree at every index, an absent count being zero, have the same sum. -/
theorem total_eq_of_getD {ms ns : List Nat} (h : ∀ i, ms.getD i 0 = ns.getD i 0) :
    total ms = total ns := by
  induction ms generalizing ns with
  | nil =>
      refine (total_eq_zero_iff.mpr fun n hn ↦ ?_).symm
      obtain ⟨i, hi, rfl⟩ := List.mem_iff_getElem.mp hn
      simpa [List.getD, hi] using (h i).symm
  | cons m ms ih =>
      cases ns with
      | nil =>
          have hm : m = 0 := h 0
          have hms : total ms = 0 := @ih [] fun i ↦ h (i + 1)
          rw [total_cons, hm, hms, total_nil]
      | cons n ns =>
          have hmn : m = n := h 0
          rw [total_cons, total_cons, hmn, ih fun i ↦ h (i + 1)]

/-- A sum splits into what passes a test and what does not. -/
theorem total_filter_add {β : Type} (test : β → Bool) (f : β → Nat) (xs : List β) :
    total ((xs.filter test).map f) + total (xs.map fun x ↦ if test x then 0 else f x) =
      total (xs.map f) := by
  induction xs with
  | nil => rfl
  | cons x xs ih =>
      rw [List.map_cons, List.map_cons, total_cons, total_cons]
      cases hx : test x with
      | true =>
          rw [List.filter_cons_of_pos hx, List.map_cons, total_cons, if_pos rfl]
          omega
      | false =>
          rw [List.filter_cons_of_neg (by simp [hx]), if_neg (by simp)]
          omega

end MacScheduler
