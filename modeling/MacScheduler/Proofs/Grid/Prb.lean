import MacScheduler.Grid.Prb

/-!
# Blocks handed out on a carrier

Two intervals overlap when they share a block.  The blocks taken on a carrier
are partitioned by the intervals handed out, and whatever a search finds is
free, so handing it out keeps the partition.  An interval whose end wraps around
may pass for free without being so; it still takes no block but those it holds.
-/

namespace MacScheduler

namespace PrbInterval

/-- The blocks that filling the interval takes. -/
def Holds (i : PrbInterval) (k : Nat) : Prop := i.start ≤ k ∧ k < i.stop

/-- The blocks of an interval whose end does not wrap around. -/
def Has (i : PrbInterval) (k : Nat) : Prop := i.start ≤ k ∧ k < i.start + i.len

/-- The end of the interval is a count, so it holds all its blocks. -/
def Counted (i : PrbInterval) : Prop := i.start + i.len ≤ maxCount

instance : DecidablePred Counted := fun i ↦
  inferInstanceAs (Decidable (i.start + i.len ≤ maxCount))

theorem counted_of_le {i : PrbInterval} {size : Nat} (h : i.start + i.len ≤ size)
    (hsize : size ≤ 128) : i.Counted :=
  Nat.le_trans h (Nat.le_trans hsize (by decide))

theorem stop_le (i : PrbInterval) : i.stop ≤ i.start + i.len := wrap_le_self _

theorem Counted.stop_eq {i : PrbInterval} (h : i.Counted) : i.stop = i.start + i.len :=
  wrap_of_le h

theorem Counted.holds_iff {i : PrbInterval} (h : i.Counted) {k : Nat} : i.Holds k ↔ i.Has k := by
  rw [Holds, h.stop_eq, Has]

/-- The blocks of `i` are blocks of `j`. -/
def Within (i j : PrbInterval) : Prop :=
  j.start ≤ i.start ∧ i.start + i.len ≤ j.start + j.len

theorem Within.has {i j : PrbInterval} (h : i.Within j) {k : Nat} (hk : i.Has k) : j.Has k :=
  ⟨Nat.le_trans h.1 hk.1, Nat.lt_of_lt_of_le hk.2 h.2⟩

theorem Within.counted {i j : PrbInterval} (h : i.Within j) (hj : j.Counted) : i.Counted :=
  Nat.le_trans h.2 hj

theorem overlaps_eq_false_iff {a b : PrbInterval} (ha : a.Counted) (hb : b.Counted) :
    a.overlaps b = false ↔ ∀ k, a.Holds k → ¬b.Holds k := by
  have hover : a.overlaps b = true ↔
      a.len ≠ 0 ∧ b.len ≠ 0 ∧ a.start < b.stop ∧ b.start < a.stop := by
    simp [overlaps, isEmpty, and_assoc]
  have hastop := ha.stop_eq
  have hbstop := hb.stop_eq
  rw [← Bool.not_eq_true, hover]
  constructor
  · rintro h k ⟨hak, hka⟩ ⟨hbk, hkb⟩
    omega
  · rintro h ⟨ha, hb, hab, hba⟩
    by_cases hle : a.start ≤ b.start
    · exact h b.start ⟨hle, hba⟩ ⟨Nat.le_refl _, by omega⟩
    · exact h a.start ⟨Nat.le_refl _, by omega⟩ ⟨by omega, hab⟩

theorem overlaps_comm (a b : PrbInterval) : a.overlaps b = b.overlaps a := by
  unfold overlaps
  ac_rfl

theorem not_isEmpty_iff {i : PrbInterval} : i.isEmpty = false ↔ 0 < i.len := by
  simp [isEmpty, Nat.pos_iff_ne_zero]

end PrbInterval

namespace PrbMap

/-- The interval lies on the carrier and none of its blocks is taken. -/
def Free (m : PrbMap) (i : PrbInterval) : Prop :=
  i.start + i.len ≤ m.size ∧ ∀ k, i.Has k → m.taken k = false

theorem Free.isFree {m : PrbMap} {i : PrbInterval} (h : m.Free i) : m.isFree i = true :=
  isFree_iff.mpr ⟨Nat.le_trans i.stop_le h.1,
    fun k hstart hstop ↦ h.2 k ⟨hstart, Nat.lt_of_lt_of_le hstop i.stop_le⟩⟩

/-- What passes for free is free, unless its end wraps around. -/
theorem isFree_iff_free {m : PrbMap} {i : PrbInterval} (hi : i.Counted) :
    m.isFree i = true ↔ m.Free i := by
  refine ⟨fun h ↦ ?_, Free.isFree⟩
  rw [isFree_iff, hi.stop_eq] at h
  exact ⟨h.1, fun k hk ↦ h.2 k hk.1 hk.2⟩

/-! ## Searching -/

/-- Every run that `runsFrom` reports is not empty, lies between the blocks seen
before and the end of the flags, and is free wherever the flags reach. -/
theorem of_mem_runsFrom {pos len : Nat} {flags : List Bool} {run : PrbInterval}
    (hlen : len ≤ pos) (h : run ∈ runsFrom pos len flags) :
    0 < run.len ∧ pos - len ≤ run.start ∧ run.start + run.len ≤ pos + flags.length ∧
      ∀ k, run.Has (pos + k) → flags[k]? = some false := by
  induction flags generalizing pos len with
  | nil =>
      by_cases hl : len = 0
      · simp [runsFrom, hl] at h
      · simp only [runsFrom, if_neg hl, List.mem_singleton] at h
        subst h
        refine ⟨Nat.pos_of_ne_zero hl, Nat.le_refl _, by simp; omega, ?_⟩
        rintro k ⟨_, hk⟩
        simp only at hk
        omega
  | cons flag flags ih =>
      -- a run found further on says nothing about the flag of block `pos` unless it was free
      have later : ∀ len', len' ≤ pos + 1 → run ∈ runsFrom (pos + 1) len' flags →
          (flag = false ∨ len' = 0) →
            0 < run.len ∧ pos + 1 - len' ≤ run.start ∧
              run.start + run.len ≤ pos + (flags.length + 1) ∧
              ∀ k, run.Has (pos + k) → (flag :: flags)[k]? = some false := by
        intro len' hlen' hrun hflag
        obtain ⟨hpos, hstart, hstop, hfree⟩ := ih hlen' hrun
        refine ⟨hpos, hstart, by omega, fun k hk ↦ ?_⟩
        cases k with
        | zero =>
            rcases hflag with rfl | hzero
            · rfl
            · have := hk.1
              omega
        | succ k =>
            rw [List.getElem?_cons_succ]
            exact hfree k (by rwa [show pos + 1 + k = pos + (k + 1) by omega])
      cases flag with
      | false =>
          obtain ⟨hpos, hstart, hrest⟩ :=
            later (len + 1) (by omega) (by simpa [runsFrom] using h) (.inl rfl)
          exact ⟨hpos, by omega, hrest⟩
      | true =>
          by_cases hl : len = 0
          · obtain ⟨hpos, hstart, hrest⟩ :=
              later 0 (by omega) (by simpa [runsFrom, hl] using h) (.inr rfl)
            exact ⟨hpos, by omega, hrest⟩
          · simp only [runsFrom, if_neg hl, List.mem_cons] at h
            rcases h with rfl | h
            · refine ⟨Nat.pos_of_ne_zero hl, Nat.le_refl _, ?_, ?_⟩
              · simp only [List.length_cons]
                omega
              · rintro k ⟨_, hk⟩
                simp only at hk
                omega
            · obtain ⟨hpos, hstart, hrest⟩ := later 0 (by omega) h (.inr rfl)
              exact ⟨hpos, by omega, hrest⟩

theorem of_mem_freeRuns {m : PrbMap} {run : PrbInterval} (h : run ∈ m.freeRuns) :
    0 < run.len ∧ m.Free run := by
  obtain ⟨hpos, -, hstop, hfree⟩ := of_mem_runsFrom (Nat.le_refl 0) h
  rw [List.length_map, List.length_range, Nat.zero_add] at hstop
  refine ⟨hpos, hstop, fun k hk ↦ ?_⟩
  have hflag := hfree k (by rwa [Nat.zero_add])
  rw [List.getElem?_map, List.getElem?_range (Nat.lt_of_lt_of_le hk.2 hstop)] at hflag
  simpa using hflag

theorem longest_mem {runs : List PrbInterval} {best : PrbInterval}
    (h : longest runs = some best) : best ∈ runs := by
  induction runs generalizing best with
  | nil => simp [longest] at h
  | cons run runs ih =>
      cases hl : longest runs with
      | none =>
          simp only [longest, hl, Option.some.injEq] at h
          exact h ▸ List.mem_cons_self
      | some other =>
          simp only [longest, hl] at h
          split at h
          · exact Option.some.inj h ▸ List.mem_cons_of_mem run (ih hl)
          · exact Option.some.inj h ▸ List.mem_cons_self

theorem of_findExact {m : PrbMap} {len : Nat} {i : PrbInterval}
    (h : m.findExact len = some i) : i.len = len ∧ 0 < len ∧ m.Free i := by
  unfold findExact at h
  split at h
  · cases h
  · rename_i hlen
    obtain ⟨run, hrun, rfl⟩ := Option.map_eq_some_iff.mp h
    have hle : len ≤ run.len := by simpa using List.find?_some hrun
    obtain ⟨hstop, hfree⟩ := (of_mem_freeRuns (List.mem_of_find?_eq_some hrun)).2
    have hend : run.start + len ≤ run.start + run.len := Nat.add_le_add_left hle _
    exact ⟨rfl, Nat.pos_of_ne_zero hlen, Nat.le_trans hend hstop,
      fun k hk ↦ hfree k ⟨hk.1, Nat.lt_of_lt_of_le hk.2 hend⟩⟩

theorem of_findUpTo {m : PrbMap} {len : Nat} {i : PrbInterval}
    (h : m.findUpTo len = some i) : 0 < i.len ∧ m.Free i := by
  rcases Option.or_eq_some_iff.mp h with hexact | ⟨-, hlongest⟩
  · obtain ⟨hlen, hpos, hfree⟩ := of_findExact hexact
    exact ⟨hlen ▸ hpos, hfree⟩
  · exact of_mem_freeRuns (longest_mem hlongest)

theorem of_runsFrom_eq_nil {pos len : Nat} {flags : List Bool} (h : runsFrom pos len flags = []) :
    len = 0 ∧ ∀ flag ∈ flags, flag = true := by
  induction flags generalizing pos len with
  | nil =>
      by_cases hlen : len = 0
      · exact ⟨hlen, by simp⟩
      · simp [runsFrom, hlen] at h
  | cons flag flags ih =>
      cases flag with
      | false => exact absurd (ih (by simpa [runsFrom] using h)).1 (Nat.succ_ne_zero len)
      | true =>
          by_cases hlen : len = 0
          · have hrest := ih (by simpa [runsFrom, hlen] using h)
            exact ⟨hlen, List.forall_mem_cons.mpr ⟨rfl, hrest.2⟩⟩
          · simp [runsFrom, hlen] at h

theorem longest_eq_none {runs : List PrbInterval} (h : longest runs = none) : runs = [] := by
  cases runs with
  | nil => rfl
  | cons run runs =>
      unfold longest at h
      split at h
      · cases h
      · split at h <;> cases h

/-- A search in vain means that every block is taken. -/
theorem taken_of_findUpTo_eq_none {m : PrbMap} {len : Nat} (h : m.findUpTo len = none) {k : Nat}
    (hk : k < m.size) : m.taken k = true := by
  have hruns := longest_eq_none (Option.or_eq_none_iff.mp h).2
  exact (of_runsFrom_eq_nil hruns).2 _ (List.mem_map_of_mem (List.mem_range.mpr hk))

@[simp] theorem size_fill (m : PrbMap) (i : PrbInterval) : (m.fill i).size = m.size := rfl

/-! ## Handing out and taking back -/

/-- Every block taken is one of the carrier that some interval holds. -/
def CoveredBy (used : PrbMap) (intervals : List PrbInterval) : Prop :=
  ∀ k, used.taken k = true → k < used.size ∧ ∃ i ∈ intervals, i.Holds k

namespace CoveredBy

variable {used : PrbMap} {intervals : List PrbInterval}

theorem fill (h : used.CoveredBy intervals) (i : PrbInterval) :
    (used.fill i).CoveredBy (intervals ++ [i]) := by
  intro k hk
  rw [taken_fill, Bool.or_eq_true] at hk
  rcases hk with hk | hk
  · obtain ⟨hlt, j, hj, hjk⟩ := h k hk
    exact ⟨hlt, j, List.mem_append_left _ hj, hjk⟩
  · simp only [Bool.and_eq_true, decide_eq_true_eq] at hk
    obtain ⟨⟨-, hstart⟩, hstop⟩ := hk
    obtain ⟨hstop, hsize⟩ := Nat.lt_min.mp hstop
    exact ⟨hsize, i, List.mem_append_right _ (List.mem_singleton.mpr rfl), hstart, hstop⟩

theorem clear {before after : List PrbInterval} {i : PrbInterval}
    (h : used.CoveredBy (before ++ i :: after)) : (used.clear i).CoveredBy (before ++ after) := by
  intro k hk
  rw [taken_clear, Bool.and_eq_true] at hk
  obtain ⟨htaken, hnot⟩ := hk
  obtain ⟨hlt, j, hj, hjk⟩ := h k htaken
  have hik : ¬i.Holds k := by
    simp only [Bool.not_eq_true', Bool.and_eq_false_iff, decide_eq_false_iff_not] at hnot
    rintro ⟨hstart, hstop⟩
    have := Nat.lt_min.mpr ⟨hstop, hlt⟩
    omega
  refine ⟨hlt, j, ?_, hjk⟩
  rcases List.mem_cons.mp (List.perm_middle.mem_iff.mp hj) with rfl | hj
  · exact (hik hjk).elim
  · exact hj

end CoveredBy

/-- The blocks taken are those of the given intervals, which lie on the carrier and
share no block. -/
structure PartitionedBy (used : PrbMap) (intervals : List PrbInterval) : Prop where
  size_le : used.size ≤ 128
  inside : ∀ i ∈ intervals, i.start + i.len ≤ used.size
  disjoint : intervals.Pairwise fun a b ↦ a.overlaps b = false
  taken_iff : ∀ k, used.taken k = true ↔ ∃ i ∈ intervals, i.Holds k

namespace PartitionedBy

variable {used : PrbMap} {i : PrbInterval} {intervals : List PrbInterval}

theorem nil {n : Nat} (hn : n ≤ 128) : (PrbMap.empty n).PartitionedBy [] :=
  ⟨hn, by simp, List.Pairwise.nil, by simp⟩

theorem counted (h : used.PartitionedBy intervals) (hi : i ∈ intervals) : i.Counted :=
  PrbInterval.counted_of_le (h.inside i hi) h.size_le

theorem covered (h : used.PartitionedBy intervals) : used.CoveredBy intervals := by
  intro k hk
  obtain ⟨i, hi, hik⟩ := (h.taken_iff k).mp hk
  have hstop := Nat.le_trans i.stop_le (h.inside i hi)
  exact ⟨Nat.lt_of_lt_of_le hik.2 hstop, i, hi, hik⟩

theorem perm {intervals' : List PrbInterval} (h : used.PartitionedBy intervals)
    (hp : intervals.Perm intervals') : used.PartitionedBy intervals' := by
  refine ⟨h.size_le, fun i hi ↦ h.inside i (hp.mem_iff.mpr hi), ?_, fun k ↦ ?_⟩
  · exact (hp.pairwise_iff fun hab ↦ by rwa [PrbInterval.overlaps_comm]).mp h.disjoint
  · rw [h.taken_iff]
    exact exists_congr fun o ↦ and_congr_left' hp.mem_iff

theorem fill (h : used.PartitionedBy intervals) (hi : used.Free i) :
    (used.fill i).PartitionedBy (intervals ++ [i]) := by
  obtain ⟨hinside, hfree⟩ := hi
  have hsize := h.size_le
  have hcounted := PrbInterval.counted_of_le hinside hsize
  have hstop := hcounted.stop_eq
  refine ⟨hsize, ?_, ?_, fun k ↦ ?_⟩
  · intro j hj
    rcases List.mem_append.mp hj with hj | hj
    · exact h.inside j hj
    · exact List.mem_singleton.mp hj ▸ hinside
  · refine List.pairwise_append.mpr ⟨h.disjoint, List.pairwise_singleton _ _, ?_⟩
    intro a ha b hb
    obtain rfl := List.mem_singleton.mp hb
    apply (PrbInterval.overlaps_eq_false_iff (h.counted ha) hcounted).mpr
    intro k hak hbk
    have htaken := (h.taken_iff k).mpr ⟨a, ha, hak⟩
    simp [hfree k (hcounted.holds_iff.mp hbk)] at htaken
  · have hholds : (decide (k < 128) && decide (i.start ≤ k) &&
        decide (k < min i.stop used.size)) = true ↔ i.Holds k := by
      simp only [Bool.and_eq_true, decide_eq_true_eq, PrbInterval.Holds]
      omega
    rw [taken_fill, Bool.or_eq_true, hholds, h.taken_iff]
    simp only [List.mem_append, List.mem_singleton]
    grind

theorem clear {before after : List PrbInterval}
    (h : used.PartitionedBy (before ++ i :: after)) :
    (used.clear i).PartitionedBy (before ++ after) := by
  have hi := h.perm List.perm_middle
  obtain ⟨hfree, hrest⟩ := List.pairwise_cons.mp hi.disjoint
  refine ⟨h.size_le, fun j hj ↦ hi.inside j (List.mem_cons_of_mem i hj), hrest, fun k ↦ ?_⟩
  have hstop := Nat.le_trans i.stop_le (hi.inside i List.mem_cons_self)
  have hholds : (!(decide (i.start ≤ k) && decide (k < min i.stop used.size))) = true ↔
      ¬i.Holds k := by
    simp only [Bool.not_eq_true', Bool.and_eq_false_iff, decide_eq_false_iff_not,
      PrbInterval.Holds]
    omega
  rw [taken_clear, Bool.and_eq_true, hholds, hi.taken_iff]
  constructor
  · rintro ⟨⟨j, hj, hjk⟩, hik⟩
    rcases List.mem_cons.mp hj with rfl | hj
    · exact (hik hjk).elim
    · exact ⟨j, hj, hjk⟩
  · rintro ⟨j, hj, hjk⟩
    have hover := PrbInterval.overlaps_eq_false_iff (hi.counted List.mem_cons_self)
      (hi.counted (List.mem_cons_of_mem i hj))
    exact ⟨⟨j, List.mem_cons_of_mem i hj, hjk⟩,
      fun hik ↦ hover.mp (hfree j hj) k hik hjk⟩

end PartitionedBy

end PrbMap

end MacScheduler
