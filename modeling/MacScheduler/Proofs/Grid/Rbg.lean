import Mathlib.Data.List.Perm.Subperm
import MacScheduler.Grid.Rbg

/-!
# Groups handed out on a carrier

Masks are compared through their bits.  The groups taken on a carrier are
partitioned by the masks handed out: each group taken belongs to a mask, and no
two masks share one.  Handing a free mask out and taking one back keep this.
-/

namespace MacScheduler.RbgMask

/-- A mask of a carrier with `n` groups: it holds no group that the carrier lacks. -/
structure OfCarrier (n : Nat) (m : RbgMask) : Prop where
  size_eq : m.size = n
  lt_of_bit : ∀ i, m.bits.getLsbD i = true → i < n

theorem overlaps_eq_false_iff {m o : RbgMask} :
    m.overlaps o = false ↔ ∀ i, m.bits.getLsbD i = true → o.bits.getLsbD i = false := by
  have hzero : m.overlaps o = false ↔ m.bits &&& o.bits = 0#64 := by simp [overlaps]
  rw [hzero]
  constructor
  · intro h i hi
    have hand : (m.bits &&& o.bits).getLsbD i = false := by simp [h]
    rw [BitVec.getLsbD_and, hi, Bool.true_and] at hand
    exact hand
  · intro h
    apply BitVec.eq_of_getLsbD_eq
    intro i _
    rw [BitVec.getLsbD_and, BitVec.getLsbD_zero, Bool.and_eq_false_imp]
    exact h i

theorem overlaps_comm (m o : RbgMask) : m.overlaps o = o.overlaps m := by
  unfold overlaps
  rw [BitVec.and_comm]

theorem bits_diff (m o : RbgMask) (i : Nat) :
    (m.diff o).bits.getLsbD i = (m.bits.getLsbD i && !o.bits.getLsbD i) := by
  change (m.bits &&& ~~~ o.bits).getLsbD i = _
  rw [BitVec.getLsbD_and, BitVec.getLsbD_not]
  by_cases hi : i < 64
  · rw [decide_eq_true hi, Bool.true_and]
  · rw [BitVec.getLsbD_of_ge m.bits i (Nat.le_of_not_lt hi), Bool.false_and, Bool.false_and]

/-- Taking groups of a mask back leaves as many fewer. -/
theorem count_diff_add {m o : RbgMask}
    (h : ∀ i, o.bits.getLsbD i = true → m.bits.getLsbD i = true) :
    (m.diff o).count + o.count = m.count := by
  have hsplit := List.countP_eq_countP_filter_add (List.range 64) m.bits.getLsbD o.bits.getLsbD
  rw [List.countP_filter, List.countP_filter, Nat.add_comm] at hsplit
  rw [count, count, count, Bits.count, Bits.count, Bits.count, hsplit]
  congr 1
  · exact List.countP_congr fun i _ ↦ by rw [bits_diff]
  · refine List.countP_congr fun i _ ↦ ?_
    rw [Bool.and_eq_true]
    exact ⟨fun ho ↦ ⟨h i ho, ho⟩, fun hboth ↦ hboth.2⟩

/-! ## Picking free groups -/

theorem bits_set (m : RbgMask) (i j : Nat) :
    (m.set i).bits.getLsbD j =
      (m.bits.getLsbD j || (decide (j = i) && decide (i < m.size) && decide (j < 64))) := by
  by_cases hi : i < m.size
  · rw [set, if_pos hi]
    change (m.bits ||| Bits.span 64 i 1).getLsbD j = _
    rw [BitVec.getLsbD_or, Bits.getLsbD_span_one, decide_eq_true hi, Bool.and_true]
  · rw [set, if_neg hi, decide_eq_false hi, Bool.and_false, Bool.false_and, Bool.or_false]

theorem bits_foldl_set (groups : List Nat) (m : RbgMask) (j : Nat) :
    (groups.foldl set m).bits.getLsbD j =
      (m.bits.getLsbD j || (decide (j ∈ groups) && decide (j < m.size) && decide (j < 64))) := by
  induction groups generalizing m with
  | nil => simp
  | cons i groups ih =>
      rw [List.foldl_cons, ih, bits_set, size_set]
      by_cases hj : j = i
      · subst hj
        by_cases hlt : j < m.size <;> by_cases hw : j < 64 <;> simp [hlt, hw]
      · simp [hj]

theorem bits_pickFree (m : RbgMask) (n j : Nat) :
    (m.pickFree n).bits.getLsbD j = (decide (j ∈ m.free.take n) && decide (j < 64)) := by
  have hlt : j ∈ m.free.take n → j < m.size := fun h ↦ (mem_free.mp (List.mem_of_mem_take h)).1
  rw [pickFree, ofList, bits_foldl_set]
  by_cases hj : j ∈ m.free.take n
  · simp [hj, hlt hj, empty]
  · simp [hj, empty]

theorem ofCarrier_pickFree {m : RbgMask} {size : Nat} (hm : m.size = size) (n : Nat) :
    OfCarrier size (m.pickFree n) := by
  refine ⟨by rw [size_pickFree, hm], fun i hi ↦ ?_⟩
  rw [bits_pickFree, Bool.and_eq_true, decide_eq_true_eq] at hi
  exact hm ▸ (mem_free.mp (List.mem_of_mem_take hi.1)).1

theorem ofCarrier_ofRange (size start len : Nat) : OfCarrier size (ofRange size start len) := by
  refine ⟨size_foldl_set _ (empty size), fun i hi ↦ ?_⟩
  rw [ofRange, bits_foldl_set] at hi
  have hzero : (empty size).bits.getLsbD i = false := by simp [empty]
  simp only [hzero, Bool.false_or, Bool.and_eq_true, decide_eq_true_eq] at hi
  exact hi.1.2

theorem overlaps_pickFree (m : RbgMask) (n : Nat) : m.overlaps (m.pickFree n) = false := by
  rw [overlaps_comm, overlaps_eq_false_iff]
  intro i hi
  rw [bits_pickFree, Bool.and_eq_true, decide_eq_true_eq] at hi
  obtain ⟨hlt, hfree⟩ := mem_free.mp (List.mem_of_mem_take hi.1)
  rwa [test, decide_eq_true hlt, Bool.true_and] at hfree

/-! ## Groups that are there -/

theorem exists_free {m : RbgMask} (h : m.count < m.size) : m.free ≠ [] := by
  intro hnil
  have htaken : ∀ i < m.size, m.bits.getLsbD i = true := by
    intro i hi
    cases htest : m.test i with
    | true => exact (Bool.and_eq_true_iff.mp htest).2
    | false =>
        have hmem : i ∈ m.free := mem_free.mpr ⟨hi, htest⟩
        rw [hnil] at hmem
        cases hmem
  have hsub : List.range m.size ⊆ (List.range 64).filter m.bits.getLsbD := by
    intro i hi
    have hbit := htaken i (List.mem_range.mp hi)
    exact List.mem_filter.mpr ⟨List.mem_range.mpr (BitVec.lt_of_getLsbD hbit), hbit⟩
  have hle := (List.nodup_range.subperm hsub).length_le
  rw [List.length_range, ← List.countP_eq_length_filter] at hle
  exact Nat.not_lt.mpr hle h

/-- While groups are free, picking some picks one. -/
theorem exists_test_pickFree {m : RbgMask} (hsize : m.size ≤ 64) (h : m.count < m.size) {n : Nat}
    (hn : 0 < n) : ∃ i, (m.pickFree n).test i = true := by
  obtain ⟨i, rest, hfree⟩ := List.exists_cons_of_ne_nil (exists_free h)
  have hlt := (mem_free.mp (hfree ▸ List.mem_cons_self : i ∈ m.free)).1
  have htake : i ∈ m.free.take n := by
    rw [hfree, ← Nat.sub_add_cancel hn, List.take_succ_cons]
    exact List.mem_cons_self
  refine ⟨i, ?_⟩
  rw [test, size_pickFree, bits_pickFree]
  simp [hlt, htake, Nat.lt_of_lt_of_le hlt hsize]

/-- Where the mask holds no group that its carrier lacks, it counts the groups that it tests. -/
theorem count_eq_countP_test {m : RbgMask} (hsize : m.size ≤ 64)
    (hinside : ∀ i, m.bits.getLsbD i = true → i < m.size) :
    m.count = (List.range m.size).countP m.test := by
  have hsplit : List.range 64 = List.range m.size ++ List.range' m.size (64 - m.size) := by
    have happend := List.range'_append_1 (s := 0) (m := m.size) (n := 64 - m.size)
    rw [Nat.zero_add, Nat.add_sub_cancel' hsize] at happend
    rw [List.range_eq_range', List.range_eq_range', happend]
  have hbeyond : (List.range' m.size (64 - m.size)).countP m.bits.getLsbD = 0 := by
    refine List.countP_eq_zero.mpr fun i hi hbit ↦ ?_
    exact Nat.not_lt.mpr (List.mem_range'_1.mp hi).1 (hinside i hbit)
  rw [count, Bits.count, hsplit, List.countP_append, hbeyond, Nat.add_zero]
  refine List.countP_congr fun i hi ↦ ?_
  rw [test, decide_eq_true (List.mem_range.mp hi), Bool.true_and]

/-- Where the mask holds no group that its carrier lacks, each group is held or free. -/
theorem count_add_length_free {m : RbgMask} (hsize : m.size ≤ 64)
    (hinside : ∀ i, m.bits.getLsbD i = true → i < m.size) :
    m.count + m.free.length = m.size := by
  have hlength := List.length_eq_countP_add_countP m.test (l := List.range m.size)
  rw [List.length_range] at hlength
  rw [count_eq_countP_test hsize hinside, free, ← List.countP_eq_length_filter]
  have hnot : (fun i ↦ !m.test i) = fun i ↦ decide ¬m.test i = true := by
    funext i
    cases m.test i <;> rfl
  rw [hnot]
  exact hlength.symm

/-- Picking takes as many groups as asked for, or all that are free. -/
theorem count_pickFree {m : RbgMask} (hsize : m.size ≤ 64) (n : Nat) :
    (m.pickFree n).count = min n m.free.length := by
  have hnodup : m.free.Nodup := List.nodup_range.filter _
  have hmem : ∀ j, j ∈ (List.range 64).filter (m.pickFree n).bits.getLsbD ↔
      j ∈ m.free.take n := by
    intro j
    have hlt : j ∈ m.free.take n → j < 64 := fun hj ↦
      Nat.lt_of_lt_of_le (mem_free.mp (List.mem_of_mem_take hj)).1 hsize
    rw [List.mem_filter, List.mem_range, bits_pickFree]
    simp only [Bool.and_eq_true, decide_eq_true_eq]
    exact ⟨fun h ↦ h.2.1, fun h ↦ ⟨hlt h, h, hlt h⟩⟩
  have hperm := (List.perm_ext_iff_of_nodup (List.nodup_range.filter _)
    (hnodup.sublist (List.take_sublist n m.free))).mpr hmem
  rw [count, Bits.count, List.countP_eq_length_filter, hperm.length_eq, List.length_take]

theorem groupPrbs_pos {nofPrb i : Nat} (h : i < nofRbgs nofPrb) : 0 < groupPrbs nofPrb i := by
  have hsize := rbgSize_pos nofPrb
  have hmul := (Nat.le_div_iff_mul_le hsize).mp (Nat.succ_le_of_lt h)
  rw [Nat.succ_mul] at hmul
  unfold groupPrbs
  omega

theorem nofPrb_pos {m : RbgMask} {nofPrb i : Nat} (hsize : m.size = nofRbgs nofPrb)
    (h : m.test i = true) : 0 < m.nofPrb nofPrb := by
  have hpos := groupPrbs_pos (hsize ▸ lt_size_of_test h)
  exact Nat.lt_of_lt_of_le hpos (le_total_of_mem (List.mem_map_of_mem (mem_toList.mpr h)))

theorem nofRbgs_le {nofPrb : Nat} (h : nofPrb ≤ 128) : nofRbgs nofPrb ≤ 64 := by
  have hlt : nofPrb + rbgSize nofPrb - 1 < rbgSize nofPrb * 65 := by
    unfold rbgSize
    split
    · omega
    · split
      · omega
      · split <;> omega
  exact Nat.le_of_lt_succ (Nat.div_lt_of_lt_mul hlt)

/-! ## The last group -/

/-- Resource blocks that the last group of a carrier lacks to be a full one. -/
def shortfall (nofPrb : Nat) : Nat := nofRbgs nofPrb * rbgSize nofPrb - nofPrb

theorem nofRbgs_mul_bounds (nofPrb : Nat) :
    nofPrb ≤ nofRbgs nofPrb * rbgSize nofPrb ∧
      nofRbgs nofPrb * rbgSize nofPrb < nofPrb + rbgSize nofPrb := by
  have hpos := rbgSize_pos nofPrb
  have hdiv := Nat.div_add_mod (nofPrb + rbgSize nofPrb - 1) (rbgSize nofPrb)
  have hmod := Nat.mod_lt (nofPrb + rbgSize nofPrb - 1) hpos
  rw [nofRbgs, Nat.mul_comm]
  omega

/-- Every group is full but for the last one, which lacks the shortfall. -/
theorem groupPrbs_add {nofPrb i : Nat} (h : i < nofRbgs nofPrb) :
    groupPrbs nofPrb i + (if i = nofRbgs nofPrb - 1 then shortfall nofPrb else 0) =
      rbgSize nofPrb := by
  obtain ⟨hle, hlt⟩ := nofRbgs_mul_bounds nofPrb
  have hsucc : (i + 1) * rbgSize nofPrb ≤ nofRbgs nofPrb * rbgSize nofPrb :=
    Nat.mul_le_mul_right _ h
  rw [Nat.succ_mul] at hsucc
  unfold groupPrbs shortfall
  split
  · rename_i hlast
    have heq : nofRbgs nofPrb = i + 1 := by omega
    rw [heq, Nat.succ_mul] at hle hlt ⊢
    omega
  · have hnext : (i + 2) * rbgSize nofPrb ≤ nofRbgs nofPrb * rbgSize nofPrb :=
      Nat.mul_le_mul_right _ (by omega)
    rw [Nat.succ_mul, Nat.succ_mul] at hnext
    omega

theorem total_map_add_ite {is : List Nat} (hnodup : is.Nodup) {f : Nat → Nat} {last d full : Nat}
    (hf : ∀ i ∈ is, f i + (if i = last then d else 0) = full) :
    total (is.map f) + (if last ∈ is then d else 0) = is.length * full := by
  induction is with
  | nil => simp
  | cons i is ih =>
      obtain ⟨hmem, hnodup⟩ := List.nodup_cons.mp hnodup
      obtain ⟨hi, hrest⟩ := List.forall_mem_cons.mp hf
      have hsum := ih hnodup hrest
      rw [List.map_cons, total_cons, List.length_cons, Nat.succ_mul, ← hsum, ← hi]
      by_cases heq : i = last
      · subst heq
        simp only [List.mem_cons_self, if_true, if_neg hmem]
        omega
      · simp only [List.mem_cons, Ne.symm heq, false_or, if_neg heq]
        omega

/-- A mask covers a full group for each group it counts, but for the shortfall where it holds
the last one. -/
theorem nofPrb_add {m : RbgMask} {nofPrb : Nat} (hm : m.OfCarrier (nofRbgs nofPrb))
    (hsize : nofRbgs nofPrb ≤ 64) :
    m.nofPrb nofPrb + (if m.test (nofRbgs nofPrb - 1) = true then shortfall nofPrb else 0) =
      m.count * rbgSize nofPrb := by
  have hcount : m.count = m.toList.length := by
    rw [count_eq_countP_test (hm.size_eq ▸ hsize) (hm.size_eq ▸ hm.lt_of_bit),
      List.countP_eq_length_filter, toList]
  have hgroups : ∀ i ∈ m.toList, groupPrbs nofPrb i +
      (if i = nofRbgs nofPrb - 1 then shortfall nofPrb else 0) = rbgSize nofPrb :=
    fun i hi ↦ groupPrbs_add (hm.size_eq ▸ lt_size_of_test (mem_toList.mp hi))
  have hnodup : m.toList.Nodup := List.nodup_range.filter _
  have htotal := total_map_add_ite hnodup hgroups
  simp only [mem_toList] at htotal
  rw [hcount]
  exact htotal

/-- A mask covers what its number of groups stands for, unless it holds the last group, which
is a short one, without holding all. -/
theorem min_le_nofPrb_iff {m : RbgMask} {nofPrb : Nat} (hm : m.OfCarrier (nofRbgs nofPrb))
    (hsize : nofRbgs nofPrb ≤ 64) :
    min (m.count * rbgSize nofPrb) nofPrb ≤ m.nofPrb nofPrb ↔
      m.test (nofRbgs nofPrb - 1) = false ∨ shortfall nofPrb = 0 ∨ m.count = nofRbgs nofPrb := by
  have hcovered := nofPrb_add hm hsize
  obtain ⟨hle, hlt⟩ := nofRbgs_mul_bounds nofPrb
  have hfree := count_add_length_free (hm.size_eq ▸ hsize) (hm.size_eq ▸ hm.lt_of_bit)
  rw [hm.size_eq] at hfree
  have hshort : shortfall nofPrb = nofRbgs nofPrb * rbgSize nofPrb - nofPrb := rfl
  cases hlast : m.test (nofRbgs nofPrb - 1) with
  | false =>
      rw [hlast, if_neg Bool.false_ne_true, Nat.add_zero] at hcovered
      refine iff_of_true ?_ (.inl rfl)
      rw [hcovered]
      exact Nat.min_le_left _ _
  | true =>
      rw [hlast, if_pos rfl] at hcovered
      rcases Nat.lt_or_eq_of_le (Nat.le.intro hfree) with hfew | hall
      · have hfewer : (m.count + 1) * rbgSize nofPrb ≤ nofRbgs nofPrb * rbgSize nofPrb :=
          Nat.mul_le_mul_right _ hfew
        rw [Nat.succ_mul] at hfewer
        constructor
        · intro hmin
          exact .inr (.inl (by omega))
        · rintro (hfalse | hzero | heq)
          · cases hfalse
          · omega
          · exact absurd heq (Nat.ne_of_lt hfew)
      · refine iff_of_true ?_ (.inr (.inr hall))
        rw [hall] at hcovered ⊢
        omega

/-! ## Handing out and taking back -/

/-- The groups taken are those of the given masks, no two of which share a group. -/
structure PartitionedBy (used : RbgMask) (masks : List RbgMask) : Prop where
  disjoint : masks.Pairwise fun a b ↦ a.overlaps b = false
  bit_iff : ∀ i, used.bits.getLsbD i = true ↔ ∃ m ∈ masks, m.bits.getLsbD i = true

namespace PartitionedBy

variable {used m : RbgMask} {masks : List RbgMask}

theorem nil (n : Nat) : (RbgMask.empty n).PartitionedBy [] :=
  ⟨List.Pairwise.nil, fun i ↦ by simp [RbgMask.empty]⟩

theorem perm {masks' : List RbgMask} (h : used.PartitionedBy masks) (hp : masks.Perm masks') :
    used.PartitionedBy masks' := by
  constructor
  · exact (hp.pairwise_iff fun hab ↦ by rwa [overlaps_comm]).mp h.disjoint
  · intro i
    rw [h.bit_iff]
    exact exists_congr fun o ↦ and_congr_left' hp.mem_iff

theorem union (h : used.PartitionedBy masks) (hm : used.overlaps m = false) :
    (used.union m).PartitionedBy (masks ++ [m]) := by
  constructor
  · refine List.pairwise_append.mpr ⟨h.disjoint, List.pairwise_singleton _ _, ?_⟩
    intro a ha b hb
    obtain rfl := List.mem_singleton.mp hb
    apply overlaps_eq_false_iff.mpr
    intro i hi
    exact overlaps_eq_false_iff.mp hm i ((h.bit_iff i).mpr ⟨a, ha, hi⟩)
  · intro i
    change (used.bits ||| m.bits).getLsbD i = true ↔ _
    rw [BitVec.getLsbD_or, Bool.or_eq_true, h.bit_iff]
    simp only [List.mem_append, List.mem_singleton]
    grind

theorem diff {before after : List RbgMask} (h : used.PartitionedBy (before ++ m :: after)) :
    (used.diff m).PartitionedBy (before ++ after) := by
  have hm := h.perm List.perm_middle
  obtain ⟨hfree, hrest⟩ := List.pairwise_cons.mp hm.disjoint
  refine ⟨hrest, fun i ↦ ?_⟩
  rw [bits_diff, Bool.and_eq_true, Bool.not_eq_true', hm.bit_iff]
  constructor
  · rintro ⟨⟨o, ho, hoi⟩, hmi⟩
    rcases List.mem_cons.mp ho with rfl | ho
    · simp [hoi] at hmi
    · exact ⟨o, ho, hoi⟩
  · rintro ⟨o, ho, hoi⟩
    refine ⟨⟨o, List.mem_cons_of_mem m ho, hoi⟩, ?_⟩
    have hom := hfree o ho
    rw [overlaps_comm] at hom
    exact overlaps_eq_false_iff.mp hom i hoi

/-- As many groups are taken as the masks hold together. -/
theorem count_eq (h : used.PartitionedBy masks) : used.count = total (masks.map count) := by
  induction masks generalizing used with
  | nil => exact List.countP_eq_zero.mpr fun i _ hbit ↦ by simpa using (h.bit_iff i).mp hbit
  | cons m masks ih =>
      have hsub : ∀ i, m.bits.getLsbD i = true → used.bits.getLsbD i = true :=
        fun i hi ↦ (h.bit_iff i).mpr ⟨m, List.mem_cons_self, hi⟩
      have hrest : (used.diff m).PartitionedBy ([] ++ masks) := diff h
      rw [← count_diff_add hsub, ih hrest, List.map_cons, total_cons, Nat.add_comm]

/-- Where the masks are of the carrier, each group is held or free. -/
theorem count_add_free {n : Nat} (h : used.PartitionedBy masks) (hsize : used.size = n)
    (hn : n ≤ 64) (hmasks : ∀ m ∈ masks, m.OfCarrier n) : used.count + used.free.length = n := by
  refine (count_add_length_free (hsize ▸ hn) fun i hi ↦ ?_).trans hsize
  obtain ⟨m, hm, hbit⟩ := (h.bit_iff i).mp hi
  exact hsize ▸ (hmasks m hm).lt_of_bit i hbit

end PartitionedBy

end MacScheduler.RbgMask
