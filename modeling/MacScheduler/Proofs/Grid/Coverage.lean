import Mathlib.Data.Finset.Card
import Mathlib.Order.Interval.Finset.Nat
import MacScheduler.Proofs.Grid.Rbg

/-!
# Resource blocks under a mask

A mask covers the resource blocks of the carrier that lie in its groups, and the number
it reports is the number of these blocks.  So the counts of masks that share no group add
up, and however many such masks there are, they never cover more than the carrier has.
Picking takes the lowest free groups, which determines the mask.
-/

namespace MacScheduler

/-- Sets that are pairwise apart are together as large as their union. -/
theorem total_card_of_apart {ι : Type} {xs : List ι} {f : ι → Finset Nat} {all : Finset Nat}
    (happart : xs.Pairwise fun x y ↦ Disjoint (f x) (f y))
    (hall : ∀ b, b ∈ all ↔ ∃ x ∈ xs, b ∈ f x) :
    total (xs.map fun x ↦ (f x).card) = all.card := by
  induction xs generalizing all with
  | nil =>
      have hempty : all = ∅ := Finset.eq_empty_of_forall_notMem fun b hb ↦ by
        simpa using (hall b).mp hb
      rw [hempty]
      rfl
  | cons x xs ih =>
      obtain ⟨hx, hrest⟩ := List.pairwise_cons.mp happart
      have hsub : f x ⊆ all := fun b hb ↦ (hall b).mpr ⟨x, List.mem_cons_self, hb⟩
      have hleft : ∀ b, b ∈ all \ f x ↔ ∃ y ∈ xs, b ∈ f y := by
        intro b
        rw [Finset.mem_sdiff, hall]
        constructor
        · rintro ⟨⟨y, hy, hb⟩, hnot⟩
          rcases List.mem_cons.mp hy with rfl | hy
          · exact (hnot hb).elim
          · exact ⟨y, hy, hb⟩
        · rintro ⟨y, hy, hb⟩
          exact ⟨⟨y, List.mem_cons_of_mem x hy, hb⟩, Finset.disjoint_right.mp (hx y hy) hb⟩
      rw [List.map_cons, total_cons, ih hrest hleft, Nat.add_comm,
        Finset.card_sdiff_add_card_eq_card hsub]

namespace RbgMask

variable {m o : RbgMask} {n : Nat}

/-! ## The blocks of a group -/

def groupBlocks (n i : Nat) : Finset Nat :=
  (Finset.range n).filter fun b ↦ b / rbgSize n = i

theorem card_groupBlocks (n i : Nat) : (groupBlocks n i).card = groupPrbs n i := by
  have hpos := rbgSize_pos n
  have hblocks : groupBlocks n i =
      Finset.Ico (i * rbgSize n) (min (i * rbgSize n + rbgSize n) n) := by
    ext b
    have hlower : i ≤ b / rbgSize n ↔ i * rbgSize n ≤ b := Nat.le_div_iff_mul_le hpos
    have hupper : b / rbgSize n < i + 1 ↔ b < i * rbgSize n + rbgSize n := by
      rw [Nat.div_lt_iff_lt_mul hpos, Nat.succ_mul]
    simp only [groupBlocks, Finset.mem_filter, Finset.mem_range, Finset.mem_Ico]
    omega
  rw [hblocks, Nat.card_Ico, groupPrbs]
  omega

theorem group_lt {b : Nat} (hb : b < n) : b / rbgSize n < nofRbgs n :=
  (Nat.div_lt_iff_lt_mul (rbgSize_pos n)).mpr (hb.trans_le (nofRbgs_mul_bounds n).1)

/-! ## The blocks of a mask -/

/-- The resource blocks of a carrier of `n` blocks that lie in the groups of the mask. -/
def blocks (n : Nat) (m : RbgMask) : Finset Nat :=
  (Finset.range n).filter fun b ↦ m.test (b / rbgSize n) = true

theorem mem_blocks {b : Nat} : b ∈ m.blocks n ↔ b < n ∧ m.test (b / rbgSize n) = true := by
  rw [blocks, Finset.mem_filter, Finset.mem_range]

theorem blocks_subset (n : Nat) (m : RbgMask) : m.blocks n ⊆ Finset.range n :=
  Finset.filter_subset _ _

/-- The number that a mask reports counts the blocks under it. -/
theorem nofPrb_eq_card (n : Nat) (m : RbgMask) : m.nofPrb n = (m.blocks n).card := by
  have hapart : m.toList.Pairwise fun i j ↦ Disjoint (groupBlocks n i) (groupBlocks n j) := by
    apply (List.nodup_range.filter _).imp
    intro i j hne
    apply Finset.disjoint_left.mpr
    intro b hi hj
    exact hne ((Finset.mem_filter.mp hi).2.symm.trans (Finset.mem_filter.mp hj).2)
  have hall : ∀ b, b ∈ m.blocks n ↔ ∃ i ∈ m.toList, b ∈ groupBlocks n i := by
    intro b
    simp [mem_blocks, groupBlocks, and_comm]
  rw [← total_card_of_apart hapart hall]
  simp only [card_groupBlocks]
  rfl

theorem test_and_of_overlaps (h : m.overlaps o = false) (i : Nat) :
    (m.test i && o.test i) = false := by
  cases hm : m.test i with
  | false => rfl
  | true =>
      have ho := overlaps_eq_false_iff.mp h i (Bool.and_eq_true_iff.mp hm).2
      rw [test, ho, Bool.and_false, Bool.and_false]

theorem disjoint_blocks (h : m.overlaps o = false) (n : Nat) :
    Disjoint (m.blocks n) (o.blocks n) := by
  apply Finset.disjoint_left.mpr
  intro b hm ho
  have hboth := test_and_of_overlaps h (b / rbgSize n)
  rw [(mem_blocks.mp hm).2, (mem_blocks.mp ho).2] at hboth
  cases hboth

theorem blocks_union (hsize : m.size = o.size) (n : Nat) :
    (m.union o).blocks n = m.blocks n ∪ o.blocks n := by
  ext b
  have htest : (m.union o).test (b / rbgSize n) =
      (m.test (b / rbgSize n) || o.test (b / rbgSize n)) := by
    rw [test_union, hsize]
    rfl
  rw [Finset.mem_union, mem_blocks, mem_blocks, mem_blocks, htest, Bool.or_eq_true, and_or_left]

theorem nofPrb_union (hsize : m.size = o.size) (h : m.overlaps o = false) (n : Nat) :
    (m.union o).nofPrb n = m.nofPrb n + o.nofPrb n := by
  rw [nofPrb_eq_card, nofPrb_eq_card, nofPrb_eq_card, blocks_union hsize,
    Finset.card_union_of_disjoint (disjoint_blocks h n)]

theorem nofPrb_mono (h : ∀ i, m.test i = true → o.test i = true) (n : Nat) :
    m.nofPrb n ≤ o.nofPrb n := by
  rw [nofPrb_eq_card, nofPrb_eq_card]
  apply Finset.card_le_card
  intro b hb
  obtain ⟨hlt, hm⟩ := mem_blocks.mp hb
  exact mem_blocks.mpr ⟨hlt, h _ hm⟩

theorem test_of_isFull (h : m.isFull = true) (hsize : m.size ≤ 64) {i : Nat} (hi : i < m.size) :
    m.test i = true := by
  have hbits : m.bits = Bits.span 64 0 m.size := by simpa [isFull] using h
  rw [test, hbits, Bits.getLsbD_span]
  simp [hi, hi.trans_le hsize]

theorem nofPrb_of_isFull (h : m.isFull = true) (hm : m.size = nofRbgs n)
    (hsize : nofRbgs n ≤ 64) : m.nofPrb n = n := by
  have hall : m.blocks n = Finset.range n := by
    apply (blocks_subset n m).antisymm
    intro b hb
    have hlt := Finset.mem_range.mp hb
    exact mem_blocks.mpr ⟨hlt, test_of_isFull h (hm ▸ hsize) (hm ▸ group_lt hlt)⟩
  rw [nofPrb_eq_card, hall, Finset.card_range]

/-- Masks that share no group cover together no more than the carrier has. -/
theorem total_nofPrb_le {masks : List RbgMask}
    (h : masks.Pairwise fun a b ↦ a.overlaps b = false) (n : Nat) :
    total (masks.map (·.nofPrb n)) ≤ n := by
  have hall : ∀ b, b ∈ (Finset.range n).filter (fun b ↦ ∃ m ∈ masks, b ∈ m.blocks n) ↔
      ∃ m ∈ masks, b ∈ m.blocks n := by
    intro b
    rw [Finset.mem_filter, and_iff_right_iff_imp]
    rintro ⟨m, -, hb⟩
    exact blocks_subset n m hb
  have hcard := total_card_of_apart (h.imp fun {a b} hab ↦ disjoint_blocks hab n) hall
  simp only [← nofPrb_eq_card] at hcard
  rw [hcard]
  exact (Finset.card_filter_le _ _).trans (Finset.card_range n).le

/-! ## The groups picked -/

/-- `picked` are the `k` lowest numbers of `pool`, or all of them when there are fewer. -/
structure Lowest (k : Nat) (pool picked : Finset Nat) : Prop where
  subset : picked ⊆ pool
  card_eq : picked.card = min k pool.card
  mem_of_lt : ∀ i ∈ picked, ∀ j ∈ pool, j < i → j ∈ picked

theorem Lowest.eq {k : Nat} {pool a b : Finset Nat} (ha : Lowest k pool a)
    (hb : Lowest k pool b) : a = b := by
  have hcard : a.card = b.card := ha.card_eq.trans hb.card_eq.symm
  by_cases hsub : a ⊆ b
  · exact Finset.eq_of_subset_of_card_le hsub hcard.ge
  · obtain ⟨i, hi, hnot⟩ := Finset.not_subset.mp hsub
    -- every number of the other set is below `i`, or `i` would be in it
    have hback : b ⊆ a := fun j hj ↦ by
      rcases Nat.lt_trichotomy i j with hlt | rfl | hlt
      · exact (hnot (hb.mem_of_lt j hj i (ha.subset hi) hlt)).elim
      · exact hi
      · exact ha.mem_of_lt i hi j (hb.subset hj) hlt
    exact (Finset.eq_of_subset_of_card_le hback hcard.le).symm

/-- The groups of the carrier that the mask holds. -/
def groups (m : RbgMask) : Finset Nat := m.toList.toFinset

@[simp] theorem mem_groups {i : Nat} : i ∈ m.groups ↔ m.test i = true := by
  rw [groups, List.mem_toFinset, mem_toList]

theorem toFinset_free (m : RbgMask) : m.free.toFinset = Finset.range m.size \ m.groups := by
  ext i
  simp

theorem groups_pickFree (hsize : m.size ≤ 64) (k : Nat) :
    (m.pickFree k).groups = (m.free.take k).toFinset := by
  ext i
  have hlt : i ∈ m.free.take k → i < m.size := fun hi ↦ (mem_free.mp (List.mem_of_mem_take hi)).1
  rw [mem_groups, List.mem_toFinset, test, size_pickFree, bits_pickFree]
  simp only [Bool.and_eq_true, decide_eq_true_eq]
  exact ⟨fun h ↦ h.2.1, fun h ↦ ⟨hlt h, h, (hlt h).trans_le hsize⟩⟩

theorem lowest_pickFree (hsize : m.size ≤ 64) (k : Nat) :
    Lowest k (Finset.range m.size \ m.groups) (m.pickFree k).groups := by
  have hsorted : m.free.Pairwise (· < ·) := List.pairwise_lt_range.filter _
  have hnodup : m.free.Nodup := hsorted.imp Nat.ne_of_lt
  rw [groups_pickFree hsize, ← toFinset_free]
  refine ⟨fun i hi ↦ ?_, ?_, fun i hi j hj hlt ↦ ?_⟩
  · exact List.mem_toFinset.mpr (List.mem_of_mem_take (List.mem_toFinset.mp hi))
  · rw [List.toFinset_card_of_nodup (hnodup.sublist (List.take_sublist k _)),
      List.toFinset_card_of_nodup hnodup, List.length_take]
  · -- a free group left out is above every one taken
    rw [← List.take_append_drop k m.free] at hsorted
    have hmem := List.mem_toFinset.mp hj
    rw [← List.take_append_drop k m.free] at hmem
    rcases List.mem_append.mp hmem with hmem | hmem
    · exact List.mem_toFinset.mpr hmem
    · have habove := (List.pairwise_append.mp hsorted).2.2 i (List.mem_toFinset.mp hi) j hmem
      exact absurd hlt habove.asymm

/-- A mask of a carrier is determined by its groups. -/
theorem OfCarrier.eq_of_groups {size : Nat} (hm : m.OfCarrier size) (ho : o.OfCarrier size)
    (h : m.groups = o.groups) : m = o := by
  have hbit {a : RbgMask} (ha : a.OfCarrier size) (i : Nat) : a.bits.getLsbD i = a.test i := by
    cases hi : a.bits.getLsbD i with
    | false => rw [test, hi, Bool.and_false]
    | true => rw [test, hi, decide_eq_true (ha.size_eq ▸ ha.lt_of_bit i hi), Bool.and_self]
  have hsize : m.size = o.size := hm.size_eq.trans ho.size_eq.symm
  have hbits : m.bits = o.bits := by
    apply BitVec.eq_of_getLsbD_eq
    intro i _
    rw [hbit hm, hbit ho, Bool.eq_iff_iff, ← mem_groups, h, mem_groups]
  cases m
  cases o
  cases hsize
  cases hbits
  rfl

theorem pickFree_eq_iff {size : Nat} (hm : m.size = size) (hsize : size ≤ 64) (k : Nat) :
    m.pickFree k = o ↔
      o.OfCarrier size ∧ Lowest k (Finset.range size \ m.groups) o.groups := by
  subst hm
  constructor
  · rintro rfl
    exact ⟨ofCarrier_pickFree rfl k, lowest_pickFree hsize k⟩
  · rintro ⟨ho, hlowest⟩
    exact (ofCarrier_pickFree rfl k).eq_of_groups ho ((lowest_pickFree hsize k).eq hlowest)

/-! ## The laws together -/

/-- What masks of a carrier of `n` blocks report and pick: blocks are counted, so the count is
additive over masks that share no group, the bandwidth for the full mask, and monotone; the
lowest free groups are picked, as many as asked for or all there are, and nothing else. -/
structure Measured (n : Nat) : Prop where
  card : ∀ m : RbgMask, m.nofPrb n = (m.blocks n).card
  union : ∀ m o : RbgMask, m.size = nofRbgs n → o.size = nofRbgs n → m.overlaps o = false →
    (m.union o).nofPrb n = m.nofPrb n + o.nofPrb n
  full : ∀ m : RbgMask, m.size = nofRbgs n → m.isFull = true → m.nofPrb n = n
  mono : ∀ m o : RbgMask, m.size = nofRbgs n → o.size = nofRbgs n →
    (∀ i, m.test i = true → o.test i = true) → m.nofPrb n ≤ o.nofPrb n
  pick : ∀ m : RbgMask, m.size = nofRbgs n → ∀ k o, m.pickFree k = o ↔
    o.OfCarrier (nofRbgs n) ∧ Lowest k (Finset.range (nofRbgs n) \ m.groups) o.groups
  pick_apart : ∀ m : RbgMask, m.size = nofRbgs n → ∀ k, m.overlaps (m.pickFree k) = false

theorem measured (hsize : nofRbgs n ≤ 64) : Measured n where
  card := nofPrb_eq_card n
  union := fun _ _ hm ho hmo ↦ nofPrb_union (hm.trans ho.symm) hmo n
  full := fun _ hm hfull ↦ nofPrb_of_isFull hfull hm hsize
  mono := fun _ _ _ _ hsub ↦ nofPrb_mono hsub n
  pick := fun _ hm k _ ↦ pickFree_eq_iff hm hsize k
  pick_apart := fun m _ k ↦ m.overlaps_pickFree k

end RbgMask

end MacScheduler
