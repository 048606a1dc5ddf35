import Mathlib.Order.Bounds.Basic
import MacScheduler.Proofs.Config.Check
import MacScheduler.Proofs.Grid.Rbg
import MacScheduler.Proofs.Terminal.Adaptation

/-!
# The fewest units and the lowest scheme

A block is sized by the lowest scheme that holds the request.  The units for a request
are found by halving a range, which is right because resources that suffice still
suffice when more are added: a scheme that holds the request holds it on more blocks.
Groups are turned into resource blocks by a product that is cut to the bandwidth; beyond
a count it has wrapped around before, and more groups may stand for fewer blocks or none.
-/

namespace MacScheduler

/-- `n` is the least number from `lo` to `hi` that passes, or `hi` when none does. -/
def FirstOr (test : Nat → Prop) (lo hi n : Nat) : Prop :=
  IsLeast {k | lo ≤ k ∧ k ≤ hi ∧ test k} n ∨ n = hi ∧ ∀ k, lo ≤ k → k ≤ hi → ¬test k

namespace FirstOr

variable {test : Nat → Prop} {lo hi n : Nat}

/-- What fails below `n` and passes at it, unless `n` is the end, is found first. -/
theorem of_below (hlo : lo ≤ n) (hhi : n ≤ hi) (hbelow : ∀ k, lo ≤ k → k < n → ¬test k)
    (hn : n = hi ∨ test n) : FirstOr test lo hi n := by
  by_cases htest : test n
  · refine .inl ⟨⟨hlo, hhi, htest⟩, ?_⟩
    rintro k ⟨hk, -, hpass⟩
    exact Nat.le_of_not_lt fun hlt ↦ hbelow k hk hlt hpass
  · obtain rfl := hn.resolve_right htest
    refine .inr ⟨rfl, fun k hk hkn ↦ ?_⟩
    rcases Nat.lt_or_eq_of_le hkn with hlt | rfl
    · exact hbelow k hk hlt
    · exact htest

theorem congr {test' : Nat → Prop} (h : FirstOr test lo hi n) (hiff : ∀ k, test k ↔ test' k) :
    FirstOr test' lo hi n := by
  have heq : test = test' := funext fun k ↦ propext (hiff k)
  rwa [← heq]

/-- The number found passes as soon as any number of the range does. -/
theorem holds_iff (h : FirstOr test lo hi n) (hle : lo ≤ hi) :
    test n ↔ ∃ k, lo ≤ k ∧ k ≤ hi ∧ test k := by
  rcases h with ⟨hmem, -⟩ | ⟨rfl, hnone⟩
  · exact ⟨fun _ ↦ ⟨n, hmem⟩, fun _ ↦ hmem.2.2⟩
  · refine ⟨fun htest ↦ absurd htest (hnone n hle (Nat.le_refl n)), ?_⟩
    rintro ⟨k, hk, hkn, htest⟩
    exact absurd htest (hnone k hk hkn)

end FirstOr

/-! ## The two searches -/

theorem find?_range_firstOr (test : Nat → Bool) (cap : Nat) :
    FirstOr (fun k ↦ test k = true) 0 cap
      (((List.range (cap + 1)).find? test).getD cap) := by
  cases hfind : (List.range (cap + 1)).find? test with
  | none =>
      have hnone := List.find?_eq_none.mp hfind
      exact .inr ⟨rfl, fun k _ hk ↦ hnone k (List.mem_range.mpr (Nat.lt_succ_of_le hk))⟩
  | some n =>
      obtain ⟨hn, hmem, hbelow⟩ := List.find?_range_eq_some.mp hfind
      have hle : n ≤ cap := Nat.le_of_lt_succ (List.mem_range.mp hmem)
      refine .of_below (Nat.zero_le n) hle (fun k _ hk ↦ ?_) (.inr hn)
      exact (Bool.not_eq_true' _).mp (hbelow k hk) ▸ Bool.false_ne_true

theorem tbsBytes_mono (mcs : Nat) {m n : Nat} (h : m ≤ n) (dir : Direction) :
    tbsBytes mcs m dir ≤ tbsBytes mcs n dir := by
  refine Nat.div_le_div_right (Nat.le_min.mpr ⟨?_, Nat.min_le_right _ _⟩)
  exact Nat.le_trans (Nat.min_le_left _ _) (Nat.mul_le_mul_left _ h)

theorem tbsBytes_zero (mcs : Nat) (dir : Direction) : tbsBytes mcs 0 dir = 0 := by
  rw [tbsBytes, Nat.mul_zero, Nat.zero_min, Nat.zero_div]

/-- A share of the bytes fits into each of `n` blocks when the blocks together hold all. -/
theorem ceilDiv_le_iff {bytes n tbs : Nat} (h : 0 < n) :
    (bytes + n - 1) / n ≤ tbs ↔ bytes ≤ tbs * n := by
  rw [Nat.div_le_iff_le_mul_add_pred h, Nat.mul_comm]
  omega

namespace Link

variable (l : Link)

/-- The highest scheme that the link may use. -/
def topMcs (dir : Direction) : Nat := min (l.maxMcs dir) MacScheduler.maxMcs

theorem nofLayers_downlink : l.nofLayers .downlink = 1 ∨ l.nofLayers .downlink = 2 := by
  change (if l.fresh? l.dlRi = some 2 then 2 else 1) = 1 ∨ _
  split
  · exact .inr (if_pos ‹_›)
  · exact .inl rfl

theorem nofLayers_pos (dir : Direction) : 0 < l.nofLayers dir := by
  cases dir with
  | downlink =>
      rcases l.nofLayers_downlink with hone | htwo
      · exact hone.symm ▸ Nat.one_pos
      · exact htwo.symm ▸ Nat.two_pos
  | uplink => exact Nat.one_pos

/-- Bytes that the blocks sent at once hold with a scheme on `nofPrb` resource blocks. -/
def capacity (mcs nofPrb : Nat) (dir : Direction) : Nat :=
  tbsBytes mcs nofPrb dir * l.nofLayers dir

theorem capacity_mono (mcs : Nat) {m n : Nat} (h : m ≤ n) (dir : Direction) :
    l.capacity mcs m dir ≤ l.capacity mcs n dir :=
  Nat.mul_le_mul_right _ (tbsBytes_mono mcs h dir)

variable {l} {nofPrb bytes : Nat} {dir : Direction}

theorem sizeForPrbs_total (hprb : 0 < nofPrb) (hbytes : 0 < bytes) :
    (l.sizeForPrbs nofPrb bytes dir).total =
      l.capacity (l.sizeForPrbs nofPrb bytes dir).mcs nofPrb dir := by
  rw [sizeForPrbs, if_neg (by omega)]
  rfl

/-- The scheme is the lowest allowed one that holds the request, or the highest one. -/
theorem mcs_sizeForPrbs_firstOr (hprb : 0 < nofPrb) (hbytes : 0 < bytes) :
    FirstOr (fun mcs ↦ bytes ≤ l.capacity mcs nofPrb dir) 0 (l.topMcs dir)
      (l.sizeForPrbs nofPrb bytes dir).mcs := by
  rw [sizeForPrbs, if_neg (by omega)]
  refine (find?_range_firstOr _ (l.topMcs dir)).congr fun mcs ↦ ?_
  rw [decide_eq_true_iff]
  exact ceilDiv_le_iff (l.nofLayers_pos dir)

/-- The blocks hold the request when some allowed scheme does. -/
theorem le_total_sizeForPrbs_iff (hbytes : 0 < bytes) :
    bytes ≤ (l.sizeForPrbs nofPrb bytes dir).total ↔
      ∃ mcs, mcs ≤ l.topMcs dir ∧ bytes ≤ l.capacity mcs nofPrb dir := by
  rcases Nat.eq_zero_or_pos nofPrb with rfl | hprb
  · refine iff_of_false ?_ ?_
    · rw [sizeForPrbs, if_pos (.inl rfl)]
      exact Nat.not_le_of_lt hbytes
    · rintro ⟨mcs, -, hle⟩
      rw [capacity, tbsBytes_zero, Nat.zero_mul] at hle
      exact Nat.not_le_of_lt hbytes hle
  · rw [sizeForPrbs_total hprb hbytes,
      (mcs_sizeForPrbs_firstOr hprb hbytes).holds_iff (Nat.zero_le _)]
    exact exists_congr fun mcs ↦ and_iff_right (Nat.zero_le mcs)

/-- Resources that hold the request still hold it when there are more of them. -/
theorem sizeForPrbs_covers_mono {m n : Nat} (hbytes : 0 < bytes) (hmn : m ≤ n)
    (h : bytes ≤ (l.sizeForPrbs m bytes dir).total) :
    bytes ≤ (l.sizeForPrbs n bytes dir).total := by
  rw [le_total_sizeForPrbs_iff hbytes] at *
  obtain ⟨mcs, hmcs, hle⟩ := h
  exact ⟨mcs, hmcs, hle.trans (l.capacity_mono mcs hmn dir)⟩

variable (l)

/-- The product that turns units into resource blocks does not wrap around. -/
def CountsPrbs (units : Nat) : Direction → Prop
  | .downlink => units * l.params.rbgSize ≤ maxCount
  | .uplink => True

theorem CountsPrbs.of_le {l : Link} {m n : Nat} {dir : Direction} (h : m ≤ n)
    (hn : l.CountsPrbs n dir) : l.CountsPrbs m dir := by
  cases dir with
  | downlink => exact (Nat.mul_le_mul_right _ h).trans hn
  | uplink => trivial

theorem tbsBytes_min (mcs nofPrb : Nat) (dir : Direction) :
    tbsBytes (min mcs MacScheduler.maxMcs) nofPrb dir = tbsBytes mcs nofPrb dir := by
  have hitbs : mcsToItbs (min mcs MacScheduler.maxMcs) dir = mcsToItbs mcs dir := by
    simp only [mcsToItbs, Nat.min_assoc, Nat.min_self]
  rw [tbsBytes, tbsBytes, hitbs]

theorem two_le_tbsBytes (mcs : Nat) {nofPrb : Nat} (h : 0 < nofPrb) :
    2 ≤ tbsBytes mcs nofPrb .downlink := by
  have htable : ∀ m ≤ 28, 2 ≤ tbsBytes m 1 .downlink := by decide
  refine Nat.le_trans ?_ (tbsBytes_mono mcs h .downlink)
  rw [← tbsBytes_min]
  exact htable _ (Nat.min_le_right _ _)

/-- Two resource blocks have room for more than a subheader. -/
theorem subheader_lt_tbsBytes (mcs : Nat) {nofPrb : Nat} (h : 1 < nofPrb) :
    rlcSubheader < tbsBytes mcs nofPrb .downlink := by
  have htable : ∀ m ≤ 28, rlcSubheader < tbsBytes m 2 .downlink := by decide
  refine Nat.lt_of_lt_of_le ?_ (tbsBytes_mono mcs h .downlink)
  rw [← tbsBytes_min]
  exact htable _ (Nat.min_le_right _ _)

theorem subheader_lt_tbsBytes_one_iff (mcs : Nat) :
    rlcSubheader < tbsBytes mcs 1 .downlink ↔ 1 < mcs := by
  have htable : ∀ m ≤ 28, rlcSubheader < tbsBytes m 1 .downlink ↔ 1 < m := by decide
  have hmin : 1 < min mcs MacScheduler.maxMcs ↔ 1 < mcs :=
    Nat.lt_min.trans (and_iff_left (by decide))
  rw [← hmin, ← tbsBytes_min]
  exact htable _ (Nat.min_le_right _ _)

/-- Blocks have room for more than a subheader unless one alone is sent, with one of the two
lowest schemes and on a single resource block. -/
theorem subheader_lt_capacity_iff (mcs : Nat) {nofPrb : Nat} (h : 0 < nofPrb) :
    rlcSubheader < l.capacity mcs nofPrb .downlink ↔
      1 < nofPrb ∨ 1 < mcs ∨ l.nofLayers .downlink = 2 := by
  have hsub : rlcSubheader = 3 := rfl
  have htwo := two_le_tbsBytes mcs h
  rw [capacity]
  rcases l.nofLayers_downlink with hlayers | hlayers
  · rw [hlayers, Nat.mul_one]
    rcases Nat.lt_or_eq_of_le (Nat.succ_le_of_lt h) with hmore | rfl
    · exact iff_of_true (subheader_lt_tbsBytes mcs hmore) (.inl hmore)
    · rw [subheader_lt_tbsBytes_one_iff]
      omega
  · rw [hlayers]
    omega

variable {l}

/-- When more than a subheader waits, more than a subheader has room unless the blocks are the
smallest ones. -/
theorem subheader_lt_total_iff (hprb : 0 < nofPrb) (hbytes : rlcSubheader < bytes) :
    rlcSubheader < (l.sizeForPrbs nofPrb bytes .downlink).total ↔
      1 < nofPrb ∨ 1 < l.topMcs .downlink ∨ l.nofLayers .downlink = 2 := by
  have hpos : 0 < bytes := Nat.lt_of_le_of_lt (Nat.zero_le _) hbytes
  rw [sizeForPrbs_total hprb hpos]
  rcases mcs_sizeForPrbs_firstOr hprb hpos with ⟨⟨-, hle, hcovers⟩, -⟩ | ⟨heq, -⟩
  · -- the scheme chosen holds the request, and the highest one is no lower
    have hroom := hbytes.trans_le hcovers
    have hsmall := (l.subheader_lt_capacity_iff _ hprb).mp hroom
    refine iff_of_true hroom (hsmall.imp_right (Or.imp_left fun hlt ↦ ?_))
    exact hlt.trans_le hle
  · rw [heq]
    exact l.subheader_lt_capacity_iff _ hprb

theorem two_le_total (hprb : 0 < nofPrb) (hbytes : 0 < bytes) :
    2 ≤ (l.sizeForPrbs nofPrb bytes .downlink).total := by
  rw [sizeForPrbs_total hprb hbytes]
  exact (two_le_tbsBytes _ hprb).trans (Nat.le_mul_of_pos_right _ (l.nofLayers_pos .downlink))

end Link

theorem CellConfig.nofPrb_pos {c : CellConfig} (h : c.violations = []) : 0 < c.nofPrb := by
  have hbandwidths : ∀ n ∈ bandwidths, 0 < n := by decide
  exact hbandwidths _ (nofPrb_mem_bandwidths h)

end MacScheduler
