import MacScheduler.Terminal.Link

/-!
# What link adaptation may choose

Whatever was reported about the channel, the scheme of a fresh block lies within
the cap of its link and direction, and the aggregation level within the cap of
the link.  On any resources at all a block has room for a byte.
-/

namespace MacScheduler

theorem getD_find?_range_le {n cap : Nat} (h : n ≤ cap) (test : Nat → Bool) :
    ((List.range (n + 1)).find? test).getD cap ≤ cap := by
  cases hfind : (List.range (n + 1)).find? test with
  | none => exact Nat.le_refl cap
  | some k =>
      have hmem := List.mem_range.mp (List.mem_of_find?_eq_some hfind)
      rw [Option.getD_some]
      omega

theorem minMcsForBytes_le (bytes nofPrb cap : Nat) (dir : Direction) :
    minMcsForBytes bytes nofPrb cap dir ≤ cap :=
  Nat.le_trans (getD_find?_range_le (Nat.le_refl (min cap maxMcs)) _) (Nat.min_le_left cap maxMcs)

theorem aggrLevelForCqi_le (cqi bits cap : Nat) : aggrLevelForCqi cqi bits cap ≤ cap :=
  getD_find?_range_le (Nat.min_le_left cap 31) _

theorem mcsToItbs_lt (mcs : Nat) (dir : Direction) : mcsToItbs mcs dir < tbsPerPrbTable.length := by
  have hle : min mcs maxMcs ≤ 28 := Nat.min_le_right mcs maxMcs
  have hlen : tbsPerPrbTable.length = 27 := rfl
  cases dir <;> simp only [mcsToItbs] <;> split <;> (try split) <;> omega

theorem tbsBytes_pos (mcs : Nat) {nofPrb : Nat} (h : 0 < nofPrb) (dir : Direction) :
    0 < tbsBytes mcs nofPrb dir := by
  have htable : ∀ i < tbsPerPrbTable.length, 16 ≤ tbsPerPrbTable.getD i 0 := by decide
  have hbits := htable _ (mcsToItbs_lt mcs dir)
  have hprod := Nat.mul_le_mul hbits h
  have hmax : 8 ≤ maxTbsBits := by decide
  have hmin : 8 ≤ min (tbsPerPrbTable.getD (mcsToItbs mcs dir) 0 * nofPrb) maxTbsBits :=
    Nat.le_min.mpr ⟨by omega, hmax⟩
  exact Nat.div_pos hmin (by decide)

namespace Link

def mcsCap (l : Link) : Direction → Nat
  | .downlink => l.mcsCapDl
  | .uplink => l.mcsCapUl

variable (l : Link)

theorem maxMcs_le (dir : Direction) : l.maxMcs dir ≤ l.mcsCap dir := by
  cases dir <;> exact Nat.min_le_right _ _

theorem mcs_sizeForPrbs_le (nofPrb bytes : Nat) (dir : Direction) :
    (l.sizeForPrbs nofPrb bytes dir).mcs ≤ l.mcsCap dir := by
  unfold sizeForPrbs
  split
  · exact Nat.zero_le _
  · exact Nat.le_trans (minMcsForBytes_le _ _ _ dir) (l.maxMcs_le dir)

theorem tbs_sizeForPrbs_pos {nofPrb bytes : Nat} (hprb : 0 < nofPrb) (hbytes : 0 < bytes)
    (dir : Direction) : 0 < (l.sizeForPrbs nofPrb bytes dir).tbs := by
  rw [sizeForPrbs, if_neg (by omega)]
  exact tbsBytes_pos _ hprb dir

theorem nofTb_sizeForPrbs_le (nofPrb bytes : Nat) (dir : Direction) :
    (l.sizeForPrbs nofPrb bytes dir).nofTb ≤ 2 := by
  have hlayers : l.nofLayers dir ≤ 2 := by
    cases dir
    · change (if l.fresh? l.dlRi = some 2 then 2 else 1) ≤ 2
      split
      · exact Nat.le_refl 2
      · exact Nat.le_succ 1
    · exact Nat.le_succ 1
  unfold sizeForPrbs
  split
  · exact Nat.le_succ 1
  · exact hlayers

theorem aggrLevel_le : l.aggrLevel ≤ l.maxAggrLevel := by
  unfold aggrLevel
  split
  · exact aggrLevelForCqi_le _ _ _
  · exact Nat.le_refl _

end Link

end MacScheduler
