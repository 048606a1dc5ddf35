import MacScheduler.Proofs.Subframe.Settle

/-!
# Placing new data

New data is placed candidate by candidate.  A candidate is passed over, ends the
search or takes free resources together with a place for its grant message; the
three outcomes are the cases of every proof about the placed list.
-/

namespace MacScheduler

/-- The entry begins the new data that the snapshot asks for. -/
def DlPlan.Begins (s : Snapshot) (d : DlPlan) : Prop :=
  d.rnti = s.rnti ∧ ∃ q, s.dlNew = some q ∧ d.pid = q.pid

def UlPlan.Begins (s : Snapshot) (u : UlPlan) : Prop :=
  u.rnti = s.rnti ∧ ∃ q, s.ulNew = some q ∧ u.pid = q.pid

namespace SubframePlan

variable {snapshots : List Snapshot}

theorem of_snapshotOf? {rnti : Rnti} {s : Snapshot} (h : snapshotOf? rnti snapshots = some s) :
    s ∈ snapshots ∧ s.rnti = rnti := by
  induction snapshots with
  | nil => cases h
  | cons t snapshots ih =>
      rw [snapshotOf?, Option.or_eq_some_iff] at h
      rcases h with h | ⟨-, h⟩
      · exact ⟨List.mem_cons_of_mem t (ih h).1, (ih h).2⟩
      · split at h
        · rename_i ht
          cases h
          exact ⟨List.mem_cons_self, ht⟩
        · cases h

theorem of_wishOf? {dir : Direction} {c : Candidate} {s : Snapshot} {q : NewTxRequest}
    (h : wishOf? snapshots dir c = some (s, q)) :
    s ∈ snapshots ∧ s.rnti = c.rnti ∧ newRequest? s dir = some q := by
  obtain ⟨t, ht, h⟩ := Option.bind_eq_some_iff.mp h
  obtain ⟨q', hq, heq⟩ := Option.map_eq_some_iff.mp h
  cases heq
  exact ⟨(of_snapshotOf? ht).1, (of_snapshotOf? ht).2, hq⟩

/-- A message on a candidate that ends within the counts keeps the region consistent. -/
theorem consistent_place {region : ControlRegion} {s : Snapshot} {loc : DciLocation}
    (hr : region.Consistent) (hs : s.Counted)
    (hplace : region.place? s.aggrLevel s.candidates = some loc) (dir : Direction) :
    (region.place ⟨s.rnti, dir, loc⟩).Consistent := by
  obtain ⟨hfits, hlevel, hfirst⟩ := ControlRegion.of_place? hplace
  refine hr.place (fun hle ↦ ?_) hfits
  have hcounted := hs.candidates (hlevel ▸ hle) loc.first hfirst
  rwa [← hlevel] at hcounted

/-! ## Downlink -/

/-- The first downlink candidate finds no group free, is passed over, or takes groups and a
place for its message. -/
theorem placeDownlink_cases (snapshots : List Snapshot) (nofRbg : Nat) (rbgs : RbgMask)
    (region : ControlRegion) (c : Candidate) (cs : List Candidate) :
    (nofRbg - rbgs.count = 0 ∧
        placeDownlink snapshots nofRbg rbgs region (c :: cs) = ([], rbgs, region)) ∨
      ((∀ s q, wishOf? snapshots .downlink c = some (s, q) →
          region.place? s.aggrLevel s.candidates = none) ∧
        placeDownlink snapshots nofRbg rbgs region (c :: cs) =
          placeDownlink snapshots nofRbg rbgs region cs) ∨
      ∃ s q mask loc rest, nofRbg - rbgs.count ≠ 0 ∧
        wishOf? snapshots .downlink c = some (s, q) ∧
        mask = rbgs.pickFree (max 1 (min c.units (nofRbg - rbgs.count))) ∧
        region.place? s.aggrLevel s.candidates = some loc ∧
        rest = placeDownlink snapshots nofRbg (rbgs.union mask)
          (region.place ⟨s.rnti, .downlink, loc⟩) cs ∧
        placeDownlink snapshots nofRbg rbgs region (c :: cs) =
          (⟨s.rnti, q.pid, mask, loc⟩ :: rest.1, rest.2) := by
  rw [placeDownlink]
  by_cases hfree : nofRbg - rbgs.count = 0
  · exact .inl ⟨hfree, if_pos hfree⟩
  rw [if_neg hfree]
  right
  cases hwish : wishOf? snapshots .downlink c with
  | none => exact .inl ⟨by simp, rfl⟩
  | some wish =>
      obtain ⟨s, q⟩ := wish
      rcases region.alloc_cases s.rnti .downlink s.aggrLevel s.candidates with
        ⟨hplace, heq⟩ | ⟨loc, hplace, heq⟩
      · refine .inl ⟨?_, by simp only [heq]⟩
        intro s' q' h
        cases h
        exact hplace
      · exact .inr ⟨s, q, _, loc, _, hfree, rfl, rfl, hplace, rfl, by simp only [heq]⟩

theorem placeDownlink_begins {nofRbg : Nat} {rbgs : RbgMask} {region : ControlRegion}
    (cs : List Candidate) :
    ∀ d ∈ (placeDownlink snapshots nofRbg rbgs region cs).1, ∃ s ∈ snapshots, d.Begins s := by
  induction cs generalizing rbgs region with
  | nil => exact fun d hd ↦ by cases hd
  | cons c cs ih =>
      intro d hd
      rcases placeDownlink_cases snapshots nofRbg rbgs region c cs with
        ⟨-, heq⟩ | ⟨-, heq⟩ | ⟨s, q, mask, loc, rest, -, hwish, -, -, rfl, heq⟩ <;> rw [heq] at hd
      · cases hd
      · exact ih d hd
      · rcases List.mem_cons.mp hd with rfl | hd
        · exact ⟨s, (of_wishOf? hwish).1, rfl, q, (of_wishOf? hwish).2.2, rfl⟩
        · exact ih d hd

/-- What placing downlink candidates adds to the masks and messages before them. -/
structure DlPlacement (snapshots : List Snapshot) (kept : List RbgMask) (rbgs : RbgMask)
    (region : ControlRegion) (cs : List Candidate)
    (out : List DlPlan × RbgMask × ControlRegion) : Prop where
  partition : out.2.1.PartitionedBy (kept ++ out.1.map (·.mask))
  size_eq : out.2.1.size = rbgs.size
  consistent : region.Consistent → (∀ s ∈ snapshots, s.Counted) → out.2.2.Consistent
  region_size : out.2.2.size = region.size
  allocs : out.2.2.allocs = region.allocs ++ out.1.map DlPlan.message
  rntis : (out.1.map (·.rnti)).Sublist (cs.map (·.rnti))
  ofCarrier : ∀ d ∈ out.1, d.mask.OfCarrier rbgs.size

namespace DlPlacement

variable {kept : List RbgMask} {rbgs : RbgMask} {region : ControlRegion} {cs : List Candidate}
  {out : List DlPlan × RbgMask × ControlRegion}

theorem done (h : rbgs.PartitionedBy kept) (cs : List Candidate) :
    DlPlacement snapshots kept rbgs region cs ([], rbgs, region) where
  partition := by simpa using h
  size_eq := rfl
  consistent := fun hr _ ↦ hr
  region_size := rfl
  allocs := by simp
  rntis := by simp
  ofCarrier := by simp

theorem skip (c : Candidate) (h : DlPlacement snapshots kept rbgs region cs out) :
    DlPlacement snapshots kept rbgs region (c :: cs) out :=
  { h with rntis := h.rntis.trans (List.sublist_cons_self _ _) }

theorem take {c : Candidate} {s : Snapshot} {q : NewTxRequest} {mask : RbgMask}
    {dci : DciLocation} (hwish : wishOf? snapshots .downlink c = some (s, q))
    (hmask : mask.OfCarrier rbgs.size)
    (hplace : region.place? s.aggrLevel s.candidates = some dci)
    (h : DlPlacement snapshots (kept ++ [mask]) (rbgs.union mask)
      (region.place ⟨s.rnti, .downlink, dci⟩) cs out) :
    DlPlacement snapshots kept rbgs region (c :: cs)
      (⟨s.rnti, q.pid, mask, dci⟩ :: out.1, out.2) where
  partition := by simpa using h.partition
  size_eq := h.size_eq
  consistent := fun hr hcounted ↦
    h.consistent (consistent_place hr (hcounted s (of_wishOf? hwish).1) hplace _) hcounted
  region_size := h.region_size
  allocs := by
    rw [h.allocs]
    simp [DlPlan.message]
  rntis := by
    rw [List.map_cons, List.map_cons, (of_wishOf? hwish).2.1]
    exact h.rntis.cons_cons _
  ofCarrier := by
    intro d hd
    rcases List.mem_cons.mp hd with rfl | hd
    · exact hmask
    · exact h.ofCarrier d hd

end DlPlacement

theorem placeDownlink_placement {kept : List RbgMask} {rbgs : RbgMask} {region : ControlRegion}
    (nofRbg : Nat) (h : rbgs.PartitionedBy kept) (cs : List Candidate) :
    DlPlacement snapshots kept rbgs region cs
      (placeDownlink snapshots nofRbg rbgs region cs) := by
  induction cs generalizing kept rbgs region with
  | nil => exact .done h []
  | cons c cs ih =>
      rcases placeDownlink_cases snapshots nofRbg rbgs region c cs with
        ⟨-, heq⟩ | ⟨-, heq⟩ | ⟨s, q, mask, loc, rest, -, hwish, rfl, hplace, rfl, heq⟩ <;> rw [heq]
      · exact .done h _
      · exact (ih h).skip c
      · have hfits := rbgs.overlaps_pickFree (max 1 (min c.units (nofRbg - rbgs.count)))
        exact .take hwish (RbgMask.ofCarrier_pickFree rfl _) hplace (ih (h.union hfits))

/-- A candidate that is placed gets at least one group. -/
theorem placeDownlink_nonempty {nofRbg : Nat} (hnof : nofRbg ≤ 64) {rbgs : RbgMask}
    (hsize : rbgs.size = nofRbg) (region : ControlRegion) (cs : List Candidate) :
    ∀ d ∈ (placeDownlink snapshots nofRbg rbgs region cs).1, ∃ i, d.mask.test i = true := by
  induction cs generalizing rbgs region with
  | nil => exact fun d hd ↦ by cases hd
  | cons c cs ih =>
      intro d hd
      rcases placeDownlink_cases snapshots nofRbg rbgs region c cs with
        ⟨-, heq⟩ | ⟨-, heq⟩ | ⟨s, q, mask, loc, rest, hfree, -, rfl, -, rfl, heq⟩ <;> rw [heq] at hd
      · cases hd
      · exact ih hsize region d hd
      · rcases List.mem_cons.mp hd with rfl | hd
        · have hcount : rbgs.count < rbgs.size := by omega
          exact RbgMask.exists_test_pickFree (hsize ▸ hnof) hcount (by omega)
        · exact @ih (rbgs.union _) hsize _ d hd

/-! ## Uplink -/

/-- The first uplink candidate is passed over, finds no block free, or takes blocks and a
place for its message. -/
theorem placeUplink_cases (snapshots : List Snapshot) (prbs : PrbMap) (region : ControlRegion)
    (c : Candidate) (cs : List Candidate) :
    ((∀ s q, wishOf? snapshots .uplink c = some (s, q) →
          region.place? s.aggrLevel s.candidates = none) ∧
        placeUplink snapshots prbs region (c :: cs) = placeUplink snapshots prbs region cs) ∨
      (prbs.findUpTo (max c.units 1) = none ∧
        placeUplink snapshots prbs region (c :: cs) = ([], prbs, region)) ∨
      ∃ s q interval loc rest, wishOf? snapshots .uplink c = some (s, q) ∧
        prbs.findUpTo (max c.units 1) = some interval ∧
        region.place? s.aggrLevel s.candidates = some loc ∧
        rest = placeUplink snapshots (prbs.fill interval)
          (region.place ⟨s.rnti, .uplink, loc⟩) cs ∧
        placeUplink snapshots prbs region (c :: cs) =
          (⟨s.rnti, q.pid, interval, some loc⟩ :: rest.1, rest.2) := by
  rw [placeUplink]
  cases hwish : wishOf? snapshots .uplink c with
  | none => exact .inl ⟨by simp, rfl⟩
  | some wish =>
      obtain ⟨s, q⟩ := wish
      cases hfound : prbs.findUpTo (max c.units 1) with
      | none => exact .inr (.inl ⟨rfl, rfl⟩)
      | some interval =>
          rcases region.alloc_cases s.rnti .uplink s.aggrLevel s.candidates with
            ⟨hplace, heq⟩ | ⟨loc, hplace, heq⟩
          · refine .inl ⟨?_, by simp only [heq]⟩
            intro s' q' h
            cases h
            exact hplace
          · exact .inr (.inr ⟨s, q, interval, loc, _, rfl, rfl, hplace, rfl,
              by simp only [heq]⟩)

theorem placeUplink_begins {prbs : PrbMap} {region : ControlRegion} (cs : List Candidate) :
    ∀ u ∈ (placeUplink snapshots prbs region cs).1, ∃ s ∈ snapshots, u.Begins s := by
  induction cs generalizing prbs region with
  | nil => exact fun u hu ↦ by cases hu
  | cons c cs ih =>
      intro u hu
      rcases placeUplink_cases snapshots prbs region c cs with
        ⟨-, heq⟩ | ⟨-, heq⟩ | ⟨s, q, interval, loc, rest, hwish, -, -, rfl, heq⟩ <;> rw [heq] at hu
      · exact ih u hu
      · cases hu
      · rcases List.mem_cons.mp hu with rfl | hu
        · exact ⟨s, (of_wishOf? hwish).1, rfl, q, (of_wishOf? hwish).2.2, rfl⟩
        · exact ih u hu

/-- What placing uplink candidates adds to the intervals and messages before them. -/
structure UlPlacement (snapshots : List Snapshot) (kept : List PrbInterval) (prbs : PrbMap)
    (region : ControlRegion) (cs : List Candidate)
    (out : List UlPlan × PrbMap × ControlRegion) : Prop where
  covered : prbs.CoveredBy kept → out.2.1.CoveredBy (kept ++ out.1.map (·.interval))
  partition : prbs.PartitionedBy kept → out.2.1.PartitionedBy (kept ++ out.1.map (·.interval))
  size_eq : out.2.1.size = prbs.size
  consistent : region.Consistent → (∀ s ∈ snapshots, s.Counted) → out.2.2.Consistent
  region_size : out.2.2.size = region.size
  allocs : out.2.2.allocs = region.allocs ++ out.1.filterMap UlPlan.message?
  rntis : (out.1.map (·.rnti)).Sublist (cs.map (·.rnti))
  nonempty : ∀ u ∈ out.1, 0 < u.interval.len

namespace UlPlacement

variable {kept : List PrbInterval} {prbs : PrbMap} {region : ControlRegion} {cs : List Candidate}
  {out : List UlPlan × PrbMap × ControlRegion}

theorem done (cs : List Candidate) :
    UlPlacement snapshots kept prbs region cs ([], prbs, region) where
  covered := by simp
  partition := by simp
  size_eq := rfl
  consistent := fun hr _ ↦ hr
  region_size := rfl
  allocs := by simp
  rntis := by simp
  nonempty := by simp

theorem skip (c : Candidate) (h : UlPlacement snapshots kept prbs region cs out) :
    UlPlacement snapshots kept prbs region (c :: cs) out :=
  { h with rntis := h.rntis.trans (List.sublist_cons_self _ _) }

theorem take {c : Candidate} {s : Snapshot} {q : NewTxRequest} {interval : PrbInterval}
    {dci : DciLocation} (hwish : wishOf? snapshots .uplink c = some (s, q))
    (hpos : 0 < interval.len) (hfree : prbs.Free interval)
    (hplace : region.place? s.aggrLevel s.candidates = some dci)
    (h : UlPlacement snapshots (kept ++ [interval]) (prbs.fill interval)
      (region.place ⟨s.rnti, .uplink, dci⟩) cs out) :
    UlPlacement snapshots kept prbs region (c :: cs)
      (⟨s.rnti, q.pid, interval, some dci⟩ :: out.1, out.2) where
  covered := fun hkept ↦ by simpa using h.covered (hkept.fill interval)
  partition := fun hkept ↦ by simpa using h.partition (hkept.fill hfree)
  size_eq := h.size_eq
  consistent := fun hr hcounted ↦
    h.consistent (consistent_place hr (hcounted s (of_wishOf? hwish).1) hplace _) hcounted
  region_size := h.region_size
  allocs := by
    rw [h.allocs]
    simp [UlPlan.message?]
  rntis := by
    rw [List.map_cons, List.map_cons, (of_wishOf? hwish).2.1]
    exact h.rntis.cons_cons _
  nonempty := by
    intro u hu
    rcases List.mem_cons.mp hu with rfl | hu
    · exact hpos
    · exact h.nonempty u hu

end UlPlacement

theorem placeUplink_placement (kept : List PrbInterval) (prbs : PrbMap) (region : ControlRegion)
    (cs : List Candidate) :
    UlPlacement snapshots kept prbs region cs (placeUplink snapshots prbs region cs) := by
  induction cs generalizing kept prbs region with
  | nil => exact .done []
  | cons c cs ih =>
      rcases placeUplink_cases snapshots prbs region c cs with
        ⟨-, heq⟩ | ⟨-, heq⟩ | ⟨s, q, interval, loc, rest, hwish, hfound, hplace, rfl, heq⟩ <;>
        rw [heq]
      · exact (ih kept prbs region).skip c
      · exact .done _
      · obtain ⟨hpos, hfree⟩ := PrbMap.of_findUpTo hfound
        exact .take hwish hpos hfree hplace (ih _ _ _)

end SubframePlan

end MacScheduler
