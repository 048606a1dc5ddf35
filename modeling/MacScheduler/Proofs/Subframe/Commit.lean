import MacScheduler.Proofs.Subframe.Exclusive
import MacScheduler.Proofs.Terminal.Commit
import MacScheduler.Proofs.Terminal.Roster
import MacScheduler.Subframe.Pass

/-!
# Committing a plan

The grants of a pass are some of the entries of its plan, in the same order and
on the same resources.  Two grants of one pass therefore never clash.
-/

namespace MacScheduler

namespace SubframeResult

theorem rbgClash?_eq_none {t : Tti} {grants : List DlGrant}
    (h : grants.Pairwise fun a b ↦ a.mask.overlaps b.mask = false) : rbgClash? t grants = none := by
  induction grants with
  | nil => rfl
  | cons g grants ih =>
      obtain ⟨hg, hrest⟩ := List.pairwise_cons.mp h
      have hfind : (grants.find? fun b ↦ g.mask.overlaps b.mask) = none :=
        List.find?_eq_none.mpr fun b hb ↦ by simp [hg b hb]
      rw [rbgClash?, hfind]
      exact ih hrest

theorem prbClash?_eq_none {t : Tti} {grants : List UlGrant}
    (h : grants.Pairwise fun a b ↦ a.interval.overlaps b.interval = false) :
    prbClash? t grants = none := by
  induction grants with
  | nil => rfl
  | cons g grants ih =>
      obtain ⟨hg, hrest⟩ := List.pairwise_cons.mp h
      have hfind : (grants.find? fun b ↦ g.interval.overlaps b.interval) = none :=
        List.find?_eq_none.mpr fun b hb ↦ by simp [hg b hb]
      rw [prbClash?, hfind]
      exact ih hrest

end SubframeResult

namespace CarrierPass

/-! ## One entry -/

section Step

variable (tx : Tti) (carrier : Nat) {roster : Roster} {t t' : Terminal}

theorem commitDownlink_cons_none {p : DlPlan} (hget : roster.get? p.rnti = none)
    (region : ControlRegion) (plans : List DlPlan) :
    commitDownlink tx carrier roster region (p :: plans) =
      commitDownlink tx carrier roster region plans := by
  rw [commitDownlink, hget]

theorem commitDownlink_cons_error {p : DlPlan} (hget : roster.get? p.rnti = some t)
    {e : GrantError} (hgrant : t.grantDownlink tx carrier p.pid p.mask p.dci = (.error e, t'))
    (region : ControlRegion) (plans : List DlPlan) :
    commitDownlink tx carrier roster region (p :: plans) =
      commitDownlink tx carrier (roster.update t') (region.rollback p.rnti .downlink).2 plans := by
  rw [commitDownlink, hget]
  dsimp only
  rw [hgrant]

theorem commitDownlink_cons_ok {p : DlPlan} (hget : roster.get? p.rnti = some t) {g : DlGrant}
    (hgrant : t.grantDownlink tx carrier p.pid p.mask p.dci = (.ok g, t'))
    (region : ControlRegion) (plans : List DlPlan) :
    commitDownlink tx carrier roster region (p :: plans) =
      (g :: (commitDownlink tx carrier (roster.update t') region plans).1,
        (commitDownlink tx carrier (roster.update t') region plans).2) := by
  rw [commitDownlink, hget]
  dsimp only
  rw [hgrant]

theorem commitUplink_cons_none {p : UlPlan} (hget : roster.get? p.rnti = none)
    (region : ControlRegion) (plans : List UlPlan) :
    commitUplink tx carrier roster region (p :: plans) =
      commitUplink tx carrier roster region plans := by
  rw [commitUplink, hget]

theorem commitUplink_cons_error {p : UlPlan} (hget : roster.get? p.rnti = some t)
    {e : GrantError} (hgrant : t.grantUplink tx carrier p.pid p.interval p.dci = (.error e, t'))
    (region : ControlRegion) (plans : List UlPlan) :
    commitUplink tx carrier roster region (p :: plans) =
      commitUplink tx carrier (roster.update t')
        (if p.dci.isSome then (region.rollback p.rnti .uplink).2 else region) plans := by
  rw [commitUplink, hget]
  dsimp only
  rw [hgrant]

theorem commitUplink_cons_ok {p : UlPlan} (hget : roster.get? p.rnti = some t) {g : UlGrant}
    (hgrant : t.grantUplink tx carrier p.pid p.interval p.dci = (.ok g, t'))
    (region : ControlRegion) (plans : List UlPlan) :
    commitUplink tx carrier roster region (p :: plans) =
      (g :: (commitUplink tx carrier (roster.update t') region plans).1,
        (commitUplink tx carrier (roster.update t') region plans).2) := by
  rw [commitUplink, hget]
  dsimp only
  rw [hgrant]

end Step

/-! ## The grants of a pass -/

theorem masks_commitDownlink (tx : Tti) (carrier : Nat) (roster : Roster) (region : ControlRegion)
    (plans : List DlPlan) :
    ((commitDownlink tx carrier roster region plans).1.map (·.mask)).Sublist
      (plans.map (·.mask)) := by
  induction plans generalizing roster region with
  | nil => exact .slnil
  | cons p plans ih =>
      cases hget : roster.get? p.rnti with
      | none =>
          rw [commitDownlink_cons_none tx carrier hget]
          exact (ih roster region).cons _
      | some t =>
          have hanswer := (t.grantDownlink_spec tx carrier p.pid p.mask p.dci).answer.2
          rcases hgrant : t.grantDownlink tx carrier p.pid p.mask p.dci with ⟨e | g, t'⟩
          · rw [commitDownlink_cons_error tx carrier hget hgrant]
            exact (ih _ _).cons _
          · rw [commitDownlink_cons_ok tx carrier hget hgrant, List.map_cons, List.map_cons,
              (hanswer g (by rw [hgrant])).mask]
            exact (ih _ _).cons_cons _

theorem intervals_commitUplink (tx : Tti) (carrier : Nat) (roster : Roster)
    (region : ControlRegion) (plans : List UlPlan) :
    ((commitUplink tx carrier roster region plans).1.map (·.interval)).Sublist
      (plans.map (·.interval)) := by
  induction plans generalizing roster region with
  | nil => exact .slnil
  | cons p plans ih =>
      cases hget : roster.get? p.rnti with
      | none =>
          rw [commitUplink_cons_none tx carrier hget]
          exact (ih roster region).cons _
      | some t =>
          have hanswer := (t.grantUplink_spec tx carrier p.pid p.interval p.dci).answer.2
          rcases hgrant : t.grantUplink tx carrier p.pid p.interval p.dci with ⟨e | g, t'⟩
          · rw [commitUplink_cons_error tx carrier hget hgrant]
            exact (ih _ _).cons _
          · rw [commitUplink_cons_ok tx carrier hget hgrant, List.map_cons, List.map_cons,
              (hanswer g (by rw [hgrant])).interval]
            exact (ih _ _).cons_cons _

variable (c : CarrierPass) (order : Direction → List Candidate → List Candidate) (now : Tti)
  (elapsed : Nat) (roster : Roster) (pools : PucchPools)

def observed : List Snapshot × Roster × PucchPools := observe now c.params.index pools roster

def planOf : SubframePlan :=
  .make c.params order (c.observed now roster pools).1

def downlinkOf : List DlGrant × Roster × ControlRegion :=
  commitDownlink now.downlinkTx c.params.index (c.observed now roster pools).2.1
    (c.planOf order now roster pools).region (c.planOf order now roster pools).dl

def uplinkOf : List UlGrant × Roster × ControlRegion :=
  commitUplink now.uplinkTx c.params.index (c.downlinkOf order now roster pools).2.1
    (c.downlinkOf order now roster pools).2.2 (c.planOf order now roster pools).ul

/-- The parts of a pass that stay when its bytes and times are left out. -/
theorem schedule_parts :
    (c.schedule order now elapsed roster pools).1.rxTti = now ∧
      (c.schedule order now elapsed roster pools).1.dl =
        (c.downlinkOf order now roster pools).1 ∧
      (c.schedule order now elapsed roster pools).1.ul = (c.uplinkOf order now roster pools).1 ∧
      (c.schedule order now elapsed roster pools).1.dcis =
        (c.uplinkOf order now roster pools).2.2.allocs ∧
      (c.schedule order now elapsed roster pools).2.2 =
        ((c.uplinkOf order now roster pools).2.1, (c.observed now roster pools).2.2) :=
  ⟨rfl, rfl, rfl, rfl, rfl⟩

/-- The band is one that cells may have, and what the terminals ask for at `now` ends within
the counts. -/
structure Counted (c : CarrierPass) (now : Tti) (roster : Roster) (pools : PucchPools) : Prop where
  nofPrb_le : c.params.nofPrb ≤ 128
  snapshots : ∀ s ∈ (c.observed now roster pools).1, s.Counted

theorem schedule_clash?_eq_none (h : c.Counted now roster pools) :
    (c.schedule order now elapsed roster pools).1.clash? = none := by
  obtain ⟨-, hdl, hul, -⟩ := c.schedule_parts order now elapsed roster pools
  have hmasks := (SubframePlan.make_dl_partition order (c.observed now roster pools).1
    h.nofPrb_le).disjoint
  have hintervals := (List.pairwise_append.mp
    (SubframePlan.make_ul_partition order (c.observed now roster pools).1 h.nofPrb_le
      h.snapshots).disjoint).2.1
  have hdlPairs : (c.downlinkOf order now roster pools).1.Pairwise
      fun a b ↦ a.mask.overlaps b.mask = false :=
    List.pairwise_map.mp (hmasks.sublist (masks_commitDownlink _ _ _ _ _))
  have hulPairs : (c.uplinkOf order now roster pools).1.Pairwise
      fun a b ↦ a.interval.overlaps b.interval = false :=
    List.pairwise_map.mp (hintervals.sublist (intervals_commitUplink _ _ _ _ _))
  rw [SubframeResult.clash?, hdl, hul, SubframeResult.rbgClash?_eq_none hdlPairs,
    SubframeResult.prbClash?_eq_none hulPairs]
  rfl

/-! ## Running a pass -/

/-- The pass of `now` is still to run: its result is not kept, and the clock is before it. -/
structure Admits (c : CarrierPass) (now : Tti) : Prop where
  result : ∀ r, c.result = some r → r.rxTti ≠ now
  last : ∀ last, c.lastTti = some last → now.isAfter last = true

theorem admits_iff : c.Admits now ↔
    c.result.filter (fun r ↦ decide (r.rxTti = now)) = none ∧
      c.lastTti.filter (fun last ↦ !now.isAfter last) = none := by
  constructor
  · intro h
    constructor
    · cases hr : c.result with
      | none => rfl
      | some r => simp [h.result r hr]
    · cases hl : c.lastTti with
      | none => rfl
      | some last => simp [h.last last hl]
  · rintro ⟨hresult, hlast⟩
    refine ⟨fun r hr ↦ ?_, fun last hl ↦ ?_⟩
    · simpa [hr] using hresult
    · simpa [hl] using hlast

instance : Decidable (c.Admits now) := decidable_of_iff' _ (admits_iff c now)

theorem run_of_admits (h : c.Admits now) (hcounted : c.Counted now roster pools) :
    c.run order now elapsed roster pools =
      ((c.schedule order now elapsed roster pools).1.inTime,
        ⟨{ c with
            lastTti := some now
            result := some (c.schedule order now elapsed roster pools).1 },
          (c.schedule order now elapsed roster pools).2.2.1,
          (c.schedule order now elapsed roster pools).2.2.2,
          some (c.schedule order now elapsed roster pools).2.1⟩) := by
  obtain ⟨hresult, hlast⟩ := (admits_iff c now).mp h
  have hclash := c.schedule_clash?_eq_none order now elapsed roster pools hcounted
  unfold run
  rw [hresult, hlast]
  dsimp only
  rw [hclash]

/-- A pull that runs no pass changes nothing. -/
theorem run_of_not_admits (h : ¬c.Admits now) :
    (c.run order now elapsed roster pools).2 = ⟨c, roster, pools, none⟩ := by
  unfold run
  cases hresult : c.result.filter (fun r ↦ decide (r.rxTti = now)) with
  | some r => rfl
  | none =>
      cases hlast : c.lastTti.filter (fun last ↦ !now.isAfter last) with
      | some last => rfl
      | none => exact absurd ((admits_iff c now).mpr ⟨hresult, hlast⟩) h

end CarrierPass

end MacScheduler
