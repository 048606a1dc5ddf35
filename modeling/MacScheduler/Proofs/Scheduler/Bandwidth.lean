import MacScheduler.Proofs.Grid.Coverage
import MacScheduler.Proofs.Scheduler.Backlog
import MacScheduler.Proofs.Terminal.Limits

/-!
# Bandwidth of downlink grants

Masks count the resource blocks of their carrier, so a plan, whose masks share no group,
never spends more blocks than the carrier has.  The grants of a pass take over the masks of
the plan and state the blocks that these cover, hence what they state together is within
the bandwidth as well.
-/

namespace MacScheduler

theorem Terminal.nofPrb_of_grantDownlink {t : Terminal} {tx : Tti} {carrier pid : Nat}
    {mask : RbgMask} {dci : DciLocation} {g : DlGrant}
    (hg : (t.grantDownlink tx carrier pid mask dci).1 = .ok g) :
    ∃ l, t.link? carrier = some l ∧ g.nofPrb = g.mask.nofPrb l.params.nofPrb := by
  unfold grantDownlink at hg
  cases hlink : t.link? carrier with
  | none =>
      rw [hlink] at hg
      cases hg
  | some l =>
      rw [hlink] at hg
      dsimp only at hg
      split at hg <;> split at hg <;> cases hg <;> exact ⟨l, rfl, rfl⟩

theorem SubframePlan.total_nofPrb_make_le {p : CellParams} (hp : p.nofPrb ≤ 128)
    (order : Direction → List Candidate → List Candidate) (snapshots : List Snapshot) :
    total ((make p order snapshots).dl.map (·.mask.nofPrb p.nofPrb)) ≤ p.nofPrb := by
  have hmasks := RbgMask.total_nofPrb_le (make_dl_partition order snapshots hp).disjoint p.nofPrb
  rwa [List.map_map] at hmasks

namespace CarrierPass

variable (c : CarrierPass) (order : Direction → List Candidate → List Candidate) (now : Tti)
  (elapsed : Nat) {roster : Roster} (pools : PucchPools) {cells : List CellParams}

theorem total_nofPrb_masks_le (hp : c.params.nofPrb ≤ 128) :
    total ((c.schedule order now elapsed roster pools).1.dl.map
      (·.mask.nofPrb c.params.nofPrb)) ≤ c.params.nofPrb := by
  obtain ⟨-, hdl, -⟩ := c.schedule_parts order now elapsed roster pools
  have hplan := (SubframePlan.make_dl_partition order (c.observed now roster pools).1 hp).disjoint
  have hgrants := RbgMask.total_nofPrb_le
    (hplan.sublist (masks_commitDownlink now.downlinkTx c.params.index
      (c.observed now roster pools).2.1 (c.planOf order now roster pools).region _)) c.params.nofPrb
  rw [List.map_map] at hgrants
  rw [hdl]
  exact hgrants

/-- The grants of a pass state the blocks that their masks cover. -/
theorem nofPrb_of_mem_schedule (hf : ∀ t ∈ roster, t.Formed cells)
    (hp : cells[c.params.index]? = some c.params) {g : DlGrant}
    (hg : g ∈ (c.schedule order now elapsed roster pools).1.dl) :
    g.nofPrb = g.mask.nofPrb c.params.nofPrb := by
  obtain ⟨-, hdl, -⟩ := c.schedule_parts order now elapsed roster pools
  rw [hdl, downlinkOf, (commitDownlink_eq _ _ _ _ _).1] at hg
  refine forall_mem_commitAll (P := (·.Formed cells))
    (Q := fun g ↦ g.nofPrb = g.mask.nofPrb c.params.nofPrb) (fun d t ht ↦ ?_)
    (fun d t g ht hgrant ↦ ?_) (c.formed_observed now pools hf) _ g hg
  · exact ht.of_lives (.of_changes (.grantDownlink t _ _ d.pid d.mask d.dci))
  · obtain ⟨l, hl, hcount⟩ := Terminal.nofPrb_of_grantDownlink hgrant
    have hparams : c.params = l.params := Option.some.inj (hp.symm.trans (ht.params_of_link? hl))
    rw [hcount, hparams]

theorem total_nofPrb_schedule_le (hf : ∀ t ∈ roster, t.Formed cells)
    (hp : cells[c.params.index]? = some c.params) (hprb : c.params.nofPrb ≤ 128) :
    total ((c.schedule order now elapsed roster pools).1.dl.map (·.nofPrb)) ≤ c.params.nofPrb := by
  have hsame : (c.schedule order now elapsed roster pools).1.dl.map (·.nofPrb) =
      (c.schedule order now elapsed roster pools).1.dl.map (·.mask.nofPrb c.params.nofPrb) :=
    List.map_congr_left fun _ hg ↦ c.nofPrb_of_mem_schedule order now elapsed pools hf hp hg
  rw [hsame]
  exact c.total_nofPrb_masks_le order now elapsed pools hprb

end CarrierPass

namespace Scheduler

/-- In every reachable state the downlink grants of a pass state no more blocks than the
carrier has. -/
theorem Reachable.total_nofPrb_le {s : Scheduler} (h : s.Reachable) {cells : CellSet}
    (hcells : s.cells = some cells) {carrier : Nat} {pass : CarrierPass}
    (hpass : cells.passes[carrier]? = some pass)
    (order : Direction → List Candidate → List Candidate) (now : Tti) (elapsed : Nat) :
    total ((pass.schedule order now elapsed s.terminals cells.pools).1.dl.map (·.nofPrb)) ≤
      pass.params.nofPrb := by
  have hparams : cells.params[pass.params.index]? = some pass.params := by
    rw [((h.configured.cells cells hcells).pass hpass).2.2, CellSet.params, List.getElem?_map,
      hpass, Option.map_some]
  exact pass.total_nofPrb_schedule_le order now elapsed cells.pools
    (h.attached.formed_of_cells hcells) hparams (h.configured.nofPrb_le hcells hpass)

/-- On every supported bandwidth masks count the blocks in their groups and pick the lowest free
groups.  So the masks of any plan cover at most the bandwidth together, those of the grants that
a pass makes for its plan do as well, and what the grants state in a reachable state is no
more. -/
theorem masks_measure_bandwidth {n : Nat} (hn : n ∈ bandwidths) :
    RbgMask.Measured n ∧
      (∀ p : CellParams, p.nofPrb = n → ∀ order snapshots,
        total ((SubframePlan.make p order snapshots).dl.map (·.mask.nofPrb n)) ≤ n) ∧
      (∀ c : CarrierPass, c.params.nofPrb = n → ∀ order now elapsed roster pools,
        total ((c.schedule order now elapsed roster pools).1.dl.map (·.mask.nofPrb n)) ≤ n) ∧
      ∀ s : Scheduler, s.Reachable → ∀ cells, s.cells = some cells →
        ∀ (carrier : Nat) (pass : CarrierPass), cells.passes[carrier]? = some pass →
          pass.params.nofPrb = n → ∀ order now elapsed,
            total ((pass.schedule order now elapsed s.terminals cells.pools).1.dl.map
              (·.nofPrb)) ≤ n := by
  have hbandwidths : ∀ k ∈ bandwidths, k ≤ 128 := by decide
  have hprb := hbandwidths n hn
  refine ⟨RbgMask.measured (RbgMask.nofRbgs_le hprb), ?_, ?_, ?_⟩
  · rintro p rfl order snapshots
    exact SubframePlan.total_nofPrb_make_le hprb order snapshots
  · rintro c rfl order now elapsed roster pools
    exact c.total_nofPrb_masks_le order now elapsed pools hprb
  · rintro s hs cells hcells carrier pass hpass rfl order now elapsed
    exact hs.total_nofPrb_le hcells hpass order now elapsed

/-- On 25 blocks the last group is a single one.  A mask of it and one of all others add up,
and the grants of a pass that spends both state the whole bandwidth. -/
theorem last_group_measured :
    25 ∈ bandwidths ∧
      (RbgMask.ofRange 13 0 12).nofPrb 25 = 24 ∧ (RbgMask.ofRange 13 12 1).nofPrb 25 = 1 ∧
      (RbgMask.ofRange 13 0 12).overlaps (.ofRange 13 12 1) = false ∧
      ((RbgMask.ofRange 13 0 12).union (.ofRange 13 12 1)).nofPrb 25 =
        (RbgMask.ofRange 13 0 12).nofPrb 25 + (RbgMask.ofRange 13 12 1).nofPrb 25 ∧
      (RbgMask.ofRange 13 0 13).isFull = true ∧ (RbgMask.ofRange 13 0 13).nofPrb 25 = 25 ∧
      (∀ i, (RbgMask.ofRange 13 12 1).test i = true → (RbgMask.ofRange 13 0 13).test i = true) ∧
      (RbgMask.ofRange 13 12 1).nofPrb 25 ≤ (RbgMask.ofRange 13 0 13).nofPrb 25 ∧
      (RbgMask.ofRange 13 0 12).pickFree 4 = .ofRange 13 12 1 ∧
      RbgMask.Lowest 4 (Finset.range 13 \ (RbgMask.ofRange 13 0 12).groups)
        (RbgMask.ofRange 13 12 1).groups ∧
      total ((SubframePlan.make ⟨0, {}, {}, 160, 0⟩ (fun _ cs ↦ cs) crowdedSnapshots).dl.map
        (·.mask.nofPrb 25)) ≤ 25 ∧
      ∃ (cells : CellSet) (pass : CarrierPass),
        (lostBefore 45 100).Reachable ∧ (lostBefore 45 100).cells = some cells ∧
        cells.passes[0]? = some pass ∧ pass.params.nofPrb = 25 ∧
        (pass.schedule (fun _ cs ↦ cs) (Tti.ofNat 8) 10 (lostBefore 45 100).terminals
          cells.pools).1.dl.map (·.nofPrb) = [24, 1] ∧
        total ((pass.schedule (fun _ cs ↦ cs) (Tti.ofNat 8) 10 (lostBefore 45 100).terminals
          cells.pools).1.dl.map (·.nofPrb)) ≤ 25 := by
  have hn : 25 ∈ bandwidths := by decide
  obtain ⟨hmasks, hplans, -, hgrants⟩ := masks_measure_bandwidth hn
  have hsizes : nofRbgs 25 = 13 := by decide
  have hrest : (RbgMask.ofRange 13 0 12).size = nofRbgs 25 := by decide
  have hlast : (RbgMask.ofRange 13 12 1).size = nofRbgs 25 := by decide
  have hall : (RbgMask.ofRange 13 0 13).size = nofRbgs 25 := by decide
  have hapart : (RbgMask.ofRange 13 0 12).overlaps (.ofRange 13 12 1) = false := by decide
  have hfull : (RbgMask.ofRange 13 0 13).isFull = true := by decide
  have hinside : ∀ i, (RbgMask.ofRange 13 12 1).test i = true →
      (RbgMask.ofRange 13 0 13).test i = true :=
    fun i hi ↦ RbgMask.test_of_isFull hfull (by decide)
      ((RbgMask.lt_size_of_test hi).trans_eq (hlast.trans hall.symm))
  have hpick : (RbgMask.ofRange 13 0 12).pickFree 4 = .ofRange 13 12 1 := by decide
  have hpass : ((lostBefore 45 100).cells.bind fun cells ↦ cells.passes[0]?.map fun pass ↦
      (pass.params.nofPrb, (pass.schedule (fun _ cs ↦ cs) (Tti.ofNat 8) 10
        (lostBefore 45 100).terminals cells.pools).1.dl.map (·.nofPrb))) = some (25, [24, 1]) := by
    decide +kernel
  obtain ⟨cells, hcells, hrun⟩ := Option.bind_eq_some_iff.mp hpass
  obtain ⟨pass, hpassOf, hvalues⟩ := Option.map_eq_some_iff.mp hrun
  obtain ⟨hprb, hblocks⟩ := Prod.mk.inj hvalues
  exact ⟨hn, by decide, by decide, hapart, hmasks.union _ _ hrest hlast hapart, hfull,
    hmasks.full _ hall hfull, hinside, hmasks.mono _ _ hlast hall hinside, hpick,
    hsizes ▸ ((hmasks.pick _ hrest 4 _).mp hpick).2, hplans _ rfl _ _, cells, pass,
    reachable_lostBefore 45 100, hcells, hpassOf, hprb, hblocks,
    hgrants _ (reachable_lostBefore 45 100) cells hcells 0 pass hpassOf hprb _ _ 10⟩

end Scheduler

end MacScheduler
