import MacScheduler.Proofs.Subframe.Outcome
import MacScheduler.Proofs.Terminal.Counted
import MacScheduler.Scheduler

/-!
# Reachable states

The states that a scheduler reaches by any requests.  Its cells always come from a
configuration that was checked, so every pass plans for a carrier that breaks no
rule, and no result is ever found corrupted.
-/

namespace MacScheduler

namespace CarrierPass

/-! ## Counts -/

variable (c : CarrierPass) (order : Direction → List Candidate → List Candidate) (now : Tti)
  (elapsed : Nat) {roster : Roster} (pools : PucchPools)

theorem counted_observed (h : ∀ t ∈ roster, t.Counted) :
    ∀ t ∈ (c.observed now roster pools).2.1, t.Counted := by
  intro t' ht'
  obtain ⟨t, ht, pools', rfl⟩ := (observe_spec now c.params.index pools roster).2.2 t' ht'
  exact (h t ht).newTti now pools'

theorem counted_of_terminals (hp : c.params.nofPrb ≤ 128) (h : ∀ t ∈ roster, t.Counted) :
    c.Counted now roster pools where
  nofPrb_le := hp
  snapshots := by
    intro s hs
    rw [observed, (observe_spec now c.params.index pools roster).1] at hs
    obtain ⟨t, ht, hs⟩ := List.mem_filterMap.mp hs
    exact (c.counted_observed now pools h t ht).of_snapshot? hs

/-- A pass hands out intervals within the counts, as long as it meets no others. -/
theorem counted_schedule (hp : c.params.nofPrb ≤ 128) (h : ∀ t ∈ roster, t.Counted) :
    ∀ t ∈ (c.schedule order now elapsed roster pools).2.2.1, t.Counted := by
  have hsnapshots := (c.counted_of_terminals now pools hp h).snapshots
  have hplan : ∀ p ∈ (c.planOf order now roster pools).ul, p.interval.Counted := fun p hmem ↦
    (SubframePlan.make_ul_partition order _ hp hsnapshots).counted
      (List.mem_append_right _ (List.mem_map_of_mem hmem))
  rw [schedule_roster_eq]
  refine commitAll_forall (fun p hmem t ht ↦ ?_) (commitAll_forall (fun p _ t ht ↦ ?_)
    (c.counted_observed now pools h))
  · exact ht.of_changes (.grantUplink t _ _ p.pid (hplan p hmem) p.dci)
  · exact ht.of_changes (.grantDownlink t _ _ p.pid p.mask p.dci)

end CarrierPass

def CellSet.Configured (cells : CellSet) : Prop :=
  ∃ c : Config, c.check = .ok () ∧ cells.params = CellParams.all c

namespace CellSet

theorem Configured.of_create {c : Config} {cells : CellSet} (h : create c = .ok cells) :
    cells.Configured := by
  unfold create at h
  split at h
  · cases h
  · cases h
    refine ⟨c, ‹_›, ?_⟩
    simp [params, Function.comp_def]

theorem Configured.of_params {cells cells' : CellSet} (h : cells.Configured)
    (hparams : cells'.params = cells.params) : cells'.Configured := by
  obtain ⟨c, hcheck, hall⟩ := h
  exact ⟨c, hcheck, hparams.trans hall⟩

theorem Configured.pass {cells : CellSet} (h : cells.Configured) {carrier : Nat}
    {pass : CarrierPass} (hpass : cells.passes[carrier]? = some pass) :
    pass.params.cell.violations = [] ∧ pass.params.harq.violations = [] ∧
      pass.params.index = carrier := by
  obtain ⟨c, hcheck, hall⟩ := h
  have hparams : (CellParams.all c)[carrier]? = some pass.params := by
    rw [← hall, params, List.getElem?_map, hpass, Option.map_some]
  obtain ⟨hcell, hharq⟩ := CellParams.mem_all (List.mem_of_getElem? hparams)
  obtain ⟨hcells, hharqs, -⟩ := Config.of_check hcheck
  exact ⟨(of_cellViolations_eq_nil hcells).2 _ hcell, hharq ▸ hharqs,
    CellParams.index_of_getElem?_all hparams⟩

theorem Configured.violations_eq_nil {cells : CellSet} (h : cells.Configured) :
    ∀ p ∈ cells.params, p.cell.violations = [] := by
  intro p hp
  obtain ⟨pass, hmem, rfl⟩ := List.mem_map.mp hp
  obtain ⟨carrier, hpass⟩ := List.mem_iff_getElem?.mp hmem
  exact (h.pass hpass).1

theorem params_set_pass {cells : CellSet} {carrier : Nat} {pass pass' : CarrierPass}
    (hpass : cells.passes[carrier]? = some pass) (hparams : pass'.params = pass.params) :
    (cells.passes.set carrier pass').map (·.params) = cells.params := by
  have hlt : carrier < cells.passes.length := (List.getElem?_eq_some_iff.mp hpass).1
  apply List.ext_getElem?
  intro i
  rw [params, List.getElem?_map, List.getElem?_map, List.getElem?_set]
  by_cases hi : carrier = i
  · subst hi
    rw [if_pos rfl, if_pos hlt, hpass, Option.map_some, Option.map_some, hparams]
  · rw [if_neg hi]

end CellSet

namespace Scheduler

/-- The states that requests lead to, from the scheduler without cells. -/
inductive Reachable : Scheduler → Prop
  | start : Reachable {}
  | step {s : Scheduler} (h : Reachable s) (r : Request) : Reachable (s.handle r).2

/-- A configuration in order is accepted by the scheduler without cells. -/
theorem exists_start {c : Config} (h : c.check = .ok ()) :
    ∃ cells, CellSet.create c = .ok cells ∧
      (({} : Scheduler).handle (.configureCells c)).2 = { cells := some cells } := by
  obtain ⟨cells, hcreate⟩ : ∃ cells, CellSet.create c = .ok cells := by
    rw [CellSet.create, h]
    exact ⟨_, rfl⟩
  exact ⟨cells, hcreate, by simp [handle, configureCells, hcreate]⟩

/-! ## Pulls that run a pass -/

/-- The point of the pass that a request makes a carrier run, if it does. -/
def passPoint? (s : Scheduler) : Request → Option Tti
  | .pull now carrier _ =>
      ((s.cells.bind (·.passes[carrier]?)).filter fun pass ↦ decide (pass.Admits now)).map
        fun _ ↦ now
  | _ => none

section Pull

variable {s : Scheduler} {cells : CellSet} {pass : CarrierPass} {now : Tti} {carrier : Nat}

theorem passPoint?_of_admits (hcells : s.cells = some cells)
    (hpass : cells.passes[carrier]? = some pass) (h : pass.Admits now) (elapsed : Nat) :
    s.passPoint? (.pull now carrier elapsed) = some now := by
  rw [passPoint?, hcells, Option.bind_some, hpass, Option.filter_some, if_pos (decide_eq_true h),
    Option.map_some]

theorem exists_of_passPoint? {r : Request} (h : s.passPoint? r = some now) :
    ∃ carrier elapsed cells pass, r = .pull now carrier elapsed ∧ s.cells = some cells ∧
      cells.passes[carrier]? = some pass ∧ pass.Admits now := by
  cases r with
  | pull t carrier elapsed =>
      obtain ⟨pass, hfilter, rfl⟩ := Option.map_eq_some_iff.mp h
      obtain ⟨hsome, hadmits⟩ := Option.filter_eq_some_iff.mp hfilter
      obtain ⟨cells, hcells, hpass⟩ := Option.bind_eq_some_iff.mp hsome
      exact ⟨carrier, elapsed, cells, pass, rfl, hcells, hpass, of_decide_eq_true hadmits⟩
  | _ => cases h

/-- A pull that runs its pass keeps the result. -/
theorem pull_of_admits (hcells : s.cells = some cells)
    (hpass : cells.passes[carrier]? = some pass) (h : pass.Admits now)
    (hcounted : pass.Counted now s.terminals cells.pools) (elapsed : Nat) :
    ∃ res, res = pass.schedule (cells.policy.prioritize now carrier) now elapsed
        s.terminals cells.pools ∧
      s.pull now carrier elapsed = (res.1.inTime,
        { cells := some
            { cells with
              passes := cells.passes.set carrier
                { pass with lastTti := some now, result := some res.1 }
              pools := res.2.2.2
              policy := learn cells.policy carrier res.2.1 }
          terminals := res.2.2.1 }) := by
  refine ⟨_, rfl, ?_⟩
  unfold pull
  rw [hcells]
  dsimp only
  rw [hpass]
  dsimp only
  rw [CarrierPass.run_of_admits _ _ _ _ _ _ h hcounted]
  rfl

theorem pull_of_passPoint?_eq_none {elapsed : Nat}
    (h : s.passPoint? (.pull now carrier elapsed) = none) : (s.pull now carrier elapsed).2 = s := by
  unfold pull
  cases hcells : s.cells with
  | none => rfl
  | some cells =>
      dsimp only
      cases hpass : cells.passes[carrier]? with
      | none => rfl
      | some pass =>
          have hnot : ¬pass.Admits now := fun hadmits ↦ by
            rw [passPoint?_of_admits hcells hpass hadmits] at h
            cases h
          have hrun := pass.run_of_not_admits (cells.policy.prioritize now carrier) now elapsed
            s.terminals cells.pools hnot
          obtain ⟨hlt, rfl⟩ := List.getElem?_eq_some_iff.mp hpass
          dsimp only
          rw [hrun, Option.map_none, Option.getD_none, List.set_getElem_self, ← hcells]

end Pull

/-! ## What every reachable state keeps -/

/-- Whatever cells there are come from a configuration that was checked, and no terminal was
ever granted an uplink interval beyond the counts. -/
structure Configured (s : Scheduler) : Prop where
  cells : ∀ cells, s.cells = some cells → cells.Configured
  counted : ∀ t ∈ s.terminals, t.Counted

namespace Configured

variable {s : Scheduler}

theorem start : Configured {} where
  cells := fun _ hcells ↦ by cases hcells
  counted := fun _ ht ↦ by cases ht

theorem nofPrb_le (h : s.Configured) {cells : CellSet} (hcells : s.cells = some cells)
    {carrier : Nat} {pass : CarrierPass} (hpass : cells.passes[carrier]? = some pass) :
    pass.params.nofPrb ≤ 128 :=
  Nat.le_trans (CellConfig.nofPrb_le ((h.cells cells hcells).pass hpass).1) (by decide)

/-- What a pass meets ends within the counts. -/
theorem pass_counted (h : s.Configured) {cells : CellSet} (hcells : s.cells = some cells)
    {carrier : Nat} {pass : CarrierPass} (hpass : cells.passes[carrier]? = some pass) {now : Tti}
    {pools : PucchPools} : pass.Counted now s.terminals pools :=
  pass.counted_of_terminals now pools (h.nofPrb_le hcells hpass) h.counted

theorem configureCells (h : s.Configured) (c : Config) : (s.configureCells c).2.Configured := by
  unfold Scheduler.configureCells
  split
  · exact h
  · cases hcreate : CellSet.create c with
    | error e => exact h
    | ok cells =>
        refine ⟨fun cells' hcells' ↦ ?_, h.counted⟩
        obtain rfl := Option.some.inj hcells'
        exact .of_create hcreate

theorem configureTerminal (h : s.Configured) (rnti : Rnti) (c : TerminalConfig) :
    (s.configureTerminal rnti c).2.Configured := by
  unfold Scheduler.configureTerminal
  cases hcells : s.cells with
  | none => exact h
  | some cells =>
      have hconf := h.cells cells hcells
      have hparams := hconf.violations_eq_nil
      dsimp only
      cases hget : s.terminals.get? rnti with
      | some t =>
          refine ⟨fun cells' hcells' ↦ ?_, fun u hu ↦ ?_⟩
          · exact Option.some.inj hcells' ▸ hconf.of_params rfl
          · rcases Roster.mem_update hu with rfl | hu
            · exact (h.counted t (Roster.of_get? hget).1).setConfig hparams c cells.pools
            · exact h.counted u hu
      | none =>
          dsimp only
          rcases hcreate : Terminal.create rnti c cells.params cells.pools with ⟨e | t, pools⟩
          · refine ⟨fun cells' hcells' ↦ ?_, h.counted⟩
            exact Option.some.inj hcells' ▸ hconf.of_params rfl
          · refine ⟨fun cells' hcells' ↦ ?_, fun u hu ↦ ?_⟩
            · exact Option.some.inj hcells' ▸ hconf.of_params rfl
            · rcases Roster.mem_insert hu with rfl | hu
              · exact .of_create hparams hcreate
              · exact h.counted u hu

theorem removeTerminal (h : s.Configured) (rnti : Rnti) :
    (s.removeTerminal rnti).2.Configured := by
  unfold Scheduler.removeTerminal
  split
  · exact h
  · refine ⟨fun cells' hcells' ↦ ?_, fun u hu ↦ h.counted u (List.mem_of_mem_filter hu)⟩
    obtain ⟨cells, hcells, rfl⟩ := Option.map_eq_some_iff.mp hcells'
    exact (h.cells cells hcells).of_params rfl

theorem act (h : s.Configured) (rnti : Rnti) (action : Terminal.Action) :
    (s.act rnti action).2.Configured := by
  unfold Scheduler.act
  cases hget : s.terminals.get? rnti with
  | none => exact h
  | some t =>
      refine ⟨h.cells, fun u hu ↦ ?_⟩
      rcases Roster.mem_update hu with rfl | hu
      · exact (h.counted t (Roster.of_get? hget).1).of_changes (.perform t action)
      · exact h.counted u hu

theorem pull (h : s.Configured) (now : Tti) (carrier elapsed : Nat) :
    (s.pull now carrier elapsed).2.Configured := by
  cases hpoint : s.passPoint? (.pull now carrier elapsed) with
  | none =>
      rw [pull_of_passPoint?_eq_none hpoint]
      exact h
  | some t =>
      obtain ⟨_, _, cells, pass, ⟨⟩, hcells, hpass, hadmits⟩ := exists_of_passPoint? hpoint
      obtain ⟨res, hres, heq⟩ :=
        pull_of_admits hcells hpass hadmits (h.pass_counted hcells hpass) elapsed
      have hcounted := pass.counted_schedule (cells.policy.prioritize now carrier) now elapsed
        cells.pools (h.nofPrb_le hcells hpass) h.counted
      rw [← hres] at hcounted
      rw [heq]
      refine ⟨fun cells' hcells' ↦ ?_, hcounted⟩
      obtain rfl := Option.some.inj hcells'
      exact (h.cells cells hcells).of_params (CellSet.params_set_pass hpass rfl)

theorem handle (h : s.Configured) (r : Request) : (s.handle r).2.Configured := by
  cases r with
  | configureCells c => exact h.configureCells c
  | configureTerminal rnti c => exact h.configureTerminal rnti c
  | removeTerminal rnti => exact h.removeTerminal rnti
  | act rnti action => exact h.act rnti action
  | pull now carrier elapsed => exact h.pull now carrier elapsed

end Configured

theorem Reachable.configured {s : Scheduler} (h : s.Reachable) : s.Configured := by
  induction h with
  | start => exact .start
  | step _ r ih => exact ih.handle r

/-- Retransmissions that ask for the same groups and blocks, and new data. -/
def crowdedSnapshots : List Snapshot :=
  [⟨⟨70⟩, 1, [0, 2, 4], some ⟨3, .ofRange 13 0 4⟩, none, some ⟨1, ⟨4, 6⟩⟩, none⟩,
    ⟨⟨71⟩, 1, [0, 2, 4], some ⟨5, .ofRange 13 2 4⟩, none, some ⟨2, ⟨6, 4⟩⟩, none⟩,
    ⟨⟨72⟩, 2, [0, 4], none, some ⟨0, 900, 9, Float.ofNat 80⟩, some ⟨0, ⟨0, 3⟩⟩, none⟩,
    ⟨⟨73⟩, 0, [5, 6], none, some ⟨0, 40, 1, Float.ofNat 40⟩, none,
      some ⟨6, 512, 7, Float.ofNat 60⟩⟩]

end Scheduler

end MacScheduler
