import MacScheduler.Proofs.Scheduler.Reachable
import MacScheduler.Proofs.Subframe.Outcome
import MacScheduler.Proofs.Terminal.Leases
import MacScheduler.Proofs.Terminal.Run

/-!
# Attached terminals

In every reachable state the attached terminals have different identifiers and are
well formed for the cells there are.  Cells are replaced only while no terminal is
attached, so no terminal ever meets other cells than those it was configured on.
-/

namespace MacScheduler

theorem CellSet.Configured.numbered {cells : CellSet} (h : cells.Configured) :
    CellParams.Numbered cells.params := by
  obtain ⟨c, -, hall⟩ := h
  rw [hall]
  exact CellParams.numbered_all c

namespace CarrierPass

variable (c : CarrierPass) (order : Direction → List Candidate → List Candidate) (now : Tti)
  (elapsed : Nat) (roster : Roster) (pools : PucchPools)

theorem rntis_schedule :
    (c.schedule order now elapsed roster pools).2.2.1.map (·.rnti) = roster.map (·.rnti) := by
  rw [schedule_roster_eq, rntis_commitAll, rntis_commitAll]
  exact (observe_spec now c.params.index pools roster).2.1

variable {roster} {cells : List CellParams}

theorem formed_observed (h : ∀ t ∈ roster, t.Formed cells) :
    ∀ t ∈ (c.observed now roster pools).2.1, t.Formed cells := by
  intro t' ht'
  obtain ⟨t, ht, pools', rfl⟩ := (observe_spec now c.params.index pools roster).2.2 t' ht'
  exact (h t ht).of_lives (.newTti t now pools')

theorem formed_schedule (h : ∀ t ∈ roster, t.Formed cells) :
    ∀ t ∈ (c.schedule order now elapsed roster pools).2.2.1, t.Formed cells := by
  rw [schedule_roster_eq]
  refine commitAll_forall (fun p _ t ht ↦ ?_) (commitAll_forall (fun p _ t ht ↦ ?_)
    (c.formed_observed now pools h))
  · exact ht.of_lives (.of_changes (.grantUplink t _ _ p.pid trivial p.dci))
  · exact ht.of_lives (.of_changes (.grantDownlink t _ _ p.pid p.mask p.dci))

end CarrierPass

namespace Scheduler

structure Attached (s : Scheduler) : Prop where
  nodup : (s.terminals.map (·.rnti)).Nodup
  formed : ∀ t ∈ s.terminals, ∃ cells, s.cells = some cells ∧ t.Formed cells.params

namespace Attached

variable {s : Scheduler}

theorem start : Attached {} where
  nodup := .nil
  formed := fun _ h ↦ by cases h

theorem formed_of_cells (h : s.Attached) {cells : CellSet} (hcells : s.cells = some cells) :
    ∀ t ∈ s.terminals, t.Formed cells.params := by
  intro t ht
  obtain ⟨cells', hcells', hformed⟩ := h.formed t ht
  obtain rfl := Option.some.inj (hcells.symm.trans hcells')
  exact hformed

theorem configureCells (h : s.Attached) (c : Config) : (s.configureCells c).2.Attached := by
  unfold Scheduler.configureCells
  split
  · exact h
  · rename_i hnone
    have hempty : s.terminals = [] := Decidable.not_not.mp hnone
    cases hcreate : CellSet.create c with
    | error e => exact h
    | ok cells =>
        refine ⟨h.nodup, fun t ht ↦ ?_⟩
        rw [hempty] at ht
        cases ht

theorem configureTerminal (h : s.Attached) (hconf : s.Configured) (rnti : Rnti)
    (c : TerminalConfig) : (s.configureTerminal rnti c).2.Attached := by
  unfold Scheduler.configureTerminal
  cases hcells : s.cells with
  | none => exact h
  | some cells =>
      have hnumbered := (hconf.cells cells hcells).numbered
      have hformed := h.formed_of_cells hcells
      dsimp only
      cases hget : s.terminals.get? rnti with
      | some t =>
          refine ⟨(Roster.rntis_update _ _).symm ▸ h.nodup, fun u hu ↦ ⟨_, rfl, ?_⟩⟩
          rcases Roster.mem_update hu with rfl | hu
          · exact (hformed t (Roster.of_get? hget).1).setConfig hnumbered c cells.pools
          · exact hformed u hu
      | none =>
          dsimp only
          rcases Terminal.create_leases rnti c cells.params cells.pools with
            ⟨e, pools, hcreate, -⟩ | ⟨t, pools, hcreate, rfl, -⟩
          · rw [hcreate]
            exact ⟨h.nodup, fun u hu ↦ ⟨_, rfl, hformed u hu⟩⟩
          · rw [hcreate]
            have hnew := Roster.not_mem_of_get?_eq_none hget
            refine ⟨Roster.nodup_insert h.nodup hnew, fun u hu ↦ ⟨_, rfl, ?_⟩⟩
            rcases Roster.mem_insert hu with rfl | hu
            · exact .of_create hnumbered hcreate
            · exact hformed u hu

theorem removeTerminal (h : s.Attached) (rnti : Rnti) : (s.removeTerminal rnti).2.Attached := by
  unfold Scheduler.removeTerminal
  split
  · exact h
  · refine ⟨Roster.nodup_erase h.nodup rnti, fun u hu ↦ ?_⟩
    obtain ⟨cells, hcells, hformed⟩ := h.formed u (List.mem_of_mem_filter hu)
    exact ⟨_, congrArg (Option.map _) hcells, hformed⟩

theorem act (h : s.Attached) (rnti : Rnti) (action : Terminal.Action) :
    (s.act rnti action).2.Attached := by
  unfold Scheduler.act
  cases hget : s.terminals.get? rnti with
  | none => exact h
  | some t =>
      refine ⟨(Roster.rntis_update _ _).symm ▸ h.nodup, fun u hu ↦ ?_⟩
      rcases Roster.mem_update hu with rfl | hu
      · obtain ⟨cells, hcells, hformed⟩ := h.formed t (Roster.of_get? hget).1
        exact ⟨cells, hcells, hformed.of_lives (.of_changes (.perform t action))⟩
      · exact h.formed u hu

theorem pull (h : s.Attached) (hconf : s.Configured) (now : Tti) (carrier elapsed : Nat) :
    (s.pull now carrier elapsed).2.Attached := by
  cases hpoint : s.passPoint? (.pull now carrier elapsed) with
  | none =>
      rw [pull_of_passPoint?_eq_none hpoint]
      exact h
  | some t =>
      obtain ⟨_, _, cells, pass, ⟨⟩, hcells, hpass, hadmits⟩ := exists_of_passPoint? hpoint
      obtain ⟨res, hres, heq⟩ :=
        pull_of_admits hcells hpass hadmits (hconf.pass_counted hcells hpass) elapsed
      have hrntis := pass.rntis_schedule (cells.policy.prioritize now carrier) now elapsed
        s.terminals cells.pools
      have hformed := pass.formed_schedule (cells.policy.prioritize now carrier) now elapsed
        cells.pools (h.formed_of_cells hcells)
      rw [← hres] at hrntis hformed
      rw [heq]
      refine ⟨hrntis ▸ h.nodup, fun u hu ↦ ⟨_, rfl, ?_⟩⟩
      rw [CellSet.params, CellSet.params_set_pass hpass]
      · exact hformed u hu
      · rfl

theorem handle (h : s.Attached) (hconf : s.Configured) (r : Request) :
    (s.handle r).2.Attached := by
  cases r with
  | configureCells c => exact h.configureCells c
  | configureTerminal rnti c => exact h.configureTerminal hconf rnti c
  | removeTerminal rnti => exact h.removeTerminal rnti
  | act rnti action => exact h.act rnti action
  | pull now carrier elapsed => exact h.pull hconf now carrier elapsed

end Attached

theorem Reachable.attached {s : Scheduler} (h : s.Reachable) : s.Attached := by
  induction h with
  | start => exact .start
  | step hs r ih => exact ih.handle hs.configured r

end Scheduler

end MacScheduler
