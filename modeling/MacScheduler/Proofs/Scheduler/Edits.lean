import MacScheduler.Proofs.Scheduler.Rounds

/-!
# Requests between pulls

A request that is no pull sends nothing.  It replaces the cells while no terminal is
attached, or it changes, adds or removes one terminal and leaves every pass as it was.
-/

namespace MacScheduler.Scheduler

def Request.isPull : Request → Bool
  | .pull _ _ _ => true
  | _ => false

/-- `s'` is `s` with other cells for no terminal, or with other terminals on the same cells,
and nothing is sent at the present point. -/
inductive Edits (now : Tti) (cells : CellSet) (s s' : Scheduler) : Prop
  | replaced {c : Config} {cells' : CellSet} (hcells : s'.cells = some cells')
      (hcreate : CellSet.create c = .ok cells') (hnone : s'.terminals = [])
  | kept {cells' : CellSet} (hcells : s'.cells = some cells')
      (hpasses : cells'.passes = cells.passes)
      (heased : s.terminals.Eased cells.params now s'.terminals)

section

variable {s : Scheduler} {cells : CellSet} {now : Tti} (hcells : s.cells = some cells)
  (hlisted : CellParams.Listed cells.params) (hrntis : (s.terminals.map (·.rnti)).Nodup)
  (hsteady : ∀ t ∈ s.terminals, t.Steady cells.params now)

include hcells hrntis hsteady

theorem edits_refl : s.Edits now cells s :=
  .kept hcells rfl (Roster.eased_refl hrntis hsteady)

theorem edits_configureCells (c : Config) : s.Edits now cells (s.configureCells c).2 := by
  unfold configureCells
  split
  · exact edits_refl hcells hrntis hsteady
  · rename_i hnone
    cases hcreate : CellSet.create c with
    | error e => exact edits_refl hcells hrntis hsteady
    | ok cells' => exact .replaced rfl hcreate (by simpa using hnone)

include hlisted in
theorem edits_configureTerminal (rnti : Rnti) (c : TerminalConfig) :
    s.Edits now cells (s.configureTerminal rnti c).2 := by
  unfold configureTerminal
  rw [hcells]
  cases hget : s.terminals.get? rnti with
  | some t =>
      have ht := (Roster.of_get? hget).1
      have hease := (hsteady t ht).setConfig hlisted c cells.pools
      exact .kept rfl rfl (Roster.eased_update hrntis hsteady ht hease)
  | none =>
      dsimp only
      cases hcreate : Terminal.create rnti c cells.params cells.pools with
      | mk result pools =>
          cases result with
          | error e => exact .kept rfl rfl (Roster.eased_refl hrntis hsteady)
          | ok t =>
              obtain ⟨rfl, hfresh, hblank⟩ := Terminal.steady_of_create hlisted hcreate now
              have hnew := Roster.not_mem_of_get?_eq_none hget
              exact .kept rfl rfl (Roster.eased_insert hrntis hsteady hnew hfresh hblank)

theorem edits_removeTerminal (rnti : Rnti) : s.Edits now cells (s.removeTerminal rnti).2 := by
  unfold removeTerminal
  split
  · exact edits_refl hcells hrntis hsteady
  · rw [hcells]
    exact .kept rfl rfl (Roster.eased_erase hrntis hsteady rnti)

theorem edits_act (rnti : Rnti) (action : Terminal.Action) :
    s.Edits now cells (s.act rnti action).2 := by
  unfold act
  cases hget : s.terminals.get? rnti with
  | none => exact edits_refl hcells hrntis hsteady
  | some t =>
      have ht := (Roster.of_get? hget).1
      have hease := (hsteady t ht).perform action
      exact .kept hcells rfl (Roster.eased_update hrntis hsteady ht hease)

include hlisted in
theorem edits_handle {r : Request} (hr : r.isPull = false) :
    s.Edits now cells (s.handle r).2 := by
  cases r with
  | configureCells c => exact edits_configureCells hcells hrntis hsteady c
  | configureTerminal rnti c =>
      exact edits_configureTerminal hcells hlisted hrntis hsteady rnti c
  | removeTerminal rnti => exact edits_removeTerminal hcells hrntis hsteady rnti
  | act rnti action => exact edits_act hcells hrntis hsteady rnti action
  | pull now carrier elapsed => cases hr

end

end MacScheduler.Scheduler
