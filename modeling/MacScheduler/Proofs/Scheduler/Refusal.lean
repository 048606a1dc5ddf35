import MacScheduler.Proofs.Scheduler.Leases
import MacScheduler.Proofs.Terminal.Refusal

/-!
# Refused requests

A request that is refused leaves the whole scheduler as it was.  The one error that
does not mean refusal is a missed deadline, where the pass has run.  A terminal's
configuration is refused by its check alone: whatever passes the check is applied as
a whole.
-/

namespace MacScheduler.Scheduler

variable {s : Scheduler}

theorem atomic_configureCells (s : Scheduler) (c : Config) : Atomic s (s.configureCells c) := by
  unfold configureCells
  split
  · exact .refl s _
  · split
    · exact .refl s _
    · exact .of_ok s _ _

/-- The configuration of a terminal is answered with what its check says, and a refused one
leaves everything as it was. -/
theorem Attached.configureTerminal_cases (h : s.Attached) {cells : CellSet}
    (hcells : s.cells = some cells) (rnti : Rnti) (c : TerminalConfig) :
    (s.configureTerminal rnti c).1 = c.check cells.params.length ∧
      Atomic s (s.configureTerminal rnti c) := by
  have hself : { s with cells := some cells } = s := by rw [← hcells]
  unfold Scheduler.configureTerminal
  rw [hcells]
  dsimp only
  cases hget : s.terminals.get? rnti with
  | some t =>
      have hmem := (Roster.of_get? hget).1
      have hformed := h.formed_of_cells hcells t hmem
      dsimp only
      rcases hformed.setConfig_cases c cells.pools with ⟨e, hc, heq⟩ | ⟨hc, hok, -⟩
      · rw [heq, hc]
        dsimp only
        rw [Roster.update_self h.nodup hmem]
        exact ⟨rfl, fun _ _ ↦ hself⟩
      · rw [hc]
        exact ⟨hok, fun e he ↦ by rw [hok] at he; cases he⟩
  | none =>
      dsimp only
      rcases Terminal.create_cases rnti c cells.params cells.pools with
        ⟨e, hc, heq⟩ | ⟨hc, t, pools, heq⟩
      · rw [heq, hc]
        exact ⟨rfl, fun _ _ ↦ hself⟩
      · rw [heq, hc]
        exact ⟨rfl, .of_ok s _ _⟩

theorem Attached.atomic_configureTerminal (h : s.Attached) (rnti : Rnti) (c : TerminalConfig) :
    Atomic s (s.configureTerminal rnti c) := by
  cases hcells : s.cells with
  | some cells => exact (h.configureTerminal_cases hcells rnti c).2
  | none =>
      unfold Scheduler.configureTerminal
      rw [hcells]
      exact .refl s _

theorem atomic_removeTerminal (s : Scheduler) (rnti : Rnti) : Atomic s (s.removeTerminal rnti) := by
  unfold removeTerminal
  split
  · exact .refl s _
  · exact .of_ok s _ _

theorem Attached.atomic_act (h : s.Attached) (rnti : Rnti) (action : Terminal.Action) :
    Atomic s (s.act rnti action) := by
  unfold Scheduler.act
  cases hget : s.terminals.get? rnti with
  | none => exact .refl s _
  | some t =>
      have hself : s.terminals.update t = s.terminals :=
        Roster.update_self h.nodup (Roster.of_get? hget).1
      exact (t.atomic_perform action).lift
        (fun t ↦ { s with terminals := s.terminals.update t }) (by rw [hself])

/-- A pull that runs a pass fails only by missing its deadline. -/
theorem Configured.pull_of_error (h : s.Configured) {now : Tti} {carrier elapsed : Nat}
    {e : SchedError} (he : (s.pull now carrier elapsed).1 = .error e) :
    (∃ t elapsed budget, e = .deadlineMissed t elapsed budget) ∨
      (s.pull now carrier elapsed).2 = s := by
  cases hpoint : s.passPoint? (.pull now carrier elapsed) with
  | none => exact .inr (pull_of_passPoint?_eq_none hpoint)
  | some t =>
      obtain ⟨_, _, cells, pass, ⟨⟩, hcells, hpass, hadmits⟩ := exists_of_passPoint? hpoint
      obtain ⟨res, -, heq⟩ :=
        pull_of_admits hcells hpass hadmits (h.pass_counted hcells hpass) elapsed
      rw [heq] at he
      unfold SubframeResult.inTime at he
      split at he
      · exact .inl ⟨_, _, _, (Except.error.inj he).symm⟩
      · cases he

theorem Reachable.handle_of_error (h : s.Reachable) {r : Request} {e : SchedError}
    (he : (s.handle r).1 = .error e)
    (hne : ∀ t elapsed budget, e ≠ .deadlineMissed t elapsed budget) : (s.handle r).2 = s := by
  have hattached := h.attached
  cases r with
  | configureCells c => exact ((s.atomic_configureCells c).map _) e he
  | configureTerminal rnti c => exact ((hattached.atomic_configureTerminal rnti c).map _) e he
  | removeTerminal rnti => exact ((s.atomic_removeTerminal rnti).map _) e he
  | act rnti action => exact ((hattached.atomic_act rnti action).map _) e he
  | pull now carrier elapsed =>
      have hpull : (s.pull now carrier elapsed).1 = .error e := of_map_eq_error he
      rcases h.configured.pull_of_error hpull with ⟨t, elapsed, budget, rfl⟩ | hsame
      · exact absurd rfl (hne t elapsed budget)
      · exact hsame

/-- A request that is answered with an error, other than that of a missed deadline, changes
nothing; and every configuration that passes the check is applied, to an attached terminal or
to a new one. -/
theorem refused_requests_change_nothing (h : s.Reachable) :
    (∀ r e, (s.handle r).1 = .error e →
      (∀ t elapsed budget, e ≠ .deadlineMissed t elapsed budget) → (s.handle r).2 = s) ∧
    ∀ cells, s.cells = some cells → ∀ c,
      (∀ rnti, (s.configureTerminal rnti c).1 = c.check cells.params.length) ∧
      (c.check cells.params.length = .ok () → ∀ pools,
        (∀ t ∈ s.terminals, (t.apply cells.params c pools).1 = .ok ()) ∧
        ∀ rnti, ((Terminal.blank rnti c).apply cells.params c pools).1 = .ok ()) := by
  refine ⟨fun r e he hne ↦ h.handle_of_error he hne, fun cells hcells c ↦ ⟨fun rnti ↦ ?_, ?_⟩⟩
  · exact (h.attached.configureTerminal_cases hcells rnti c).1
  · intro hc pools
    refine ⟨fun t ht ↦ ?_, fun rnti ↦ ?_⟩
    · exact ((h.attached.formed_of_cells hcells t ht).apply hc pools).1
    · exact ((Terminal.formed_blank rnti c).apply hc pools).1

/-- Two terminals, once their carrier has been pulled. -/
def pulledTenants : Scheduler := ((tenants 2).handle (.pull (Tti.ofNat 1) 0 10)).2

theorem pulledTenants_unchanged :
    ((pulledTenants.handle (.pull (Tti.ofNat 0) 0 10)).1 =
        .error (.ttiOutOfOrder (Tti.ofNat 0) (Tti.ofNat 1)) ∧
      (pulledTenants.handle (.pull (Tti.ofNat 0) 0 10)).2 = pulledTenants) ∧
    ((pulledTenants.handle (.configureTerminal ⟨70⟩ { carriers := [⟨0, true⟩, ⟨1, true⟩] })).1 =
        .error (.invalidCarrier 1) ∧
      (pulledTenants.handle (.configureTerminal ⟨70⟩ { carriers := [⟨0, true⟩, ⟨1, true⟩] })).2 =
        pulledTenants) ∧
    ∃ cells, pulledTenants.cells = some cells ∧ pulledTenants.terminals.length = 2 ∧
      ∀ t ∈ pulledTenants.terminals,
        (t.apply cells.params { bearers := [] } cells.pools).1 = .ok () := by
  have hreachable : pulledTenants.Reachable :=
    (reachable_iff.mpr ⟨_, passed_tenants 2⟩).step (.pull (Tti.ofNat 1) 0 10)
  obtain ⟨hkeep, happly⟩ := refused_requests_change_nothing hreachable
  have hlate : (pulledTenants.handle (.pull (Tti.ofNat 0) 0 10)).1 =
      .error (.ttiOutOfOrder (Tti.ofNat 0) (Tti.ofNat 1)) := by decide +kernel
  have hcarrier : (pulledTenants.handle
      (.configureTerminal ⟨70⟩ { carriers := [⟨0, true⟩, ⟨1, true⟩] })).1 =
        .error (.invalidCarrier 1) := by decide +kernel
  have hlength : pulledTenants.terminals.length = 2 := by decide +kernel
  obtain ⟨cells, hcells, hcount⟩ : ∃ cells, pulledTenants.cells = some cells ∧
      cells.params.length = 1 :=
    Option.map_eq_some_iff.mp (by decide +kernel)
  have hcheck : TerminalConfig.check { bearers := [] } cells.params.length = .ok () := by
    rw [hcount]
    decide
  exact ⟨⟨hlate, hkeep _ _ hlate (by simp)⟩, ⟨hcarrier, hkeep _ _ hcarrier (by simp)⟩, cells,
    hcells, hlength, ((happly cells hcells _).2 hcheck cells.pools).1⟩

end MacScheduler.Scheduler
