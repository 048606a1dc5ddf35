import MacScheduler.Proofs.Terminal.Configure

/-!
# Runs of a terminal

Everything that happens to a terminal as a sequence of events, in any order.  The
pools of the cell are shared with other terminals, so each event that leases from
them meets them in any state.
-/

namespace MacScheduler.Terminal

inductive Event where
  | act (action : Action)
  | withdrawRequest
  | configure (c : TerminalConfig) (pools : PucchPools)
  | boundary (now : Tti) (pools : PucchPools)
  | grantDownlink (tx : Tti) (carrier pid : Nat) (mask : RbgMask) (dci : DciLocation)
  | grantUplink (tx : Tti) (carrier pid : Nat) (interval : PrbInterval) (dci : Option DciLocation)

def step (cells : List CellParams) (t : Terminal) : Event → Terminal
  | .act action => (t.perform action).2
  | .withdrawRequest => t.withdrawRequest
  | .configure c pools => (t.setConfig c cells pools).2.1
  | .boundary now pools => (t.newTti now pools).1
  | .grantDownlink tx carrier pid mask dci => (t.grantDownlink tx carrier pid mask dci).2
  | .grantUplink tx carrier pid interval dci => (t.grantUplink tx carrier pid interval dci).2

def run (cells : List CellParams) : Terminal → List Event → Terminal
  | t, [] => t
  | t, e :: es => run cells (t.step cells e) es

def Event.isConfigure : Event → Bool
  | .configure _ _ => true
  | _ => false

variable {cells : List CellParams} {t : Terminal}

theorem run_append (t : Terminal) (es es' : List Event) :
    t.run cells (es ++ es') = (t.run cells es).run cells es' := by
  induction es generalizing t with
  | nil => rfl
  | cons e es ih => exact ih (t.step cells e)

/-- Between configurations the links of a terminal live on. -/
theorem lives_step (t : Terminal) {e : Event} (he : e.isConfigure = false) :
    t.Lives (t.step cells e) := by
  cases e with
  | act action => exact .of_changes (.perform t action)
  | withdrawRequest => exact .of_changes (.of_same_links rfl rfl)
  | configure => cases he
  | boundary now pools => exact .newTti t now pools
  | grantDownlink tx carrier pid mask dci =>
      exact .of_changes (.grantDownlink t tx carrier pid mask dci)
  | grantUplink tx carrier pid interval dci =>
      exact .of_changes (.grantUplink t tx carrier pid trivial dci)

namespace Formed

theorem setConfig (h : t.Formed cells) (hcells : CellParams.Numbered cells) (c : TerminalConfig)
    (pools : PucchPools) : (t.setConfig c cells pools).2.1.Formed cells := by
  rcases h.setConfig_cases c pools with ⟨e, -, heq⟩ | ⟨hc, -, hr⟩
  · rw [heq]
    exact h
  · exact hr.formed h hcells (of_check hc).1

theorem step (h : t.Formed cells) (hcells : CellParams.Numbered cells) (e : Event) :
    (t.step cells e).Formed cells := by
  cases e with
  | configure c pools => exact h.setConfig hcells c pools
  | act => exact h.of_lives (lives_step t rfl)
  | withdrawRequest => exact h.of_lives (lives_step t rfl)
  | boundary => exact h.of_lives (lives_step t rfl)
  | grantDownlink => exact h.of_lives (lives_step t rfl)
  | grantUplink => exact h.of_lives (lives_step t rfl)

theorem run (h : t.Formed cells) (hcells : CellParams.Numbered cells) (es : List Event) :
    (t.run cells es).Formed cells := by
  induction es generalizing t with
  | nil => exact h
  | cons e es ih => exact ih (h.step hcells e)

theorem of_create (hcells : CellParams.Numbered cells) {rnti : Rnti} {c : TerminalConfig}
    {pools pools' : PucchPools} (h : create rnti c cells pools = (.ok t, pools')) :
    t.Formed cells := by
  obtain ⟨hc, hr⟩ := Terminal.of_create h
  exact hr.formed (formed_blank rnti c) hcells (of_check hc).1

end Formed

/-! ## Created terminals -/

/-- The configuration at creation is the first of a terminal without carriers. -/
theorem step_blank_of_create {rnti : Rnti} {c : TerminalConfig} {pools pools' : PucchPools}
    (h : create rnti c cells pools = (.ok t, pools')) :
    (blank rnti c).step cells (.configure c pools) = t := by
  unfold create at h
  unfold step setConfig
  cases hc : c.check cells.length with
  | error e => simp [hc] at h
  | ok _ =>
      simp only [hc] at h
      unfold blank
      dsimp only
      generalize Terminal.apply _ cells c pools = out at h
      obtain ⟨e | _, t', pools''⟩ := out
      · cases h
      · cases h
        rw [hc]

/-- The pools of the first carrier of a configuration, before any lease. -/
def unusedPools (config : Config) : PucchPools :=
  .ofConfig config.pucch (config.cells.headD {})

/-- The terminal that a configuration creates on unused pools, one without carriers when
the configuration is refused. -/
def created (config : Config) (rnti : Rnti) (c : TerminalConfig) : Terminal :=
  match create rnti c (CellParams.all config) (unusedPools config) with
  | (.ok t, _) => t
  | (.error _, _) => blank rnti c

end MacScheduler.Terminal
