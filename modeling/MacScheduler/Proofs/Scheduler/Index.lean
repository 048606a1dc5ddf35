import MacScheduler.Proofs.Scheduler.Leases
import MacScheduler.Proofs.Terminal.Periods

/-!
# Configuration indices of attached terminals

Every lease of an attached terminal is for the period that its configuration asks
for.  The check of the cells keeps the offsets for scheduling requests inside the
shortest period there is, but those for channel reports only inside the cell's own
period.  A terminal that asks for a shorter one may be given an offset outside of it,
and then its index is that of another period.
-/

namespace MacScheduler

/-- What a resource says about its subframes. -/
def PucchResource.timing (r : PucchResource) : Nat × Nat × Nat := (r.configIdx, r.period, r.offset)

/-- The offsets fall inside the periods that they are checked against. -/
theorem PucchConfig.offsets_lt {p : PucchConfig} (h : p.brokenRule = none) :
    (∀ offset ∈ p.sr.offsets, offset < 5) ∧ ∀ offset ∈ p.cqi.offsets, offset < p.cqi.period := by
  unfold brokenRule at h
  split_ifs at h with _ _ hsr hcqi
  simp only [List.any_eq_true, decide_eq_true_eq, not_exists, not_and, Nat.not_le] at hsr hcqi
  exact ⟨hsr, hcqi⟩

namespace CellSet

/-- The offsets for channel reports fall inside the period that a terminal asks for. -/
def FitsReports (cells : CellSet) (c : TerminalConfig) : Prop :=
  ∀ period ∈ c.cqiPeriod, ∀ offset ∈ cells.pools.cqi.offsets, offset < period

/-- The pools are those of the configuration, and the terminals lease from them. -/
structure LeasesTo (cells : CellSet) (r : Roster) : Prop where
  checked : cells.config.check = .ok ()
  like : cells.pools.Like (Terminal.unusedPools cells.config)
  leased : ∀ t ∈ r, t.Leased (Terminal.unusedPools cells.config)

variable {cells : CellSet} {r : Roster}

theorem gridded (cells : CellSet) : (Terminal.unusedPools cells.config).Gridded :=
  PucchPools.gridded_ofConfig _ _

theorem leasesTo_of_create {c : Config} (h : create c = .ok cells) : cells.LeasesTo [] := by
  unfold create at h
  cases hcheck : c.check with
  | error e => simp [hcheck] at h
  | ok _ =>
      simp only [hcheck] at h
      cases h
      exact ⟨hcheck, fun _ ↦ rfl, fun _ ht ↦ by cases ht⟩

namespace LeasesTo

variable {t : Terminal} {kind : PucchKind} {l : PucchLease}

/-- The offset of a lease falls inside its period: always that of a scheduling request, and that
of a channel report where the offsets fit. -/
theorem offset_lt (h : cells.LeasesTo r) (ht : t ∈ r) (hl : t.lease? kind = some l)
    (hfits : kind = .cqi → cells.FitsReports t.config) :
    l.resource.offset < l.resource.period := by
  have hissued := h.leased t ht kind l hl
  have hpucch := (Config.of_check h.checked).2.2.1
  rw [PucchConfig.violations, Violation.orSection_eq_nil_iff] at hpucch
  obtain ⟨hsr, hcqi⟩ := PucchConfig.offsets_lt hpucch.2
  cases kind with
  | sr =>
      have hoffset := hsr _ (List.mem_of_mem_take hissued.offset_mem)
      exact Nat.lt_of_lt_of_le hoffset (hissued.shortest_le rfl)
  | cqi =>
      have hperiod := hissued.period_eq
      have hoffsets : cells.pools.cqi.offsets = (Terminal.unusedPools cells.config).cqi.offsets :=
        (PucchPool.of_vacated_eq (h.like .cqi)).2.1
      cases hasked : t.config.cqiPeriod with
      | none =>
          have hdefault : l.resource.period = cells.config.pucch.cqi.period := by
            rw [hperiod, TerminalConfig.period?, hasked]
            rfl
          rw [hdefault]
          exact hcqi _ (List.mem_of_mem_take hissued.offset_mem)
      | some period =>
          have hgiven : l.resource.period = period := by
            rw [hperiod, TerminalConfig.period?, hasked, Option.getD_some]
          rw [hgiven]
          exact hfits rfl period hasked _ (hoffsets ▸ hissued.offset_mem)

end LeasesTo

end CellSet

namespace CarrierPass

theorem leased_observe {u : PucchPools} (hu : u.Gridded) (now : Tti) (carrier : Nat)
    {pools : PucchPools} {roster : Roster} (hpools : pools.Like u) (h : ∀ t ∈ roster, t.Leased u) :
    (∀ t ∈ (observe now carrier pools roster).2.1, t.Leased u) ∧
      (observe now carrier pools roster).2.2.Like u := by
  induction roster generalizing pools with
  | nil => exact ⟨fun _ ht ↦ (by cases ht), hpools⟩
  | cons t roster ih =>
      obtain ⟨hhead, hnext⟩ := (h t List.mem_cons_self).newTti hu hpools now
      obtain ⟨htail, hlike⟩ := ih hnext fun v hv ↦ h v (List.mem_cons_of_mem t hv)
      rw [observe_cons]
      refine ⟨fun v hv ↦ ?_, hlike⟩
      rcases List.mem_cons.mp hv with rfl | hv
      · exact hhead
      · exact htail v hv

theorem leased_schedule {u : PucchPools} (hu : u.Gridded) (c : CarrierPass)
    (order : Direction → List Candidate → List Candidate) (now : Tti) (elapsed : Nat)
    {pools : PucchPools} {roster : Roster} (hnodup : (roster.map (·.rnti)).Nodup)
    (hpools : pools.Like u) (h : ∀ t ∈ roster, t.Leased u) :
    (∀ t ∈ (c.schedule order now elapsed roster pools).2.2.1, t.Leased u) ∧
      (c.schedule order now elapsed roster pools).2.2.2.Like u := by
  obtain ⟨hobserved, hlike⟩ := leased_observe hu now c.params.index hpools h
  obtain ⟨hsame, hpoolsEq⟩ := c.schedule_sameLeases order now elapsed hnodup pools
  refine ⟨fun t' ht' ↦ ?_, hpoolsEq ▸ hlike⟩
  obtain ⟨t, ht, htt'⟩ := hsame.of_mem ht'
  exact (hobserved t ht).of_sameLeases htt'

end CarrierPass

namespace Scheduler

variable {s : Scheduler}

def LeasesTo (s : Scheduler) : Prop := ∀ cells, s.cells = some cells → cells.LeasesTo s.terminals

namespace LeasesTo

theorem configureCells (h : s.LeasesTo) (c : Config) : (s.configureCells c).2.LeasesTo := by
  unfold Scheduler.configureCells
  split
  · exact h
  · rename_i hnone
    cases hcreate : CellSet.create c with
    | error e => exact h
    | ok cells =>
        intro cells' hcells'
        obtain rfl := Option.some.inj hcells'
        rw [Decidable.not_not.mp hnone]
        exact CellSet.leasesTo_of_create hcreate

theorem configureTerminal (h : s.LeasesTo) (rnti : Rnti) (c : TerminalConfig) :
    (s.configureTerminal rnti c).2.LeasesTo := by
  unfold Scheduler.configureTerminal
  cases hcells : s.cells with
  | none => exact h
  | some cells =>
      obtain ⟨hchecked, hlike, hleased⟩ := h cells hcells
      dsimp only
      cases hget : s.terminals.get? rnti with
      | some t =>
          obtain ⟨ht, hpools⟩ :=
            (hleased t (Roster.of_get? hget).1).setConfig cells.gridded hlike cells.params c
          rintro _ ⟨⟩
          refine ⟨hchecked, hpools, fun v hv ↦ ?_⟩
          rcases Roster.mem_update hv with rfl | hv
          · exact ht
          · exact hleased v hv
      | none =>
          obtain ⟨ht, hpools⟩ := Terminal.create_leased cells.gridded hlike rnti c cells.params
          dsimp only
          generalize Terminal.create rnti c cells.params cells.pools = out at ht hpools ⊢
          obtain ⟨e | t, pools⟩ := out
          · rintro _ ⟨⟩
            exact ⟨hchecked, hpools, hleased⟩
          · rintro _ ⟨⟩
            refine ⟨hchecked, hpools, fun v hv ↦ ?_⟩
            rcases Roster.mem_insert hv with rfl | hv
            · exact ht v rfl
            · exact hleased v hv

theorem removeTerminal (h : s.LeasesTo) (rnti : Rnti) : (s.removeTerminal rnti).2.LeasesTo := by
  unfold Scheduler.removeTerminal
  split
  · exact h
  · rename_i t _
    intro cells' hcells'
    obtain ⟨cells, hcells, rfl⟩ := Option.map_eq_some_iff.mp hcells'
    obtain ⟨hchecked, hlike, hleased⟩ := h cells hcells
    exact ⟨hchecked, Terminal.like_leave hlike t, fun v hv ↦ hleased v (List.mem_of_mem_filter hv)⟩

theorem act (h : s.LeasesTo) (rnti : Rnti) (action : Terminal.Action) :
    (s.act rnti action).2.LeasesTo := by
  unfold Scheduler.act
  cases hget : s.terminals.get? rnti with
  | none => exact h
  | some t =>
      intro cells hcells
      obtain ⟨hchecked, hlike, hleased⟩ := h cells hcells
      refine ⟨hchecked, hlike, fun v hv ↦ ?_⟩
      rcases Roster.mem_update hv with rfl | hv
      · exact (hleased t (Roster.of_get? hget).1).of_sameLeases (.perform t action)
      · exact hleased v hv

theorem pull (h : s.LeasesTo) (ha : s.Attached) (hconf : s.Configured) (now : Tti)
    (carrier elapsed : Nat) : (s.pull now carrier elapsed).2.LeasesTo := by
  cases hpoint : s.passPoint? (.pull now carrier elapsed) with
  | none =>
      rw [pull_of_passPoint?_eq_none hpoint]
      exact h
  | some t =>
      obtain ⟨_, _, cells, pass, ⟨⟩, hcells, hpass, hadmits⟩ := exists_of_passPoint? hpoint
      obtain ⟨res, hres, heq⟩ :=
        pull_of_admits hcells hpass hadmits (hconf.pass_counted hcells hpass) elapsed
      obtain ⟨hchecked, hlike, hleased⟩ := h cells hcells
      obtain ⟨hafter, hpools⟩ := CarrierPass.leased_schedule cells.gridded pass
        (cells.policy.prioritize now carrier) now elapsed ha.nodup hlike hleased
      rw [← hres] at hafter hpools
      rw [heq]
      rintro _ ⟨⟩
      exact ⟨hchecked, hpools, hafter⟩

theorem handle (h : s.LeasesTo) (ha : s.Attached) (hconf : s.Configured) (r : Request) :
    (s.handle r).2.LeasesTo := by
  cases r with
  | configureCells c => exact h.configureCells c
  | configureTerminal rnti c => exact h.configureTerminal rnti c
  | removeTerminal rnti => exact h.removeTerminal rnti
  | act rnti action => exact h.act rnti action
  | pull now carrier elapsed => exact h.pull ha hconf now carrier elapsed

end LeasesTo

theorem Reachable.leasesTo (h : s.Reachable) : s.LeasesTo := by
  induction h with
  | start => exact fun _ hcells ↦ by cases hcells
  | step hs r ih => exact ih.handle hs.attached hs.configured r

/-- Where the offsets for channel reports fit the periods that the terminals ask for, every
resource has its offset inside its period, and among the resources of a kind, leased at whatever
time, the configuration index names the period and the offset. -/
theorem config_index_names_resource {s' : Scheduler} (h : s.Reachable) (h' : s'.Reachable)
    {cells cells' : CellSet} (hcells : s.cells = some cells) (hcells' : s'.cells = some cells')
    {t t' : Terminal} (ht : t ∈ s.terminals) (ht' : t' ∈ s'.terminals) {kind : PucchKind}
    {a b : PucchLease} (ha : t.lease? kind = some a) (hb : t'.lease? kind = some b)
    (hfits : kind = .cqi → cells.FitsReports t.config)
    (hfits' : kind = .cqi → cells'.FitsReports t'.config) :
    a.resource.offset < a.resource.period ∧ b.resource.offset < b.resource.period ∧
      (a.resource.configIdx = b.resource.configIdx →
        a.resource.period = b.resource.period ∧ a.resource.offset = b.resource.offset) := by
  have hleases := h.leasesTo cells hcells
  have hleases' := h'.leasesTo cells' hcells'
  have hlt := hleases.offset_lt ht ha hfits
  have hlt' := hleases'.offset_lt ht' hb hfits'
  refine ⟨hlt, hlt', fun hindex ↦ ?_⟩
  have hissued := hleases.leased t ht kind a ha
  have hissued' := hleases'.leased t' ht' kind b hb
  have hkind : ((Terminal.unusedPools cells'.config).pool kind).kind =
      ((Terminal.unusedPools cells.config).pool kind).kind := by cases kind <;> rfl
  have hidx := hissued.configIdx_eq
  have hidx' := hissued'.configIdx_eq
  rw [← hissued.period_eq] at hidx
  rw [← hissued'.period_eq, ← hindex] at hidx'
  exact PucchPool.configIdx?_inj hkind hidx hidx' hlt hlt'

/-- Two terminals with the given periods for channel reports, in a cell with a period of its own
of forty subframes and offsets up to twenty. -/
def reporters (first second : Option Nat) : Scheduler :=
  let pucch : PucchConfig := { cqi := { nofSubframes := 3, offsets := [20, 10, 5], period := 40 } }
  let s₀ := (({} : Scheduler).handle (.configureCells { pucch })).2
  let s₁ := (s₀.handle (.configureTerminal ⟨70⟩ { cqiPeriod := first })).2
  (s₁.handle (.configureTerminal ⟨71⟩ { cqiPeriod := second })).2

theorem reachable_reporters (first second : Option Nat) : (reporters first second).Reachable :=
  .step (.step (.step .start _) _) _

theorem reporters_index_names_resource :
    ∃ t ∈ (reporters (some 32) none).terminals, ∃ t' ∈ (reporters (some 32) none).terminals,
      ∃ a b, t.lease? .cqi = some a ∧ t'.lease? .cqi = some b ∧
        a.resource.configIdx = 338 ∧ b.resource.configIdx = 47 ∧
        a.resource.offset < a.resource.period ∧ b.resource.offset < b.resource.period := by
  obtain ⟨cells, hcells, hoffsets⟩ : ∃ cells, (reporters (some 32) none).cells = some cells ∧
      cells.pools.cqi.offsets = [20, 10, 5] :=
    Option.map_eq_some_iff.mp (by decide +kernel)
  obtain ⟨t, ht, hperiod, hlease⟩ : ∃ t ∈ (reporters (some 32) none).terminals,
      t.config.cqiPeriod = some 32 ∧ (t.lease? .cqi).map (·.resource.configIdx) = some 338 := by
    decide +kernel
  obtain ⟨t', ht', hperiod', hlease'⟩ : ∃ t ∈ (reporters (some 32) none).terminals,
      t.config.cqiPeriod = none ∧ (t.lease? .cqi).map (·.resource.configIdx) = some 47 := by
    decide +kernel
  obtain ⟨a, ha, hidx⟩ := Option.map_eq_some_iff.mp hlease
  obtain ⟨b, hb, hidx'⟩ := Option.map_eq_some_iff.mp hlease'
  have hfits : cells.FitsReports t.config := by
    rw [CellSet.FitsReports, hperiod, hoffsets]
    decide
  have hfits' : cells.FitsReports t'.config := by
    rw [CellSet.FitsReports, hperiod', hoffsets]
    decide
  have hreachable := reachable_reporters (some 32) none
  obtain ⟨hlt, hlt', -⟩ := config_index_names_resource hreachable hreachable hcells hcells ht ht'
    ha hb (fun _ ↦ hfits) (fun _ ↦ hfits')
  exact ⟨t, ht, t', ht', a, b, ha, hb, hidx, hidx', hlt, hlt'⟩

/-- Where the offsets do not fit the period that a terminal asks for, its index may be that of
another period: two resources have one index and differ in both. -/
theorem index_names_two_resources :
    (reporters (some 10) (some 20)).Reachable ∧
    ∃ t ∈ (reporters (some 10) (some 20)).terminals,
      ∃ t' ∈ (reporters (some 10) (some 20)).terminals,
        ∃ a b, t.lease? .cqi = some a ∧ t'.lease? .cqi = some b ∧
          a.resource.configIdx = b.resource.configIdx ∧
          (a.resource.period = 10 ∧ a.resource.offset = 20) ∧
          b.resource.period = 20 ∧ b.resource.offset = 10 := by
  obtain ⟨t, ht, hlease⟩ : ∃ t ∈ (reporters (some 10) (some 20)).terminals,
      (t.lease? .cqi).map (·.resource.timing) = some (27, 10, 20) := by
    decide +kernel
  obtain ⟨t', ht', hlease'⟩ : ∃ t ∈ (reporters (some 10) (some 20)).terminals,
      (t.lease? .cqi).map (·.resource.timing) = some (27, 20, 10) := by
    decide +kernel
  obtain ⟨a, ha, htiming⟩ := Option.map_eq_some_iff.mp hlease
  obtain ⟨b, hb, htiming'⟩ := Option.map_eq_some_iff.mp hlease'
  simp only [PucchResource.timing, Prod.mk.injEq] at htiming htiming'
  exact ⟨reachable_reporters _ _, t, ht, t', ht', a, b, ha, hb, htiming.1.trans htiming'.1.symm,
    htiming.2, htiming'.2⟩

end Scheduler

end MacScheduler
