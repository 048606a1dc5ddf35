import MacScheduler.Proofs.Harq.Timeline
import MacScheduler.Proofs.Scheduler.Sweeps

/-!
# Grants on the timeline

On a carrier whose round trip divides the turn of the clock, every transmission uses the
process that its point is mapped to.  A block is sent again one round trip after the last
time, and that point is mapped to the same process.  New data are asked for only where
nothing is due, and there the mapped process is free.
-/

namespace MacScheduler

theorem HarqConfig.roundTrip_dvd_period_iff {c : HarqConfig} (hv : c.violations = []) :
    c.roundTrip ∣ Tti.period ↔ c.roundTrip = 8 ∨ c.roundTrip = 10 ∨ c.roundTrip = 16 := by
  obtain ⟨hlower, hupper⟩ := roundTrip_bounds hv
  have hcases : ∀ r ≤ 16, 8 ≤ r → (r ∣ Tti.period ↔ r = 8 ∨ r = 10 ∨ r = 16) := by decide
  exact hcases _ hupper hlower

/-! ## Rosters -/

namespace Roster

variable {α : Type} {tab : Link → HarqTable α} {cells : List CellParams} {r r' : Roster}

/-- On the carriers whose round trip divides the turn of the clock, what is in flight was sent
at a point mapped to its process. -/
def Synced (tab : Link → HarqTable α) (cells : List CellParams) (r : Roster) : Prop :=
  ∀ c p f, cells[c]? = some p → p.harq.roundTrip ∣ Tti.period → r.Flies tab c f →
    f.pid = f.sent.index % p.harq.roundTrip

theorem Synced.nil (tab : Link → HarqTable α) (cells : List CellParams) :
    Synced tab cells [] := by
  simp [Synced, Flies]

theorem Synced.fades (h : r.Synced tab cells) (hf : r.Fades tab r') : r'.Synced tab cells :=
  fun c p f hp hdvd hflies ↦ h c p f hp hdvd (hf.flies hflies)

/-- What is sent on one carrier on the process mapped to its point keeps the roster synced. -/
theorem Synced.send (h : r.Synced tab cells) {carrier : Nat} {p : CellParams}
    (hp : cells[carrier]? = some p)
    (hback : ∀ c f, r'.Flies tab c f → r.Flies tab c f ∨ c = carrier ∧
      (p.harq.roundTrip ∣ Tti.period → f.pid = f.sent.index % p.harq.roundTrip)) :
    r'.Synced tab cells := by
  intro c q f hq hdvd hflies
  rcases hback c f hflies with hold | ⟨rfl, hnew⟩
  · exact h c q f hq hdvd hold
  · obtain rfl := Option.some.inj (hp.symm.trans hq)
    exact hnew hdvd

theorem Synced.table (h : r.Synced tab cells) {t : Terminal} (ht : t ∈ r) {l : Link}
    (hl : l ∈ t.links) {p : CellParams} (hp : cells[l.carrier]? = some p)
    (hdvd : p.harq.roundTrip ∣ Tti.period) {tx : Tti}
    (hsteady : (tab l).Steady p.harq.roundTrip tx) : (tab l).Synced := by
  intro q hq hbusy
  obtain ⟨sent, alloc, hsent, hflies⟩ := flies_of_busy ht hl hsteady hq hbusy
  refine ⟨sent, hsent, ?_⟩
  have hpid := h _ p _ hp hdvd hflies
  rwa [← hsteady.roundTrip_eq] at hpid

section

variable {overlaps : α → α → Bool} {retx : Snapshot → Option (RetxRequest α)} {now tx : Tti}
  {carrier : Nat} {p : CellParams} (h : r.Synced tab cells)
  (hready : r.Ready tab overlaps retx cells now carrier p.harq.roundTrip tx)
  (hp : cells[carrier]? = some p) (hdvd : p.harq.roundTrip ∣ Tti.period)

include h hready hp hdvd

/-- What is sent again was sent one round trip before, on the process mapped to both points. -/
theorem Synced.pid_of_retx {s : Snapshot} (hs : s ∈ r.snapshots now carrier) {q : RetxRequest α}
    (hq : retx s = some q) : q.pid = tx.index % p.harq.roundTrip := by
  obtain ⟨proc, hdue, hpid, -⟩ := hready.due_of_retx hs hq
  obtain ⟨f, hf, -, hfpid, -, hsent⟩ := hready.keeps.flight hready.short hdue
  rw [hsent, Tti.index_add_self_mod hdvd, ← hpid, ← hfpid]
  exact h carrier p f hp hdvd hf

variable (hpos : 0 < p.harq.roundTrip) (hfresh : ∀ f, r.Flies tab carrier f → f.sent ≠ tx)
  {t : Terminal} (ht : t ∈ r) {l : Link} (hl : t.link? carrier = some l) {s : Snapshot}
  (hs : t.snapshot? now carrier = some s) (hnone : retx s = none)

include hpos hfresh ht hl hs hnone

/-- Where nothing is due, the mapped process is free. -/
theorem Synced.mapsFree : (tab l).MapsFree tx := by
  obtain ⟨hlmem, rfl⟩ := Terminal.of_link? hl
  have hsteady := hready.keeps t ht l hlmem rfl
  obtain ⟨s', hs', hshows⟩ := (hready.steady t ht).shows hl
  obtain rfl := Option.some.inj (hs.symm.trans hs')
  apply hsteady.mapsFree hpos hdvd (h.table ht hlmem hp hdvd hsteady)
  · intro q hq hbusy hsent
    obtain ⟨sent, alloc, hsent', hflies⟩ := flies_of_busy ht hlmem hsteady hq hbusy
    exact hfresh _ hflies (Option.some.inj (hsent'.symm.trans hsent))
  · exact hsteady.quiet_of_retxRequest? ((hready.asks t l s hshows).symm.trans hnone)

theorem Synced.emptyProcess? : (tab l).emptyProcess? tx = some (tx.index % p.harq.roundTrip) := by
  obtain ⟨hlmem, hcarrier⟩ := Terminal.of_link? hl
  rw [(h.mapsFree hready hp hdvd hpos hfresh ht hl hs hnone).emptyProcess?,
    ← (hready.keeps t ht l hlmem hcarrier).roundTrip_eq]
  rfl

end

end Roster

/-! ## Plans -/

section

variable {cells : List CellParams} {now : Tti} {served quiet : Nat → Prop} {r : Roster}
  {carrier : Nat} {p : CellParams} (horderly : r.Orderly cells now now served quiet)
  (hcells : CellParams.Listed cells) (hp : cells[carrier]? = some p) (hserved : ¬served carrier)
  (hdvd : p.harq.roundTrip ∣ Tti.period) (order : Direction → List Candidate → List Candidate)

include horderly hcells hp hserved hdvd

theorem Roster.Synced.pid_of_mem_dl (h : r.Synced Link.dl cells) :
    ∀ d ∈ (SubframePlan.make p order (r.snapshots now carrier)).dl,
      d.pid = now.downlinkTx.index % p.harq.roundTrip := by
  intro d hd
  have hready := horderly.ready_dl hcells hp
  have hbounds := HarqConfig.roundTrip_bounds (hcells carrier p hp).2.2
  obtain ⟨s, hs, -, hserves⟩ := SubframePlan.make_dl_serves order _ (hcells.nofPrb_le hp) d hd
  cases hserves with
  | repeats hq hpid => exact hpid.trans (h.pid_of_retx hready hp hdvd hs hq)
  | starts hq hpid =>
      obtain ⟨t, ht, hs⟩ := List.mem_filterMap.mp hs
      obtain ⟨-, l, hl, hasks, -⟩ := Terminal.asks_of_snapshot? hs
      obtain ⟨hnone, -, -, hempty⟩ := hasks.fresh _ hq
      have hmapped := h.emptyProcess? hready hp hdvd (by omega)
        (horderly.dl_fresh carrier hserved) ht hl hs hnone
      exact hpid.trans (Option.some.inj (hempty.symm.trans hmapped))

theorem Roster.Synced.pid_of_mem_ul (h : r.Synced Link.ul cells) :
    ∀ u ∈ (SubframePlan.make p order (r.snapshots now carrier)).ul,
      u.pid = now.uplinkTx.index % p.harq.roundTrip := by
  intro u hu
  have hready := horderly.ready_ul hcells hp
  have hbounds := HarqConfig.roundTrip_bounds (hcells carrier p hp).2.2
  obtain ⟨s, hs, -, hserves⟩ := SubframePlan.make_ul_serves order _ (hcells.nofPrb_le hp) u hu
  cases hserves with
  | repeats hq hpid => exact hpid.trans (h.pid_of_retx hready hp hdvd hs hq)
  | starts hq hpid =>
      obtain ⟨t, ht, hs⟩ := List.mem_filterMap.mp hs
      obtain ⟨-, l, hl, -, hasks⟩ := Terminal.asks_of_snapshot? hs
      obtain ⟨hnone, -, -, hempty⟩ := hasks.fresh _ hq
      have hmapped := h.emptyProcess? hready hp hdvd (by omega)
        (horderly.ul_fresh carrier hserved) ht hl hs hnone
      exact hpid.trans (Option.some.inj (hempty.symm.trans hmapped))

end

/-! ## Runs -/

/-- If the round trip of its carrier divides the turn of the clock, every grant of the pass
uses the process that its point is mapped to. -/
def RanPass.OnTimeline (e : RanPass) : Prop :=
  e.params.harq.roundTrip ∣ Tti.period →
    (∀ g ∈ e.result.dl, g.pid = g.txTti.index % e.params.harq.roundTrip) ∧
    ∀ g ∈ e.result.ul, g.pid = g.txTti.index % e.params.harq.roundTrip

/-- Where the snapshot of a terminal asks for no retransmission in a direction, the process
mapped to the point that it plans for is free. -/
structure Terminal.FindsMapped (now : Tti) (carrier : Nat) (t : Terminal) : Prop where
  dl : ∀ l s, t.link? carrier = some l → t.snapshot? now carrier = some s → s.dlRetx = none →
    l.dl.MapsFree now.downlinkTx
  ul : ∀ l s, t.link? carrier = some l → t.snapshot? now carrier = some s → s.ulRetx = none →
    l.ul.MapsFree now.uplinkTx

theorem Roster.findsMapped {cells : List CellParams} {now : Tti} {served quiet : Nat → Prop}
    {r : Roster} {carrier : Nat} {p : CellParams} (horderly : r.Orderly cells now now served quiet)
    (hcells : CellParams.Listed cells) (hp : cells[carrier]? = some p) (hserved : ¬served carrier)
    (hdvd : p.harq.roundTrip ∣ Tti.period) (hdl : r.Synced Link.dl cells)
    (hul : r.Synced Link.ul cells) : ∀ t ∈ r, t.FindsMapped now carrier := by
  intro t ht
  obtain ⟨hbound, -⟩ := HarqConfig.roundTrip_bounds (hcells carrier p hp).2.2
  have hpos : 0 < p.harq.roundTrip := by omega
  constructor
  · intro l s hl hs hnone
    exact hdl.mapsFree (horderly.ready_dl hcells hp) hp hdvd hpos
      (horderly.dl_fresh carrier hserved) ht hl hs hnone
  · intro l s hl hs hnone
    exact hul.mapsFree (horderly.ready_ul hcells hp) hp hdvd hpos
      (horderly.ul_fresh carrier hserved) ht hl hs hnone

namespace Scheduler

variable {s s' : Scheduler} {n : Nat} {waiting : List Nat} {log : List RanPass} {cells : CellSet}

namespace Executes

variable {carrier : Nat} {e : RanPass} {before : Roster} {plan : SubframePlan}

theorem pid_of_mem_dl (h : Executes cells n carrier s s' e before plan)
    (hs : s.terminals.Synced Link.dl cells.params) (hdvd : e.params.harq.roundTrip ∣ Tti.period) :
    ∀ d ∈ plan.dl, d.pid = (Tti.ofNat n).downlinkTx.index % e.params.harq.roundTrip := by
  obtain ⟨order, -, rfl⟩ := h.planned
  exact (hs.fades h.fades_dl).pid_of_mem_dl h.orderly h.listed h.params h.not_served hdvd order

theorem pid_of_mem_ul (h : Executes cells n carrier s s' e before plan)
    (hs : s.terminals.Synced Link.ul cells.params) (hdvd : e.params.harq.roundTrip ∣ Tti.period) :
    ∀ u ∈ plan.ul, u.pid = (Tti.ofNat n).uplinkTx.index % e.params.harq.roundTrip := by
  obtain ⟨order, -, rfl⟩ := h.planned
  exact (hs.fades h.fades_ul).pid_of_mem_ul h.orderly h.listed h.params h.not_served hdvd order

theorem synced_dl (h : Executes cells n carrier s s' e before plan)
    (hs : s.terminals.Synced Link.dl cells.params) :
    s'.terminals.Synced Link.dl cells.params := by
  refine (hs.fades h.fades_dl).send h.params fun c f hf ↦ (h.flies_dl c f hf).imp_right ?_
  rintro ⟨hc, hsent, d, hd, -, hpid, -⟩
  refine ⟨hc, fun hdvd ↦ ?_⟩
  rw [hsent, ← hpid]
  exact h.pid_of_mem_dl hs hdvd d hd

theorem synced_ul (h : Executes cells n carrier s s' e before plan)
    (hs : s.terminals.Synced Link.ul cells.params) :
    s'.terminals.Synced Link.ul cells.params := by
  refine (hs.fades h.fades_ul).send h.params fun c f hf ↦ (h.flies_ul c f hf).imp_right ?_
  rintro ⟨hc, hsent, u, hu, -, hpid, -⟩
  refine ⟨hc, fun hdvd ↦ ?_⟩
  rw [hsent, ← hpid]
  exact h.pid_of_mem_ul hs hdvd u hu

theorem onTimeline (h : Executes cells n carrier s s' e before plan)
    (hdl : s.terminals.Synced Link.dl cells.params)
    (hul : s.terminals.Synced Link.ul cells.params) : e.OnTimeline := by
  intro hdvd
  constructor
  · intro g hg
    have hmem : g.sending ∈ e.result.dlSendings := List.mem_map_of_mem hg
    rw [h.dl] at hmem
    obtain ⟨d, hd, heq⟩ := List.mem_map.mp hmem
    have hpid : d.pid = g.pid := congrArg Sending.pid heq
    have htx : (Tti.ofNat n).downlinkTx = g.txTti := congrArg Sending.tx heq
    rw [← hpid, ← htx]
    exact h.pid_of_mem_dl hdl hdvd d hd
  · intro g hg
    have hmem : g.sending ∈ e.result.ulSendings := List.mem_map_of_mem hg
    rw [h.ul] at hmem
    obtain ⟨u, hu, heq⟩ := List.mem_map.mp hmem
    have hpid : u.pid = g.pid := congrArg Sending.pid heq
    have htx : (Tti.ofNat n).uplinkTx = g.txTti := congrArg Sending.tx heq
    rw [← hpid, ← htx]
    exact h.pid_of_mem_ul hul hdvd u hu

end Executes

/-- The terminals are synced in both directions, and so were all grants. -/
structure SyncedOn (cells : CellSet) (log : List RanPass) (r : Roster) : Prop where
  dl : r.Synced Link.dl cells.params
  ul : r.Synced Link.ul cells.params
  granted : ∀ e ∈ log, e.OnTimeline

theorem invariant_synced : Sweeps.Invariant fun cells _ _ log r ↦ SyncedOn cells log r where
  start := fun cells _ ↦ ⟨.nil _ _, .nil _ _, by simp⟩
  replaced := fun hsynced ↦ ⟨.nil _ _, .nil _ _, hsynced.granted⟩
  eased := by
    intro cells after n waiting log r r' now hpasses heased hsynced
    have hparams := CellSet.params_of_passes hpasses
    refine ⟨?_, ?_, hsynced.granted⟩
    · exact hparams ▸ hsynced.dl.fades heased.fades_dl
    · exact hparams ▸ hsynced.ul.fades heased.fades_ul
  idle := fun _ hsynced ↦ hsynced
  pass := by
    intro cells after n carrier s s' e before plan waiting waiting' log _ hexecutes hparams hsynced
    refine ⟨?_, ?_, ?_⟩
    · exact hparams ▸ hexecutes.synced_dl hsynced.dl
    · exact hparams ▸ hexecutes.synced_ul hsynced.ul
    · intro e' he'
      rcases List.mem_cons.mp he' with rfl | he'
      · exact hexecutes.onTimeline hsynced.dl hsynced.ul
      · exact hsynced.granted e' he'
  next := fun _ _ hsynced ↦ hsynced

/-- Where the round trip divides the turn of the clock, which is so for round trips of 8, 10
and 16 subframes, every grant uses the process that its point is mapped to, every unresolved
process is mapped to the point it was sent at, and whenever a pass plans without a
retransmission the mapped process is free. -/
theorem grants_keep_to_timeline (h : s.Sweeps n waiting log) :
    (∀ e ∈ log, e.OnTimeline) ∧ ∃ cells, s.cells = some cells ∧
      (∀ p ∈ cells.params, p.harq.roundTrip ∣ Tti.period ↔
        p.harq.roundTrip = 8 ∨ p.harq.roundTrip = 10 ∨ p.harq.roundTrip = 16) ∧
      (∀ t ∈ s.terminals, ∀ l ∈ t.links, l.params.harq.roundTrip ∣ Tti.period →
        l.dl.Synced ∧ l.ul.Synced) ∧
      ∀ carrier pass, cells.passes[carrier]? = some pass → pass.Admits (.ofNat n) →
        pass.params.harq.roundTrip ∣ Tti.period →
          ∀ t ∈ (CarrierPass.observe (.ofNat n) carrier cells.pools s.terminals).2.1,
            t.FindsMapped (.ofNat n) carrier := by
  obtain ⟨cells, hcells, hswept, hsynced⟩ := h.of_invariant invariant_synced
  have hlisted := hswept.configured.listed
  refine ⟨hsynced.granted, cells, hcells, ?_, ?_, ?_⟩
  · intro p hp
    obtain ⟨i, hi⟩ := List.mem_iff_getElem?.mp hp
    exact HarqConfig.roundTrip_dvd_period_iff (hlisted i p hi).2.2
  · intro t ht l hl hdvd
    obtain ⟨_, -, horderly⟩ := hswept.roster
    have hsteady := horderly.steady t ht
    constructor
    · exact hsynced.dl.table ht hl (hsteady.params l hl) hdvd (hsteady.links l hl).dl
    · exact hsynced.ul.table ht hl (hsteady.params l hl) hdvd (hsteady.links l hl).ul
  · intro carrier pass hpass hadmits hdvd
    obtain ⟨⟨_, _, hpassed⟩, horderly⟩ := hswept.observe carrier cells.pools
    exact Roster.findsMapped horderly hlisted (CellSet.params_of_pass hpass)
      (CellSet.Swept.not_served hpass hadmits) hdvd (hsynced.dl.fades hpassed.fades_dl)
      (hsynced.ul.fades hpassed.fades_ul)

/-- An uplink block is sent and sent again, the clock goes round in few steps, and another
block is sent. -/
def acrossTurn : Scheduler × List RanPass :=
  let x := sweepAlone (uplinkRun 0, []) 0 [1, 7]
  let s := (x.1.handle (.act ⟨70⟩ (.acknowledgeUplink (.ofNat 9) 0 false))).2
  let y := sweepAlone (s, x.2) 8 [1, 5000, 5000]
  sweepAlone ((y.1.handle (.act ⟨70⟩ .requestUplink)).2, y.2) 10009 [300]

theorem sweeps_acrossTurn : acrossTurn.1.Sweeps 10309 [] acrossTurn.2 := by
  have hsent := ((sweeps_uplinkRun 0).sweepAlone (r := 8) (by decide +kernel) [1, 7] (by decide)).1
  have hlost := hsent.request (r := .act ⟨70⟩ (.acknowledgeUplink (.ofNat 9) 0 false)) rfl
  have hturned := (hlost.sweepAlone (r := 8) (by decide +kernel) [1, 5000, 5000] (by decide)).1
  have hasked := hturned.request (r := .act ⟨70⟩ .requestUplink) rfl
  exact (hasked.sweepAlone (r := 8) (by decide +kernel) [300] (by decide)).1

theorem acrossTurn_keeps_to_timeline :
    (acrossTurn.2.map fun e ↦ e.result.ul.map fun g ↦ (g.pid, g.txTti.index, g.tb.isRetx)) =
      [[(5, 77, false)], [], [], [(1, 17, true)], [], [(1, 9, false)]] ∧
    (∀ e ∈ acrossTurn.2, ∀ g ∈ e.result.ul, g.pid = g.txTti.index % 8) ∧
    ∀ t ∈ acrossTurn.1.terminals, ∀ l ∈ t.links, l.params.harq.roundTrip = 8 → l.ul.Synced := by
  have hround : ∀ e ∈ acrossTurn.2, e.params.harq.roundTrip = 8 := by decide +kernel
  have hgrants : (acrossTurn.2.map fun e ↦
      e.result.ul.map fun g ↦ (g.pid, g.txTti.index, g.tb.isRetx)) =
        [[(5, 77, false)], [], [], [(1, 17, true)], [], [(1, 9, false)]] := by
    decide +kernel
  obtain ⟨htimeline, cells, -, -, hsynced, -⟩ := grants_keep_to_timeline sweeps_acrossTurn
  refine ⟨hgrants, ?_, ?_⟩
  · intro e he
    have hdvd : e.params.harq.roundTrip ∣ Tti.period := by
      rw [hround e he]
      decide
    have hpids := (htimeline e he hdvd).2
    rwa [hround e he] at hpids
  · intro t ht l hl hr
    have hdvd : l.params.harq.roundTrip ∣ Tti.period := by
      rw [hr]
      decide
    exact (hsynced t ht l hl hdvd).2

end Scheduler

end MacScheduler
