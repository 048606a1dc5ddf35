import MacScheduler.Proofs.Scheduler.Attached
import MacScheduler.Proofs.Scheduler.Retransmissions
import MacScheduler.Proofs.Terminal.Ready

/-!
# Plans are fulfilled

A plan is made from snapshots and changes no terminal, and its grants are made one
after the other on terminals that change meanwhile.  They never disagree: every entry
asks for what its terminal is ready to grant, entries of one direction are for
different terminals, and the grants of the downlink leave the uplink alone.  So every
entry becomes a grant, and what a terminal is not granted it keeps.
-/

namespace MacScheduler

/-- The grant made for an entry: on its process and resources, and a retransmission just
where the terminal's snapshot asks for that of the process. -/
structure DlPlan.Granted (snapshots : List Snapshot) (d : DlPlan) (g : DlGrant) : Prop where
  rnti_eq : g.rnti = d.rnti
  pid_eq : g.pid = d.pid
  mask_eq : g.mask = d.mask
  dci_eq : g.dci = d.dci
  seen : ∃ s ∈ snapshots, s.rnti = d.rnti
  isRetx_iff : ∀ s ∈ snapshots, s.rnti = d.rnti →
    (g.isRetx = true ↔ ∃ q, s.dlRetx = some q ∧ q.pid = d.pid)

structure UlPlan.Granted (snapshots : List Snapshot) (u : UlPlan) (g : UlGrant) : Prop where
  rnti_eq : g.rnti = u.rnti
  pid_eq : g.pid = u.pid
  interval_eq : g.interval = u.interval
  dci_eq : g.dci = u.dci
  seen : ∃ s ∈ snapshots, s.rnti = u.rnti
  isRetx_iff : ∀ s ∈ snapshots, s.rnti = u.rnti →
    (g.tb.isRetx = true ↔ ∃ q, s.ulRetx = some q ∧ q.pid = u.pid)

/-! ## One side -/

namespace CarrierPass

variable (tx : Tti) (carrier : Nat)

theorem uplinkSide_committed (plans : List DlPlan) (t : Terminal) :
    (committed DlPlan.rnti (grantDl tx carrier) plans t).uplinkSide = t.uplinkSide :=
  committed_rel (R := fun t t' ↦ t'.uplinkSide = t.uplinkSide) (fun _ ↦ rfl)
    (fun p t ↦ t.uplinkSide_grantDownlink tx p.pid p.mask p.dci) plans t

theorem downlinkSide_committed (plans : List UlPlan) (t : Terminal) :
    (committed UlPlan.rnti (grantUl tx carrier) plans t).downlinkSide = t.downlinkSide :=
  committed_rel (R := fun t t' ↦ t'.downlinkSide = t.downlinkSide) (fun _ ↦ rfl)
    (fun p t ↦ t.downlinkSide_grantUplink tx p.pid p.interval p.dci) plans t

theorem lives_committed (plans : List DlPlan) (t : Terminal) :
    t.Lives (committed DlPlan.rnti (grantDl tx carrier) plans t) :=
  committed_rel .refl (fun p t ↦ .of_changes (.grantDownlink t tx carrier p.pid p.mask p.dci))
    plans t

end CarrierPass

/-! ## One entry -/

namespace Terminal

open CarrierPass

variable {now : Tti} {t : Terminal} {carrier : Nat} {l : Link} {s : Snapshot}

theorem AsksDl.exists_grant (h : t.AsksDl now l s) (hl : t.link? carrier = some l) (hf : l.Formed)
    {d : DlPlan} (hd : d.Serves l.params s) :
    ∃ g, (grantDl now.downlinkTx carrier d t).1 = .ok g ∧
      (g.isRetx = true ↔ ∃ q, s.dlRetx = some q ∧ q.pid = d.pid) := by
  cases hd with
  | repeats hq hpid hcount =>
      obtain ⟨g, hg, hretx⟩ := h.resend hl hf hq hpid hcount d.dci
      exact ⟨g, hg, iff_of_true hretx ⟨_, hq, hpid.symm⟩⟩
  | starts hq hpid _ hblocks =>
      obtain ⟨g, hg, hretx, -⟩ := h.start hl hf hq hpid hblocks d.dci
      exact ⟨g, hg, by simp [hretx, (h.fresh _ hq).1]⟩

theorem AsksUl.exists_grant (h : t.AsksUl now l s) (hl : t.link? carrier = some l) (hf : l.Formed)
    {u : UlPlan} (hu : u.Serves s) :
    ∃ g, (grantUl now.uplinkTx carrier u t).1 = .ok g ∧
      (g.tb.isRetx = true ↔ ∃ q, s.ulRetx = some q ∧ q.pid = u.pid) := by
  cases hu with
  | repeats hq hpid hlen =>
      obtain ⟨g, hg, hretx⟩ := h.resend hl hf hq hpid hlen u.dci
      exact ⟨g, hg, iff_of_true hretx ⟨_, hq, hpid.symm⟩⟩
  | starts hq hpid hlen =>
      obtain ⟨g, hg, hretx⟩ := h.start hl hf hq hpid hlen u.dci
      exact ⟨g, hg, by simp [hretx, (h.fresh _ hq).1]⟩

end Terminal

/-! ## All entries -/

namespace Roster

open CarrierPass SubframePlan

variable {r : Roster} {cells : List CellParams} {now : Tti} {carrier : Nat} {p : CellParams}

/-- The terminal of a snapshot, and the link that it shows. -/
theorem asks_of_mem_snapshots (hrntis : (r.map (·.rnti)).Nodup) (hf : ∀ t ∈ r, t.Formed cells)
    (hp : cells[carrier]? = some p) {s : Snapshot} (hs : s ∈ r.snapshots now carrier) :
    ∃ t l, r.get? s.rnti = some t ∧ t.link? carrier = some l ∧ l.Formed ∧ l.params = p ∧
      t.AsksDl now l s ∧ t.AsksUl now l s := by
  obtain ⟨t, ht, hs⟩ := List.mem_filterMap.mp hs
  obtain ⟨hrnti, l, hl, hdl, hul⟩ := Terminal.asks_of_snapshot? hs
  obtain ⟨hmem, hcarrier⟩ := Terminal.of_link? hl
  have hparams := (hf t ht).params l hmem
  rw [hcarrier, hp] at hparams
  exact ⟨t, l, (get?_eq_some_iff hrntis).mpr ⟨ht, hrnti.symm⟩, hl, (hf t ht).links l hmem,
    (Option.some.inj hparams).symm, hdl, hul⟩

theorem eq_of_mem_snapshots (hrntis : (r.map (·.rnti)).Nodup) {s s' : Snapshot}
    (hs : s ∈ r.snapshots now carrier) (hs' : s' ∈ r.snapshots now carrier)
    (hrnti : s'.rnti = s.rnti) : s' = s :=
  List.inj_on_of_nodup_map (rntis_snapshots hrntis now carrier) hs' hs hrnti

section

variable (hrntis : (r.map (·.rnti)).Nodup) (hf : ∀ t ∈ r, t.Formed cells)
  (hp : cells[carrier]? = some p) (hprb : p.nofPrb ≤ 128) (now : Tti)
  (order : Direction → List Candidate → List Candidate)

include hrntis hf hp hprb

theorem exists_grant_dl : ∀ d ∈ (make p order (r.snapshots now carrier)).dl,
    ∃ t, r.get? d.rnti = some t ∧ ∃ g, (grantDl now.downlinkTx carrier d t).1 = .ok g ∧
      d.Granted (r.snapshots now carrier) g := by
  intro d hd
  obtain ⟨s, hs, hrnti, hserves⟩ := make_dl_serves order _ hprb d hd
  obtain ⟨t, l, hget, hl, hlink, rfl, hasks, -⟩ := asks_of_mem_snapshots hrntis hf hp hs
  obtain ⟨g, hg, hretx⟩ := hasks.exists_grant hl hlink hserves
  have hanswer :=
    (t.grantDownlink_spec now.downlinkTx carrier d.pid d.mask d.dci).answer.2 g hg
  have ht : t.rnti = d.rnti := (of_get? hget).2.trans hrnti.symm
  refine ⟨t, hrnti ▸ hget, g, hg, hanswer.rnti.trans ht, hanswer.pid, hanswer.mask, hanswer.dci,
    ⟨s, hs, hrnti.symm⟩, fun s' hs' hrnti' ↦ ?_⟩
  rw [eq_of_mem_snapshots hrntis hs hs' (hrnti'.trans hrnti)]
  exact hretx

/-- The uplink entries are granted after any downlink grants of the carrier. -/
theorem exists_grant_ul (plans : List DlPlan) :
    ∀ u ∈ (make p order (r.snapshots now carrier)).ul,
      ∃ t, get? (r.map (committed DlPlan.rnti (grantDl now.downlinkTx carrier) plans)) u.rnti =
          some t ∧
        ∃ g, (grantUl now.uplinkTx carrier u t).1 = .ok g ∧
          u.Granted (r.snapshots now carrier) g := by
  intro u hu
  obtain ⟨s, hs, hurnti, hserves⟩ := make_ul_serves order _ hprb u hu
  obtain ⟨t, l, hget, hl, -, -, -, hasks⟩ := asks_of_mem_snapshots hrntis hf hp hs
  obtain ⟨ht, htrnti⟩ := of_get? hget
  have hrnti : ∀ t,
      (committed DlPlan.rnti (grantDl now.downlinkTx carrier) plans t).rnti = t.rnti :=
    rnti_committed (rnti_grantDl now.downlinkTx carrier) plans
  -- the downlink grants changed the terminal, but nothing that its uplink entry relies on
  have hside := uplinkSide_committed now.downlinkTx carrier plans t
  obtain ⟨l', hl', hlside⟩ := Terminal.link?_of_side hside hl
  have hformed := (hf t ht).of_lives (lives_committed now.downlinkTx carrier plans t)
  have hlink := hformed.links l' (Terminal.of_link? hl').1
  obtain ⟨g, hg, hretx⟩ := (hasks.of_side hside hlside).exists_grant hl' hlink hserves
  have hanswer :=
    (Terminal.grantUplink_spec _ now.uplinkTx carrier u.pid u.interval u.dci).answer.2 g hg
  refine ⟨_, by rw [get?_map hrnti, hurnti, hget, Option.map_some], g, hg, hanswer.rnti.trans ?_,
    hanswer.pid, hanswer.interval, hanswer.dci, ⟨s, hs, hurnti.symm⟩, fun s' hs' hrnti' ↦ ?_⟩
  · rw [hrnti, htrnti, hurnti]
  · rw [eq_of_mem_snapshots hrntis hs hs' (hrnti'.trans hurnti)]
    exact hretx

end

end Roster

/-! ## The commit of a pass -/

/-- A terminal after the grants of a result: what has no grant is as it was. -/
structure SubframeResult.Spares (r : SubframeResult) (t t' : Terminal) : Prop where
  rnti_eq : t'.rnti = t.rnti
  downlink : (∀ g ∈ r.dl, g.rnti ≠ t.rnti) → t'.downlinkSide = t.downlinkSide
  uplink : (∀ g ∈ r.ul, g.rnti ≠ t.rnti) → t'.uplinkSide = t.uplinkSide

/-- The plan of point `now` becomes result `r` on terminals `before`, which are `after` then.
Whatever the control region holds, nothing of it is given back. -/
structure SubframePlan.Fulfilled (plan : SubframePlan) (now : Tti) (carrier : Nat)
    (snapshots : List Snapshot) (before after : Roster) (r : SubframeResult) : Prop where
  dl : List.Forall₂ (DlPlan.Granted snapshots) plan.dl r.dl
  ul : List.Forall₂ (UlPlan.Granted snapshots) plan.ul r.ul
  commits : ∃ middle,
    (∀ region, CarrierPass.commitDownlink now.downlinkTx carrier before region plan.dl =
      (r.dl, middle, region)) ∧
    ∀ region, CarrierPass.commitUplink now.uplinkTx carrier middle region plan.ul =
      (r.ul, after, region)
  dcis_eq : r.dcis = plan.region.allocs
  spares : List.Forall₂ r.Spares before after

namespace CarrierPass

variable {c : CarrierPass} {order : Direction → List Candidate → List Candidate} {now : Tti}
  {roster : Roster} {pools : PucchPools} {cells : List CellParams}

theorem spares_afterPass {plan : SubframePlan} {snapshots : List Snapshot} {r : SubframeResult}
    (hdl : List.Forall₂ (DlPlan.Granted snapshots) plan.dl r.dl)
    (hul : List.Forall₂ (UlPlan.Granted snapshots) plan.ul r.ul) (carrier : Nat)
    (before : Roster) : List.Forall₂ r.Spares before (afterPass now carrier plan before) := by
  have hdlRntis : r.dl.map (·.rnti) = plan.dl.map (·.rnti) :=
    map_eq_of_forall₂ hdl fun _ _ h ↦ h.rnti_eq
  have hulRntis : r.ul.map (·.rnti) = plan.ul.map (·.rnti) :=
    map_eq_of_forall₂ hul fun _ _ h ↦ h.rnti_eq
  rw [afterPass, List.map_map]
  refine List.forall₂_map_right_iff.mpr (List.forall₂_same.mpr fun t _ ↦ ?_)
  have hrnti : (committed DlPlan.rnti (grantDl now.downlinkTx carrier) plan.dl t).rnti = t.rnti :=
    rnti_committed (rnti_grantDl now.downlinkTx carrier) plan.dl t
  refine ⟨?_, fun hnone ↦ ?_, fun hnone ↦ ?_⟩
  · exact (rnti_committed (rnti_grantUl now.uplinkTx carrier) plan.ul _).trans hrnti
  · have hnot : t.rnti ∉ plan.dl.map (·.rnti) := by
      rw [← hdlRntis]
      simpa using hnone
    rw [Function.comp_apply, downlinkSide_committed, committed_of_not_mem hnot]
  · have hnot : t.rnti ∉ plan.ul.map (·.rnti) := by
      rw [← hulRntis]
      simpa using hnone
    rw [Function.comp_apply, committed_of_not_mem (hrnti.symm ▸ hnot), uplinkSide_committed]

/-- On the terminals that the plan was made for, each direction is granted in full. -/
theorem commits_plan {before : Roster} {carrier : Nat} {p : CellParams}
    (hrntis : (before.map (·.rnti)).Nodup) (hf : ∀ t ∈ before, t.Formed cells)
    (hp : cells[carrier]? = some p) (hprb : p.nofPrb ≤ 128)
    (horder : ∀ dir cs, (order dir cs).Perm cs) {plan : SubframePlan}
    (hplan : plan = SubframePlan.make p order (before.snapshots now carrier)) :
    ∃ dl ul middle,
      (∀ region, commitDownlink now.downlinkTx carrier before region plan.dl =
        (dl, middle, region)) ∧
      (∀ region, commitUplink now.uplinkTx carrier middle region plan.ul =
        (ul, afterPass now carrier plan before, region)) ∧
      List.Forall₂ (DlPlan.Granted (before.snapshots now carrier)) plan.dl dl ∧
      List.Forall₂ (UlPlan.Granted (before.snapshots now carrier)) plan.ul ul := by
  have hdlNodup := Roster.nodup_plan_dl hrntis hprb horder now carrier
  have hulNodup := Roster.nodup_plan_ul hrntis hprb horder now carrier
  have hdlGrant := Roster.exists_grant_dl hrntis hf hp hprb now order
  have hulGrant := Roster.exists_grant_ul hrntis hf hp hprb now order plan.dl
  rw [← hplan] at hdlNodup hulNodup hdlGrant hulGrant
  have hdlKeep := rnti_grantDl now.downlinkTx carrier
  have hulKeep := rnti_grantUl now.uplinkTx carrier
  obtain ⟨dl, middle, hdlAll, hdl⟩ := exists_grantsAll hdlKeep hdlNodup hdlGrant
  have hmiddle : middle =
      before.map (committed DlPlan.rnti (grantDl now.downlinkTx carrier) plan.dl) := by
    rw [← commitAll_roster hdlKeep hrntis hdlNodup, hdlAll.commitAll_eq]
  obtain ⟨ul, after, hulAll, hul⟩ := exists_grantsAll hulKeep hulNodup (hmiddle ▸ hulGrant)
  have hafter : after = afterPass now carrier plan before := by
    have hmid : (middle.map (·.rnti)).Nodup := by
      rw [hmiddle, rntis_map_committed hdlKeep]
      exact hrntis
    rw [afterPass, ← hmiddle, ← commitAll_roster hulKeep hmid hulNodup, hulAll.commitAll_eq]
  exact ⟨dl, ul, middle, hdlAll.commitDownlink_eq _ _, hafter ▸ hulAll.commitUplink_eq _ _, hdl,
    hul⟩

/-- A pass over well-formed terminals fulfils its plan. -/
theorem schedule_fulfilled (now : Tti) (pools : PucchPools) (hrntis : (roster.map (·.rnti)).Nodup)
    (hf : ∀ t ∈ roster, t.Formed cells) (hp : cells[c.params.index]? = some c.params)
    (hprb : c.params.nofPrb ≤ 128) (horder : ∀ dir cs, (order dir cs).Perm cs) (elapsed : Nat) :
    (c.planOf order now roster pools).Fulfilled now c.params.index
      (c.observed now roster pools).1 (c.observed now roster pools).2.1
      (c.schedule order now elapsed roster pools).2.2.1
      (c.schedule order now elapsed roster pools).1 := by
  obtain ⟨hsnapshots, hsame, -⟩ := observe_spec now c.params.index pools roster
  obtain ⟨dl, ul, middle, hdlCommit, hulCommit, hdl, hul⟩ := commits_plan (hsame ▸ hrntis)
    (c.formed_observed now pools hf) hp hprb horder (planOf_eq c order now roster pools)
  obtain ⟨-, hdlEq, hulEq, hdcis, hrest⟩ := c.schedule_parts order now elapsed roster pools
  have hdownlink : c.downlinkOf order now roster pools =
      (dl, middle, (c.planOf order now roster pools).region) := hdlCommit _
  have huplink : c.uplinkOf order now roster pools =
      (ul, afterPass now c.params.index (c.planOf order now roster pools)
        (c.observed now roster pools).2.1, (c.planOf order now roster pools).region) := by
    rw [uplinkOf, hdownlink]
    exact hulCommit _
  rw [hdownlink] at hdlEq
  rw [huplink] at hulEq hdcis hrest
  have hsnapshots : (c.observed now roster pools).1 =
      (c.observed now roster pools).2.1.snapshots now c.params.index := hsnapshots
  generalize c.schedule order now elapsed roster pools = res at hdlEq hulEq hdcis hrest ⊢
  obtain rfl : dl = res.1.dl := hdlEq.symm
  obtain rfl : ul = res.1.ul := hulEq.symm
  rw [hsnapshots, hrest]
  exact ⟨hdl, hul, ⟨middle, hdlCommit, hulCommit⟩, hdcis, spares_afterPass hdl hul _ _⟩

end CarrierPass

namespace Scheduler

variable {s : Scheduler} {cells : CellSet} {pass : CarrierPass} {now : Tti} {carrier : Nat}

/-- In every reachable state, a pull that runs its pass makes a grant for each entry of the
plan, gives no grant message back and leaves everything that is not granted. -/
theorem plan_fulfilled_of_admits (h : s.Reachable) (hcells : s.cells = some cells)
    (hpass : cells.passes[carrier]? = some pass) (hadmits : pass.Admits now) (elapsed : Nat) :
    ∃ r : SubframeResult, (s.pull now carrier elapsed).1 = r.inTime ∧
      (s.pull now carrier elapsed).2.resultOf? carrier = some r ∧ r.rxTti = now ∧
      (pass.planOf (cells.policy.prioritize now carrier) now s.terminals cells.pools).Fulfilled
        now carrier (pass.observed now s.terminals cells.pools).1
        (pass.observed now s.terminals cells.pools).2.1
        (s.pull now carrier elapsed).2.terminals r := by
  have hprb := h.configured.nofPrb_le hcells hpass
  have hp := CellSet.params_of_pass hpass
  obtain ⟨-, -, rfl⟩ := (h.configured.cells cells hcells).pass hpass
  have horder := cells.policy.prioritize_perm now pass.params.index
  obtain ⟨res, hres, heq⟩ :=
    pull_of_admits hcells hpass hadmits (h.configured.pass_counted hcells hpass) elapsed
  have hfulfilled := CarrierPass.schedule_fulfilled now cells.pools h.attached.nodup
    (h.attached.formed_of_cells hcells) hp hprb horder elapsed
  have hrx := (pass.schedule_parts (cells.policy.prioritize now pass.params.index) now elapsed
    s.terminals cells.pools).1
  rw [← hres] at hfulfilled hrx
  rw [heq]
  refine ⟨res.1, rfl, ?_, hrx, hfulfilled⟩
  rw [resultOf?, Option.bind_some,
    List.getElem?_set_self (List.getElem?_eq_some_iff.mp hpass).1, Option.bind_some]

theorem reachable_uplinkRun (n : Nat) : (uplinkRun n).Reachable := by
  induction n with
  | zero => exact ((Reachable.start.step (.configureCells {})).step _).step _
  | succ n ih => exact ih.step _

/-- A lost uplink block, and a control element to send. -/
def bothWays : Scheduler := (lostBlock.handle (.act ⟨70⟩ (.pushCe (.timingAdvance 3)))).2

/-- The block is sent again without a message, and the element goes out in new data. -/
theorem plan_fulfilled_bothWays :
    ∃ (cells : CellSet) (pass : CarrierPass) (r : SubframeResult),
      bothWays.cells = some cells ∧ cells.passes[0]? = some pass ∧ pass.Admits (Tti.ofNat 9) ∧
      (bothWays.pull (Tti.ofNat 9) 0 10).2.resultOf? 0 = some r ∧
      r.dl.map (fun g ↦ (g.pid, g.isRetx)) = [(5, false)] ∧
      r.ul.map (fun g ↦ (g.pid, g.dci, g.tb.isRetx)) = [(1, none, true)] ∧
      (pass.planOf (cells.policy.prioritize (Tti.ofNat 9) 0) (Tti.ofNat 9) bothWays.terminals
        cells.pools).Fulfilled (Tti.ofNat 9) 0
        (pass.observed (Tti.ofNat 9) bothWays.terminals cells.pools).1
        (pass.observed (Tti.ofNat 9) bothWays.terminals cells.pools).2.1
        (bothWays.pull (Tti.ofNat 9) 0 10).2.terminals r := by
  have hreachable : bothWays.Reachable := ((reachable_uplinkRun 8).step _).step _
  have hpoint : bothWays.passPoint? (.pull (Tti.ofNat 9) 0 10) = some (Tti.ofNat 9) := by
    decide +kernel
  obtain ⟨_, _, cells, pass, ⟨⟩, hcells, hpass, hadmits⟩ := exists_of_passPoint? hpoint
  obtain ⟨r, -, hr, -, hfulfilled⟩ := plan_fulfilled_of_admits hreachable hcells hpass hadmits 10
  have hgrants : ((bothWays.pull (Tti.ofNat 9) 0 10).2.resultOf? 0).map (fun r ↦
      (r.dl.map fun g ↦ (g.pid, g.isRetx), r.ul.map fun g ↦ (g.pid, g.dci, g.tb.isRetx))) =
        some ([(5, false)], [(1, none, true)]) := by
    decide +kernel
  rw [hr, Option.map_some] at hgrants
  obtain ⟨hdl, hul⟩ := Prod.mk.inj (Option.some.inj hgrants)
  exact ⟨cells, pass, r, hcells, hpass, hadmits, hr, hdl, hul, hfulfilled⟩

end Scheduler

end MacScheduler
