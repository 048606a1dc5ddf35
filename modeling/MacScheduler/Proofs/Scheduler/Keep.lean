import MacScheduler.Proofs.Scheduler.Pass

/-!
# Retransmissions keep their place

The result of a pass over an orderly roster repeats what is due: each downlink
retransmission is granted on the groups of its last transmission, each uplink one
on its last blocks and without a grant message, and a downlink one is left out only
where others took all its candidates.
-/

namespace MacScheduler

/-- What the result of a carrier's pass does with the retransmissions due in the roster. -/
structure SubframeResult.KeepsRetx (p : CellParams) (carrier : Nat) (r : Roster)
    (res : SubframeResult) : Prop where
  dl_disjoint : ∀ rnti rnti' q q', r.Due Link.dl carrier res.rxTti.downlinkTx rnti q →
    r.Due Link.dl carrier res.rxTti.downlinkTx rnti' q' → (rnti, q) ≠ (rnti', q') →
    ∀ a b, q.alloc = some a → q'.alloc = some b → a.overlaps b = false
  ul_disjoint : ∀ rnti rnti' q q', r.Due Link.ul carrier res.rxTti.uplinkTx rnti q →
    r.Due Link.ul carrier res.rxTti.uplinkTx rnti' q' → (rnti, q) ≠ (rnti', q') →
    ∀ a b, q.alloc = some a → q'.alloc = some b → a.overlaps b = false
  /-- Its groups are free when its turn comes. -/
  dl_free : ∀ rnti q, r.Due Link.dl carrier res.rxTti.downlinkTx rnti q →
    ∃ before s after, r.snapshots res.rxTti carrier = before ++ s :: after ∧ s.rnti = rnti ∧
      ∃ a, q.alloc = some a ∧ s.dlRetx = some ⟨q.pid, a⟩ ∧
        (SubframePlan.retxHolds p before).rbgs.overlaps a = false
  /-- Its blocks are free when its turn comes. -/
  ul_free : ∀ rnti q, r.Due Link.ul carrier res.rxTti.uplinkTx rnti q →
    ∃ before s after, r.snapshots res.rxTti carrier = before ++ s :: after ∧ s.rnti = rnti ∧
      ∃ a, q.alloc = some a ∧ s.ulRetx = some ⟨q.pid, a⟩ ∧
        (SubframePlan.retxHolds p before).prbs.isFree a = true
  dl_kept : ∀ g ∈ res.dl, g.isRetx = true →
    ∃ q, r.Due Link.dl carrier res.rxTti.downlinkTx g.rnti q ∧ q.pid = g.pid ∧
      q.alloc = some g.mask
  ul_kept : ∀ rnti q, r.Due Link.ul carrier res.rxTti.uplinkTx rnti q →
    ∃ g ∈ res.ul, g.rnti = rnti ∧ g.pid = q.pid ∧ q.alloc = some g.interval ∧ g.dci = none ∧
      g.tb.isRetx = true
  dl_left_out : ∀ t ∈ r, ∀ l ∈ t.links, l.carrier = carrier → ∀ q ∈ l.dl.procs,
    q.hasPendingRetx res.rxTti.downlinkTx = true →
    (∃ g ∈ res.dl, g.rnti = t.rnti ∧ g.pid = q.pid ∧ g.isRetx = true) ∨
      ∀ first ∈ l.dciCandidates res.rxTti.downlinkTx.subframe l.aggrLevel,
        ∃ g ∈ res.dl, g.isRetx = true ∧ g.dci.overlaps ⟨first, l.aggrLevel⟩ = true

namespace CarrierPass

variable {cells : List CellParams} {now : Tti} {served quiet : Nat → Prop} {r : Roster}
  {carrier : Nat} {p : CellParams} {order : Direction → List Candidate → List Candidate}
  {t t' : Terminal}

theorem mem_commitDownlink (tx : Tti) (carrier : Nat) (hr : (r.map (·.rnti)).Nodup)
    {plans : List DlPlan} (hplans : (plans.map (·.rnti)).Nodup) (region : ControlRegion)
    {g : DlGrant} : g ∈ (commitDownlink tx carrier r region plans).1 ↔
      ∃ d ∈ plans, ∃ t ∈ r, t.rnti = d.rnti ∧ (grantDl tx carrier d t).1 = .ok g := by
  rw [(commitDownlink_eq tx carrier r region plans).1,
    mem_commitAll (rnti_grantDl tx carrier) hplans]
  simp only [Roster.get?_eq_some_iff hr, and_assoc]

theorem mem_commitUplink (tx : Tti) (carrier : Nat) (hr : (r.map (·.rnti)).Nodup)
    {plans : List UlPlan} (hplans : (plans.map (·.rnti)).Nodup) (region : ControlRegion)
    {g : UlGrant} : g ∈ (commitUplink tx carrier r region plans).1 ↔
      ∃ u ∈ plans, ∃ t ∈ r, t.rnti = u.rnti ∧ (grantUl tx carrier u t).1 = .ok g := by
  rw [(commitUplink_eq tx carrier r region plans).1,
    mem_commitAll (rnti_grantUl tx carrier) hplans]
  simp only [Roster.get?_eq_some_iff hr, and_assoc]

section

variable (h : r.Orderly cells now now served quiet) (hcells : CellParams.Listed cells)
  (hp : cells[carrier]? = some p)

include h hcells hp

/-! ## Places that are free -/

theorem dl_free_of_due {rnti : Rnti} {q : HarqProcess RbgMask}
    (hdue : r.Due Link.dl carrier now.downlinkTx rnti q) :
    ∃ before s after, r.snapshots now carrier = before ++ s :: after ∧ s.rnti = rnti ∧
      ∃ a, q.alloc = some a ∧ s.dlRetx = some ⟨q.pid, a⟩ ∧
        (SubframePlan.retxHolds p before).rbgs.overlaps a = false := by
  have hapart := h.apart hcells hp
  obtain ⟨before, s, after, heq, hrnti, a, halloc, hask⟩ :=
    (h.ready_dl hcells hp).split_of_due hdue
  rw [heq] at hapart
  have hfree := (SubframePlan.retx_free (hcells.nofPrb_le hp) hapart).1 _ hask
  exact ⟨before, s, after, heq, hrnti, a, halloc, hask, hfree⟩

theorem ul_free_of_due {rnti : Rnti} {q : HarqProcess PrbInterval}
    (hdue : r.Due Link.ul carrier now.uplinkTx rnti q) :
    ∃ before s after, r.snapshots now carrier = before ++ s :: after ∧ s.rnti = rnti ∧
      ∃ a, q.alloc = some a ∧ s.ulRetx = some ⟨q.pid, a⟩ ∧
        (SubframePlan.retxHolds p before).prbs.isFree a = true := by
  have hapart := h.apart hcells hp
  obtain ⟨before, s, after, heq, hrnti, a, halloc, hask⟩ :=
    (h.ready_ul hcells hp).split_of_due hdue
  rw [heq] at hapart
  have hfree := (SubframePlan.retx_free (hcells.nofPrb_le hp) hapart).2 _ hask
  exact ⟨before, s, after, heq, hrnti, a, halloc, hask, hfree⟩

/-! ## Grants for what is due -/

variable (horder : ∀ dir cs, (order dir cs).Perm cs) (region : ControlRegion)

include horder

theorem dl_kept_of_commit {g : DlGrant}
    (hg : g ∈ (commitDownlink now.downlinkTx carrier r region
      (SubframePlan.make p order (r.snapshots now carrier)).dl).1) (hretx : g.isRetx = true) :
    ∃ q, r.Due Link.dl carrier now.downlinkTx g.rnti q ∧ q.pid = g.pid ∧
      q.alloc = some g.mask := by
  have hplans := Roster.nodup_plan_dl h.rntis (hcells.nofPrb_le hp) horder now carrier
  rw [mem_commitDownlink _ _ h.rntis hplans] at hg
  obtain ⟨d, hd, t, ht, hrnti, hg⟩ := hg
  have hspec := t.grantDownlink_spec now.downlinkTx carrier d.pid d.mask d.dci
  obtain ⟨l, hl, q, hget, hdue⟩ := hspec.due_of_isRetx hg hretx
  have hanswer := hspec.answer.2 g hg
  obtain ⟨hmem, hcarrier⟩ := Terminal.of_link? hl
  have hdue : r.Due Link.dl carrier now.downlinkTx t.rnti q :=
    ⟨t, ht, rfl, l, hmem, hcarrier, List.mem_of_getElem? hget, hdue⟩
  obtain ⟨hpid, halloc⟩ := h.plan_dl_eq_of_due hcells hp hd (hrnti ▸ hdue)
  refine ⟨q, hanswer.rnti.symm ▸ hdue, ?_, ?_⟩
  · rw [hanswer.pid, hpid]
  · rw [hanswer.mask, halloc]

theorem exists_dl_grant {d : DlPlan}
    (hd : d ∈ (SubframePlan.retxDownlink p (r.snapshots now carrier)).1) :
    ∃ g ∈ (commitDownlink now.downlinkTx carrier r region
        (SubframePlan.make p order (r.snapshots now carrier)).dl).1,
      g.rnti = d.rnti ∧ g.pid = d.pid ∧ g.dci = d.dci ∧ g.isRetx = true := by
  obtain ⟨s, hs, q, hq, hrnti, hpid, hmask⟩ :=
    SubframePlan.of_mem_retxDownlink (hcells.nofPrb_le hp) (h.apart hcells hp) hd
  obtain ⟨pr, hdue, hprpid, halloc⟩ := (h.ready_dl hcells hp).due_of_retx hs hq
  obtain ⟨t, ht, htr, l, hl, rfl, hpr, hdue⟩ := hdue
  have htd : t.rnti = d.rnti := htr.trans hrnti.symm
  obtain ⟨g, hg, hretx⟩ := (h.steady t ht).grantDownlink_of_due hl hpr hdue halloc d.dci
  rw [hprpid, ← hpid, ← hmask] at hg
  have hanswer := (t.grantDownlink_spec _ l.carrier d.pid d.mask d.dci).answer.2 g hg
  refine ⟨g, ?_, hanswer.rnti.trans htd, hanswer.pid, hanswer.dci, hretx⟩
  rw [mem_commitDownlink _ _ h.rntis
    (Roster.nodup_plan_dl h.rntis (hcells.nofPrb_le hp) horder _ _)]
  exact ⟨d, List.mem_append_left _ hd, t, ht, htd, hg⟩

/-- A downlink retransmission that is due is granted, or others took all its candidates. -/
theorem dl_granted_or_blocked (ht : t ∈ r) {l : Link} (hl : l ∈ t.links)
    (hcarrier : l.carrier = carrier) {q : HarqProcess RbgMask} (hq : q ∈ l.dl.procs)
    (hdue : q.hasPendingRetx now.downlinkTx = true) :
    (∃ g ∈ (commitDownlink now.downlinkTx carrier r region
        (SubframePlan.make p order (r.snapshots now carrier)).dl).1,
      g.rnti = t.rnti ∧ g.pid = q.pid ∧ g.isRetx = true) ∨
      ∀ first ∈ l.dciCandidates now.downlinkTx.subframe l.aggrLevel,
        ∃ g ∈ (commitDownlink now.downlinkTx carrier r region
          (SubframePlan.make p order (r.snapshots now carrier)).dl).1,
          g.isRetx = true ∧ g.dci.overlaps ⟨first, l.aggrLevel⟩ = true := by
  rcases h.plan_dl_or_blocked hcells hp ht hl hcarrier hq hdue with ⟨d, hd, hrnti⟩ | hblocked
  · obtain ⟨g, hg, hgr, hgp, -, hretx⟩ := exists_dl_grant h hcells hp horder region hd
    have hplan : d ∈ (SubframePlan.make p order (r.snapshots now carrier)).dl :=
      List.mem_append_left _ hd
    have hpid := (h.plan_dl_eq_of_due hcells hp hplan
      ⟨t, ht, hrnti.symm, l, hl, hcarrier, hq, hdue⟩).1
    exact .inl ⟨g, hg, hgr.trans hrnti, hgp.trans hpid, hretx⟩
  · right
    intro first hfirst
    obtain ⟨d, hd, hover⟩ := hblocked first hfirst
    obtain ⟨g, hg, -, -, hdci, hretx⟩ := exists_dl_grant h hcells hp horder region hd
    exact ⟨g, hg, hretx, hdci ▸ hover⟩

/-- An uplink retransmission that is due is granted, also after the downlink grants. -/
theorem ul_kept_of_commit (plans : List DlPlan) {rnti : Rnti} {q : HarqProcess PrbInterval}
    (hdue : r.Due Link.ul carrier now.uplinkTx rnti q) :
    ∃ g ∈ (commitUplink now.uplinkTx carrier
        (r.map (committed DlPlan.rnti (grantDl now.downlinkTx carrier) plans)) region
        (SubframePlan.make p order (r.snapshots now carrier)).ul).1,
      g.rnti = rnti ∧ g.pid = q.pid ∧ q.alloc = some g.interval ∧ g.dci = none ∧
        g.tb.isRetx = true := by
  obtain ⟨a, halloc, hu⟩ := h.mem_plan_ul_of_due hcells hp order hdue
  obtain ⟨t, ht, rfl, l, hl, rfl, hq, hdue⟩ := hdue
  have hdl := sends_grantDl (h.steady t ht) l.carrier plans
  obtain ⟨l', hl', hcarrier, hul⟩ := hdl.exists_link (h.steady t ht) hl
  obtain ⟨g, t', hgrant, hretx, -⟩ :=
    hdl.steady.grantUplink_of_due hl' (hul.symm ▸ hq) hdue halloc none
  rw [hcarrier] at hgrant
  have hanswer := (Terminal.grantUplink_spec _ now.uplinkTx l.carrier q.pid a none).answer.2 g
    (congrArg Prod.fst hgrant)
  refine ⟨g, ?_, hanswer.rnti.trans hdl.rnti_eq, hanswer.pid, hanswer.interval ▸ halloc,
    hanswer.dci, hretx⟩
  rw [mem_commitUplink _ _ ?_ (Roster.nodup_plan_ul h.rntis (hcells.nofPrb_le hp) horder _ _)]
  · exact ⟨_, hu, _, List.mem_map_of_mem ht, hdl.rnti_eq, congrArg Prod.fst hgrant⟩
  · rw [rntis_map_committed (rnti_grantDl _ _)]
    exact h.rntis

end

/-! ## The result of a pass -/

section Schedule

variable {c : CarrierPass} {roster : Roster} {pools : PucchPools}

theorem planOf_eq (c : CarrierPass) (order : Direction → List Candidate → List Candidate)
    (now : Tti) (roster : Roster) (pools : PucchPools) :
    c.planOf order now roster pools = SubframePlan.make c.params order
      ((c.observed now roster pools).2.1.snapshots now c.params.index) := by
  rw [planOf, observed, (observe_spec now c.params.index pools roster).1, Roster.snapshots]

theorem counted_of_orderly {next : Tti}
    (h : (c.observed now roster pools).2.1.Orderly cells now next served quiet)
    (hcells : CellParams.Listed cells) (hp : cells[c.params.index]? = some c.params) :
    c.Counted now roster pools where
  nofPrb_le := hcells.nofPrb_le hp
  snapshots := by
    rw [observed, (observe_spec now c.params.index pools roster).1]
    exact h.counted hcells hp

section

variable (horder : ∀ dir cs, (order dir cs).Perm cs) (hprb : c.params.nofPrb ≤ 128)
  (hrntis : ((c.observed now roster pools).2.1.map (·.rnti)).Nodup)

include horder hprb hrntis

theorem nodup_planOf :
    ((c.planOf order now roster pools).dl.map (·.rnti)).Nodup ∧
      ((c.planOf order now roster pools).ul.map (·.rnti)).Nodup := by
  rw [planOf_eq]
  exact ⟨Roster.nodup_plan_dl hrntis hprb horder _ _, Roster.nodup_plan_ul hrntis hprb horder _ _⟩

theorem downlinkOf_roster :
    (c.downlinkOf order now roster pools).2.1 = (c.observed now roster pools).2.1.map
      (committed DlPlan.rnti (grantDl now.downlinkTx c.params.index)
        (c.planOf order now roster pools).dl) := by
  rw [downlinkOf, (commitDownlink_eq _ _ _ _ _).2]
  exact commitAll_roster (rnti_grantDl _ _) hrntis (nodup_planOf horder hprb hrntis).1

theorem schedule_roster (elapsed : Nat) :
    (c.schedule order now elapsed roster pools).2.2.1 = afterPass now c.params.index
      (c.planOf order now roster pools) (c.observed now roster pools).2.1 := by
  obtain ⟨hdl, hul⟩ := nodup_planOf horder hprb hrntis
  rw [schedule_roster_eq, commitAll_roster (rnti_grantDl _ _) hrntis hdl, afterPass]
  refine commitAll_roster (rnti_grantUl _ _) ?_ hul
  rw [rntis_map_committed (rnti_grantDl _ _)]
  exact hrntis

end

/-- A pass over an orderly roster keeps the place of every retransmission. -/
theorem schedule_keepsRetx (horder : ∀ dir cs, (order dir cs).Perm cs)
    (h : (c.observed now roster pools).2.1.Orderly cells now now served quiet)
    (hcells : CellParams.Listed cells) (hp : cells[c.params.index]? = some c.params)
    (elapsed : Nat) :
    (c.schedule order now elapsed roster pools).1.KeepsRetx c.params c.params.index
      (c.observed now roster pools).2.1 := by
  have hdlReady := h.ready_dl hcells hp
  have hulReady := h.ready_ul hcells hp
  obtain ⟨hnow, hdl, hul, -, -⟩ := c.schedule_parts order now elapsed roster pools
  rw [downlinkOf, planOf_eq] at hdl
  rw [uplinkOf, downlinkOf_roster horder (hcells.nofPrb_le hp) h.rntis, planOf_eq] at hul
  constructor
  · rw [hnow]
    exact fun _ _ _ _ hdue hdue' hne _ _ ha hb ↦ hdlReady.due_disjoint hdue hdue' hne ha hb
  · rw [hnow]
    exact fun _ _ _ _ hdue hdue' hne _ _ ha hb ↦ hulReady.due_disjoint hdue hdue' hne ha hb
  · rw [hnow]
    exact fun _ _ hdue ↦ dl_free_of_due h hcells hp hdue
  · rw [hnow]
    exact fun _ _ hdue ↦ ul_free_of_due h hcells hp hdue
  · rw [hnow, hdl]
    exact fun _ hg hretx ↦ dl_kept_of_commit h hcells hp horder _ hg hretx
  · rw [hnow, hul]
    exact fun _ _ hdue ↦ ul_kept_of_commit h hcells hp horder _ _ hdue
  · rw [hnow, hdl]
    exact fun _ ht _ hl hcarrier _ hq hdue ↦
      dl_granted_or_blocked h hcells hp horder _ ht hl hcarrier hq hdue

end Schedule

end CarrierPass

end MacScheduler
