import MacScheduler.Proofs.Buffer.Progress
import MacScheduler.Proofs.Scheduler.Fulfil
import MacScheduler.Proofs.Terminal.Sizing

/-!
# What fresh downlink grants carry

A fresh grant is sized for all that waits in its terminal, on the resource blocks that
its groups have, and filled from the buffers.  What the uplink is granted afterwards
leaves the downlink buffers alone, so the grant decides what waits after the pass.
-/

namespace MacScheduler

/-- The fresh grant `g` that terminal `t` of roster `before` makes on link `l` of a carrier for
entry `d` and request `q`; the terminal is `t'` in roster `after`. -/
structure DlPlan.Delivered (p : CellParams) (before after : Roster) (d : DlPlan)
    (q : NewTxRequest) (g : DlGrant) (t : Terminal) (l : Link) (t' : Terminal) : Prop where
  before_eq : before.get? d.rnti = some t
  link_eq : t.link? p.index = some l
  params_eq : l.params = p
  after_eq : after.get? d.rnti = some t'
  rnti_eq : g.rnti = d.rnti
  mask_eq : g.mask = d.mask
  fresh : g.isRetx = false
  pending_eq : q.pending = t.downlinkPending
  pending_pos : 0 < t.downlinkPending
  units_eq : q.units = l.unitsForBytes t.downlinkPending .downlink
  ofCarrier : d.mask.OfCarrier p.nofRbg
  nofPrb_eq : g.nofPrb = d.mask.nofPrb p.nofPrb
  nofPrb_pos : 0 < g.nofPrb
  totalBytes_eq : g.totalBytes = (l.sizeForPrbs g.nofPrb t.downlinkPending .downlink).total
  pdus_eq : g.pdus = (t.channels.fill g.totalBytes).1
  left_eq : t'.downlinkPending = (t.channels.fill g.totalBytes).2.downlinkPending

namespace DlPlan.Delivered

variable {p : CellParams} {before after : Roster} {d : DlPlan} {q : NewTxRequest} {g : DlGrant}
  {t t' : Terminal} {l : Link} (h : d.Delivered p before after q g t l t')

include h

/-- Groups that suffice for a request empty the buffers, where they cover as many resource
blocks as their number stands for. -/
theorem empties (hprb : p.nofPrb ≤ 128) (hcount : d.mask.count = q.units)
    (hcovers : q.pending ≤ (l.sizeForUnits q.units q.pending .downlink).total)
    (hwhole : d.mask.test (p.nofRbg - 1) = false ∨ RbgMask.shortfall p.nofPrb = 0 ∨
      q.units = p.nofRbg) :
    q.pending ≤ g.totalBytes ∧
      (t.channels.backlog ≤ maxCount → t'.downlinkPending = 0) := by
  have hmin : min (d.mask.count * p.rbgSize) p.nofPrb ≤ d.mask.nofPrb p.nofPrb :=
    (RbgMask.min_le_nofPrb_iff h.ofCarrier (RbgMask.nofRbgs_le hprb)).mpr (hcount ▸ hwhole)
  have hprbs : l.unitsToPrbs q.units .downlink ≤ g.nofPrb := by
    rw [h.nofPrb_eq, ← hcount, Link.unitsToPrbs, h.params_eq]
    exact Nat.le_trans (min_le_min_right _ (wrap_le_self _)) hmin
  have hbytes : q.pending ≤ g.totalBytes := by
    rw [h.totalBytes_eq, ← h.pending_eq]
    exact Link.sizeForPrbs_covers_mono (h.pending_eq ▸ h.pending_pos) hprbs hcovers
  refine ⟨hbytes, fun hbacklog ↦ h.left_eq.trans ?_⟩
  exact Channels.downlinkPending_fill_eq_zero hbacklog (h.pending_eq.symm.trans_le hbytes)

theorem pdus_ne_nil_iff (hbacklog : t.channels.backlog ≤ maxCount) :
    g.pdus ≠ [] ↔ t.channels.ces ≠ [] ∨
      1 < g.nofPrb ∨ 1 < l.topMcs .downlink ∨ l.nofLayers .downlink = 2 := by
  have hpending := h.pending_pos
  have htwo : 2 ≤ g.totalBytes := h.totalBytes_eq ▸ Link.two_le_total h.nofPrb_pos hpending
  rw [h.pdus_eq, ne_eq, Channels.fill_eq_nil_iff (Channels.counted_of_backlog hbacklog)]
  by_cases hces : t.channels.ces = []
  · have hroom : rlcSubheader < g.totalBytes ↔
        1 < g.nofPrb ∨ 1 < l.topMcs .downlink ∨ l.nofLayers .downlink = 2 := by
      rw [h.totalBytes_eq]
      exact Link.subheader_lt_total_iff h.nofPrb_pos
        (Channels.subheader_lt_downlinkPending hbacklog hces hpending)
    have hwaits : ¬t.channels.Drained := fun hdrained ↦
      Nat.ne_of_gt hpending ((Channels.downlinkPending_eq_zero_iff hbacklog).mpr hdrained)
    rw [← hroom]
    simp only [hces, hwaits, true_and, ne_eq, not_true_eq_false, false_or, or_false]
    omega
  · exact iff_of_true (fun hnil ↦ hces (hnil.resolve_left (Nat.not_lt_of_le htwo)).1) (.inl hces)

theorem downlinkPending_lt (hbacklog : t.channels.backlog ≤ maxCount) (hpdus : g.pdus ≠ []) :
    t'.downlinkPending < t.downlinkPending := by
  rw [h.left_eq]
  exact Channels.downlinkPending_fill_lt hbacklog (h.pdus_eq ▸ hpdus)

theorem downlinkPending_eq (hpdus : g.pdus = []) : t'.downlinkPending = t.downlinkPending := by
  rw [h.left_eq, Channels.fill_of_nil (h.pdus_eq ▸ hpdus)]
  rfl

end DlPlan.Delivered

/-! ## The grants of a pass -/

namespace CarrierPass

variable {π γ : Type} {rnti : π → Rnti} {grant : π → Terminal → Except GrantError γ × Terminal}

theorem committed_of_mem {plans : List π} (hnodup : (plans.map rnti).Nodup) {p : π}
    (hp : p ∈ plans) {t : Terminal} (ht : rnti p = t.rnti) :
    committed rnti grant plans t = (grant p t).2 := by
  rcases committed_cases rnti grant plans t with ⟨-, hnone⟩ | ⟨p', hp', ht', heq⟩
  · exact absurd ht (hnone p hp)
  · rwa [List.inj_on_of_nodup_map hnodup hp hp' (ht.trans ht'.symm)]

/-- What a downlink entry makes of its terminal's downlink is there after the pass. -/
theorem get?_afterPass {r : Roster} {plan : SubframePlan} (hnodup : (plan.dl.map (·.rnti)).Nodup)
    (now : Tti) (carrier : Nat) {d : DlPlan} (hd : d ∈ plan.dl) {t : Terminal}
    (ht : r.get? d.rnti = some t) :
    ∃ t', (afterPass now carrier plan r).get? d.rnti = some t' ∧
      t'.downlinkSide = (grantDl now.downlinkTx carrier d t).2.downlinkSide := by
  have hdl : ∀ t, (committed DlPlan.rnti (grantDl now.downlinkTx carrier) plan.dl t).rnti =
      t.rnti := rnti_committed (rnti_grantDl now.downlinkTx carrier) plan.dl
  have hul : ∀ t, (committed UlPlan.rnti (grantUl now.uplinkTx carrier) plan.ul t).rnti =
      t.rnti := rnti_committed (rnti_grantUl now.uplinkTx carrier) plan.ul
  refine ⟨_, ?_, downlinkSide_committed now.uplinkTx carrier plan.ul _⟩
  rw [afterPass, Roster.get?_map hul, Roster.get?_map hdl, ht, Option.map_some, Option.map_some,
    committed_of_mem hnodup hd (Roster.of_get? ht).2.symm]

end CarrierPass

/-- Every fresh grant is delivered for an entry, and every entry for new data gets one. -/
structure SubframePlan.Delivers (plan : SubframePlan) (p : CellParams) (snapshots : List Snapshot)
    (before after : Roster) (grants : List DlGrant) : Prop where
  of_grant : ∀ g ∈ grants, g.isRetx = false →
    ∃ d ∈ plan.dl, ∃ q t l t', d.Delivered p before after q g t l t'
  of_entry : ∀ d ∈ plan.dl, ∀ s ∈ snapshots, s.rnti = d.rnti → ∀ q, s.dlNew = some q →
    ∃ g ∈ grants, ∃ t l t', d.Delivered p before after q g t l t'

namespace Roster

open CarrierPass SubframePlan

variable {r : Roster} {cells : List CellParams} {carrier : Nat} {p : CellParams}
  (hrntis : (r.map (·.rnti)).Nodup) (hf : ∀ t ∈ r, t.Formed cells)
  (hp : cells[carrier]? = some p) (hprb : p.nofPrb ≤ 128) (now : Tti)
  {order : Direction → List Candidate → List Candidate}
  (horder : ∀ dir cs, (order dir cs).Perm cs)

include hrntis hf hp hprb horder

theorem delivered_of_grant {d : DlPlan} (hd : d ∈ (make p order (r.snapshots now carrier)).dl)
    {t : Terminal} (ht : r.get? d.rnti = some t) {g : DlGrant}
    (hg : (grantDl now.downlinkTx carrier d t).1 = .ok g) (hfresh : g.isRetx = false) :
    ∃ s ∈ r.snapshots now carrier, s.rnti = d.rnti ∧ ∃ q, s.dlNew = some q ∧
      ∃ l t', d.Delivered p r
        (afterPass now carrier (make p order (r.snapshots now carrier)) r) q g t l t' := by
  obtain ⟨s, hs, hrnti, hserves⟩ := make_dl_serves order _ hprb d hd
  obtain ⟨t₁, l, hget, hl, hlink, rfl, hasks, -⟩ := asks_of_mem_snapshots hrntis hf hp hs
  obtain rfl := Option.some.inj ((hrnti ▸ hget).symm.trans ht)
  have htrnti : t₁.rnti = d.rnti := (of_get? ht).2
  have hindex : l.params.index = carrier := (Terminal.of_link? hl).2
  have hanswer := (t₁.grantDownlink_spec now.downlinkTx carrier d.pid d.mask d.dci).answer.2 g hg
  refine ⟨s, hs, hrnti.symm, ?_⟩
  cases hserves with
  | repeats hq hpid hcount =>
      obtain ⟨g', hg', hretx⟩ := hasks.resend hl hlink hq hpid hcount d.dci
      obtain rfl := Except.ok.inj (hg'.symm.trans hg)
      rw [hretx] at hfresh
      cases hfresh
  | @starts q hq hpid hmask hblocks =>
      obtain ⟨g', hg', -, hdelivers⟩ := hasks.start hl hlink hq hpid hblocks d.dci
      obtain rfl := Except.ok.inj (hg'.symm.trans hg)
      obtain ⟨hpending, hunits⟩ := hasks.demand q hq
      have hnofPrb := hdelivers.nofPrb_eq
      rw [hanswer.mask] at hnofPrb
      obtain ⟨t', ht', hside⟩ := get?_afterPass
        (nodup_plan_dl hrntis hprb horder now carrier) now carrier hd ht
      have hleft : t'.downlinkPending = (t₁.channels.fill g'.totalBytes).2.downlinkPending := by
        rw [Terminal.downlinkPending_of_side hside, ← hdelivers.channels_eq]
        rfl
      exact ⟨q, hq, l, t',
        { before_eq := ht, link_eq := hindex ▸ hl, params_eq := rfl, after_eq := ht'
          rnti_eq := hanswer.rnti.trans htrnti, mask_eq := hanswer.mask, fresh := hfresh
          pending_eq := hpending, pending_pos := (hasks.fresh q hq).2.2.1, units_eq := hunits
          ofCarrier := hmask, nofPrb_eq := hnofPrb, nofPrb_pos := hnofPrb ▸ hblocks
          totalBytes_eq := hdelivers.totalBytes_eq, pdus_eq := hdelivers.pdus_eq
          left_eq := hleft }⟩

/-- The grants that the terminals make for a plan deliver it. -/
theorem delivers_plan :
    (make p order (r.snapshots now carrier)).Delivers p (r.snapshots now carrier) r
      (afterPass now carrier (make p order (r.snapshots now carrier)) r)
      (commitAll DlPlan.rnti (grantDl now.downlinkTx carrier) r
        (make p order (r.snapshots now carrier)).dl).1 := by
  have hmem : ∀ g, g ∈ (commitAll DlPlan.rnti (grantDl now.downlinkTx carrier) r
      (make p order (r.snapshots now carrier)).dl).1 ↔ _ := fun g ↦
    mem_commitAll (rnti_grantDl now.downlinkTx carrier)
      (nodup_plan_dl hrntis hprb horder now carrier)
  constructor
  · intro g hg hfresh
    obtain ⟨d, hd, t, ht, hgrant⟩ := (hmem g).mp hg
    obtain ⟨s, -, -, q, -, l, t', hdelivered⟩ :=
      delivered_of_grant hrntis hf hp hprb now horder hd ht hgrant hfresh
    exact ⟨d, hd, q, t, l, t', hdelivered⟩
  · intro d hd s hs hrnti q hq
    obtain ⟨t, ht, g, hg, hgranted⟩ := exists_grant_dl hrntis hf hp hprb now order d hd
    have hfresh : g.isRetx = false := by
      cases hretx : g.isRetx with
      | false => rfl
      | true =>
          obtain ⟨a, ha, -⟩ := (hgranted.isRetx_iff s hs hrnti).mp hretx
          exact ((one_of_mem_snapshots hs).1 ⟨by rw [ha]; rfl, by rw [hq]; rfl⟩).elim
    obtain ⟨s', hs', hrnti', q', hq', l, t', hdelivered⟩ :=
      delivered_of_grant hrntis hf hp hprb now horder hd ht hg hfresh
    obtain rfl := eq_of_mem_snapshots hrntis hs hs' (hrnti'.trans hrnti.symm)
    obtain rfl := Option.some.inj (hq'.symm.trans hq)
    exact ⟨g, (hmem g).mpr ⟨d, hd, t, ht, hg⟩, t, l, t', hdelivered⟩

end Roster

/-- The grants of a pass over well-formed terminals deliver its plan. -/
theorem CarrierPass.schedule_delivers {c : CarrierPass}
    {order : Direction → List Candidate → List Candidate} {now : Tti} {roster : Roster}
    {pools : PucchPools} {cells : List CellParams} (hrntis : (roster.map (·.rnti)).Nodup)
    (hf : ∀ t ∈ roster, t.Formed cells) (hp : cells[c.params.index]? = some c.params)
    (hprb : c.params.nofPrb ≤ 128) (horder : ∀ dir cs, (order dir cs).Perm cs) (elapsed : Nat) :
    (c.planOf order now roster pools).Delivers c.params (c.observed now roster pools).1
      (c.observed now roster pools).2.1 (c.schedule order now elapsed roster pools).2.2.1
      (c.schedule order now elapsed roster pools).1.dl := by
  obtain ⟨hsnapshots, hsame, -⟩ := observe_spec now c.params.index pools roster
  have hnodup : ((c.observed now roster pools).2.1.map (·.rnti)).Nodup := hsame ▸ hrntis
  have hsnapshots : (c.observed now roster pools).1 =
      (c.observed now roster pools).2.1.snapshots now c.params.index := hsnapshots
  rw [schedule_roster horder hprb hnodup, (c.schedule_parts order now elapsed roster pools).2.1,
    downlinkOf, (commitDownlink_eq _ _ _ _ _).1, planOf_eq, hsnapshots]
  exact Roster.delivers_plan hnodup (c.formed_observed now pools hf) hp hprb now horder

namespace Scheduler

variable {s : Scheduler} {cells : CellSet} {pass : CarrierPass} {now : Tti} {carrier : Nat}

theorem delivers_of_admits (h : s.Reachable) (hcells : s.cells = some cells)
    (hpass : cells.passes[carrier]? = some pass) (hadmits : pass.Admits now) (elapsed : Nat) :
    ∃ r : SubframeResult, (s.pull now carrier elapsed).2.resultOf? carrier = some r ∧
      (pass.planOf (cells.policy.prioritize now carrier) now s.terminals cells.pools).Delivers
        pass.params (pass.observed now s.terminals cells.pools).1
        (pass.observed now s.terminals cells.pools).2.1 (s.pull now carrier elapsed).2.terminals
        r.dl := by
  have hprb := h.configured.nofPrb_le hcells hpass
  have hp := CellSet.params_of_pass hpass
  obtain ⟨-, -, rfl⟩ := (h.configured.cells cells hcells).pass hpass
  have horder := cells.policy.prioritize_perm now pass.params.index
  obtain ⟨res, hres, heq⟩ :=
    pull_of_admits hcells hpass hadmits (h.configured.pass_counted hcells hpass) elapsed
  have hdelivers := @CarrierPass.schedule_delivers pass _ now _ cells.pools _ h.attached.nodup
    (h.attached.formed_of_cells hcells) hp hprb horder elapsed
  rw [← hres] at hdelivers
  rw [heq]
  refine ⟨res.1, ?_, hdelivers⟩
  rw [resultOf?, Option.bind_some,
    List.getElem?_set_self (List.getElem?_eq_some_iff.mp hpass).1, Option.bind_some]

end Scheduler

end MacScheduler
