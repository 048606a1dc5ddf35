import MacScheduler.Proofs.Scheduler.Traffic
import MacScheduler.Proofs.Subframe.Keep
import MacScheduler.Proofs.Terminal.Snapshot

/-!
# The plan for an orderly roster

What falls due together on a carrier shares no resource, so the plan repeats every
retransmission where it was.  The plan has one entry per terminal, and the entry
of a terminal with a retransmission due is that retransmission.
-/

namespace MacScheduler

namespace Roster

def snapshots (r : Roster) (now : Tti) (carrier : Nat) : List Snapshot :=
  r.filterMap (·.snapshot? now carrier)

/-- One direction of a carrier before its pass: tables keep pace, what is in flight is
apart, and snapshots ask for what is due. -/
structure Ready {α : Type} (tab : Link → HarqTable α) (overlaps : α → α → Bool)
    (retx : Snapshot → Option (RetxRequest α)) (cells : List CellParams) (now : Tti)
    (carrier roundTrip : Nat) (tx : Tti) (r : Roster) : Prop where
  rntis : (r.map (·.rnti)).Nodup
  steady : ∀ t ∈ r, t.Steady cells now
  keeps : r.Keeps tab carrier roundTrip tx
  short : roundTrip ≤ 16
  separate : r.Separate tab overlaps carrier
  asks : ∀ t l s, Terminal.Shows now t l s → retx s = (tab l).retxRequest? tx

section

variable {α : Type} {tab : Link → HarqTable α} {overlaps : α → α → Bool}
  {retx : Snapshot → Option (RetxRequest α)} {cells : List CellParams} {now : Tti}
  {carrier roundTrip : Nat} {tx : Tti} {r : Roster}

theorem of_mem_snapshots (hsteady : ∀ t ∈ r, t.Steady cells now) {s : Snapshot}
    (hs : s ∈ r.snapshots now carrier) :
    ∃ t ∈ r, ∃ l ∈ t.links, l.carrier = carrier ∧ t.Shows now l s := by
  obtain ⟨t, ht, hs⟩ := List.mem_filterMap.mp hs
  obtain ⟨l, hl, hcarrier, hshows⟩ := (hsteady t ht).of_snapshot? hs
  exact ⟨t, ht, l, hl, hcarrier, hshows⟩

theorem exists_snapshot (hsteady : ∀ t ∈ r, t.Steady cells now) {t : Terminal} (ht : t ∈ r)
    {l : Link} (hl : l ∈ t.links) : ∃ s ∈ r.snapshots now l.carrier, t.Shows now l s := by
  obtain ⟨s, hs, hshows⟩ := (hsteady t ht).shows ((hsteady t ht).link?_of_mem hl)
  exact ⟨s, List.mem_filterMap.mpr ⟨t, ht, hs⟩, hshows⟩

theorem rntis_snapshots (hrntis : (r.map (·.rnti)).Nodup) (now : Tti) (carrier : Nat) :
    ((r.snapshots now carrier).map (·.rnti)).Nodup := by
  have hsub : ((r.snapshots now carrier).map (·.rnti)).Sublist (r.map (·.rnti)) := by
    refine SubframePlan.sublist_map_filterMap (fun t s hs ↦ ?_) r
    obtain ⟨l, -, rfl⟩ := Option.map_eq_some_iff.mp hs
    rfl
  exact hrntis.sublist hsub

theorem one_of_mem_snapshots {s : Snapshot} (hs : s ∈ r.snapshots now carrier) :
    ¬(s.dlRetx.isSome ∧ s.dlNew.isSome) ∧ ¬(s.ulRetx.isSome ∧ s.ulNew.isSome) := by
  obtain ⟨t, -, hs⟩ := List.mem_filterMap.mp hs
  exact Terminal.one_of_snapshot? hs

section

variable {p : CellParams} {order : Direction → List Candidate → List Candidate}
  (hrntis : (r.map (·.rnti)).Nodup) (hprb : p.nofPrb ≤ 128)
  (horder : ∀ dir cs, (order dir cs).Perm cs) (now : Tti) (carrier : Nat)

include hrntis hprb horder

/-- A plan has one entry per terminal and direction. -/
theorem nodup_plan_dl :
    ((SubframePlan.make p order (r.snapshots now carrier)).dl.map (·.rnti)).Nodup := by
  apply List.nodup_iff_count_le_one.mpr
  intro rnti
  exact SubframePlan.make_dl_unique order _ hprb horder (rntis_snapshots hrntis now carrier)
    fun s hs _ ↦ (one_of_mem_snapshots hs).1

theorem nodup_plan_ul :
    ((SubframePlan.make p order (r.snapshots now carrier)).ul.map (·.rnti)).Nodup := by
  apply List.nodup_iff_count_le_one.mpr
  intro rnti
  exact SubframePlan.make_ul_unique order _ hprb horder (rntis_snapshots hrntis now carrier)
    fun s hs _ ↦ (one_of_mem_snapshots hs).2

end

namespace Ready

theorem due_of_retx (h : r.Ready tab overlaps retx cells now carrier roundTrip tx) {s : Snapshot}
    (hs : s ∈ r.snapshots now carrier) {q : RetxRequest α} (hq : retx s = some q) :
    ∃ p, r.Due tab carrier tx s.rnti p ∧ p.pid = q.pid ∧ p.alloc = some q.alloc := by
  obtain ⟨t, ht, l, hl, hcarrier, hshows⟩ := of_mem_snapshots h.steady hs
  have hsound := (h.keeps t ht l hl hcarrier).timely.sound
  obtain ⟨p, hp, hdue, hpid, halloc⟩ := hsound.of_retxRequest? (h.asks t l s hshows ▸ hq)
  exact ⟨p, ⟨t, ht, hshows.rnti_eq.symm, l, hl, hcarrier, hp, hdue⟩, hpid, halloc⟩

theorem retx_eq_of_due (h : r.Ready tab overlaps retx cells now carrier roundTrip tx) {t : Terminal}
    (ht : t ∈ r) {l : Link} (hl : l ∈ t.links) (hcarrier : l.carrier = carrier)
    {p : HarqProcess α} (hp : p ∈ (tab l).procs) (hdue : p.hasPendingRetx tx = true)
    {s : Snapshot} (hshows : t.Shows now l s) :
    ∃ a, p.alloc = some a ∧ retx s = some ⟨p.pid, a⟩ := by
  have hsteady := h.keeps t ht l hl hcarrier
  obtain ⟨-, a, halloc, -⟩ := hsteady.carries_of_due h.short hp hdue
  have honly := h.keeps.only_due h.short h.separate ht hl hcarrier hp hdue
  have hask := hsteady.timely.sound.retxRequest?_of_due hp hdue honly halloc
  exact ⟨a, halloc, (h.asks t l s hshows).trans hask⟩

theorem retx_of_due (h : r.Ready tab overlaps retx cells now carrier roundTrip tx) {rnti : Rnti}
    {p : HarqProcess α} (hdue : r.Due tab carrier tx rnti p) :
    ∃ s ∈ r.snapshots now carrier, s.rnti = rnti ∧
      ∃ a, p.alloc = some a ∧ retx s = some ⟨p.pid, a⟩ := by
  obtain ⟨t, ht, rfl, l, hl, rfl, hp, hdue⟩ := hdue
  obtain ⟨s, hs, hshows⟩ := exists_snapshot h.steady ht hl
  exact ⟨s, hs, hshows.rnti_eq, h.retx_eq_of_due ht hl rfl hp hdue hshows⟩

/-- The snapshot that asks for what is due, between those before and after it. -/
theorem split_of_due (h : r.Ready tab overlaps retx cells now carrier roundTrip tx) {rnti : Rnti}
    {p : HarqProcess α} (hdue : r.Due tab carrier tx rnti p) :
    ∃ before s after, r.snapshots now carrier = before ++ s :: after ∧ s.rnti = rnti ∧
      ∃ a, p.alloc = some a ∧ retx s = some ⟨p.pid, a⟩ := by
  obtain ⟨s, hs, hrnti, hask⟩ := h.retx_of_due hdue
  obtain ⟨before, after, heq⟩ := List.append_of_mem hs
  exact ⟨before, s, after, heq, hrnti, hask⟩

/-- What falls due together is the same process, or for another terminal on other
resources. -/
theorem due_apart (h : r.Ready tab overlaps retx cells now carrier roundTrip tx)
    {rnti rnti' : Rnti} {p p' : HarqProcess α} (hdue : r.Due tab carrier tx rnti p)
    (hdue' : r.Due tab carrier tx rnti' p') :
    rnti = rnti' ∧ p = p' ∨
      rnti ≠ rnti' ∧ ∀ a b, p.alloc = some a → p'.alloc = some b → overlaps a b = false := by
  rcases h.keeps.due_apart h.short h.separate hdue hdue' with ⟨rfl, hpid⟩ | hother
  · obtain ⟨t, ht, hrnti, l, hl, hcarrier, hp, -⟩ := hdue
    obtain ⟨t', ht', hrnti', l', hl', hcarrier', hp', -⟩ := hdue'
    obtain rfl := List.inj_on_of_nodup_map h.rntis ht ht' (hrnti.trans hrnti'.symm)
    obtain rfl := List.inj_on_of_nodup_map (h.steady t ht).carriers hl hl'
      (hcarrier.trans hcarrier'.symm)
    have hsound := (h.keeps t ht l hl hcarrier).timely.sound
    refine .inl ⟨rfl, Option.some.inj ((hsound.get?_pid hp).symm.trans ?_)⟩
    rw [hpid, hsound.get?_pid hp']
  · exact .inr hother

theorem due_disjoint (h : r.Ready tab overlaps retx cells now carrier roundTrip tx)
    {rnti rnti' : Rnti} {p p' : HarqProcess α} (hdue : r.Due tab carrier tx rnti p)
    (hdue' : r.Due tab carrier tx rnti' p') (hne : (rnti, p) ≠ (rnti', p')) {a b : α}
    (ha : p.alloc = some a) (hb : p'.alloc = some b) : overlaps a b = false := by
  rcases h.due_apart hdue hdue' with ⟨rfl, rfl⟩ | ⟨-, hover⟩
  · exact (hne rfl).elim
  · exact hover a b ha hb

theorem apart (h : r.Ready tab overlaps retx cells now carrier roundTrip tx) :
    (r.snapshots now carrier).Pairwise fun s t ↦
      ∀ a b, retx s = some a → retx t = some b → overlaps a.alloc b.alloc = false := by
  have hne := List.pairwise_map.mp (rntis_snapshots h.rntis now carrier)
  refine hne.imp_of_mem fun {s t} hs ht hst a b ha hb ↦ ?_
  obtain ⟨p, hdue, -, halloc⟩ := h.due_of_retx hs ha
  obtain ⟨p', hdue', -, halloc'⟩ := h.due_of_retx ht hb
  exact h.due_disjoint hdue hdue' (fun heq ↦ hst (Prod.mk.inj heq).1) halloc halloc'

end Ready

end

namespace Orderly

variable {cells : List CellParams} {now next : Tti} {served quiet : Nat → Prop} {r : Roster}
  {carrier : Nat} {p : CellParams}

theorem ready_dl (h : r.Orderly cells now next served quiet) (hcells : CellParams.Listed cells)
    (hp : cells[carrier]? = some p) :
    r.Ready Link.dl RbgMask.overlaps Snapshot.dlRetx cells now carrier p.harq.roundTrip
      now.downlinkTx where
  rntis := h.rntis
  steady := h.steady
  keeps := h.keeps_dl hp
  short := (HarqConfig.roundTrip_bounds (hcells carrier p hp).2.2).2
  separate := h.dl carrier
  asks := fun _ _ _ hshows ↦ hshows.dlRetx_eq

theorem ready_ul (h : r.Orderly cells now next served quiet) (hcells : CellParams.Listed cells)
    (hp : cells[carrier]? = some p) :
    r.Ready Link.ul PrbInterval.overlaps Snapshot.ulRetx cells now carrier p.harq.roundTrip
      now.uplinkTx where
  rntis := h.rntis
  steady := h.steady
  keeps := h.keeps_ul hp
  short := (HarqConfig.roundTrip_bounds (hcells carrier p hp).2.2).2
  separate := h.ul carrier
  asks := fun _ _ _ hshows ↦ hshows.ulRetx_eq

/-- Uplink blocks in flight lie between the control edges, and so do their repetitions. -/
theorem ulRetx_inside (h : r.Orderly cells now next served quiet)
    (hcells : CellParams.Listed cells) (hp : cells[carrier]? = some p) {s : Snapshot}
    (hs : s ∈ r.snapshots now carrier) {q : RetxRequest PrbInterval} (hq : s.ulRetx = some q) :
    q.alloc.isEmpty = false ∧ q.alloc.Within p.puschRegion := by
  have hready := h.ready_ul hcells hp
  obtain ⟨pr, hdue, -, halloc⟩ := hready.due_of_retx hs hq
  obtain ⟨f, hf, -, -, hfalloc, -⟩ := hready.keeps.flight hready.short hdue
  rw [Option.some.inj (halloc.symm.trans hfalloc)]
  exact h.ul_inside carrier p hp f hf

theorem apart (h : r.Orderly cells now next served quiet) (hcells : CellParams.Listed cells)
    (hp : cells[carrier]? = some p) : SubframePlan.Apart p (r.snapshots now carrier) where
  dl := (h.ready_dl hcells hp).apart
  ul := (h.ready_ul hcells hp).apart
  ul_inside := fun _ hs _ hq ↦ (h.ulRetx_inside hcells hp hs hq).2

end Orderly

end Roster

/-! ## The plan -/

theorem CellParams.Listed.nofPrb_le {cells : List CellParams} (h : CellParams.Listed cells)
    {carrier : Nat} {p : CellParams} (hp : cells[carrier]? = some p) : p.nofPrb ≤ 128 :=
  Nat.le_trans (CellConfig.nofPrb_le (h carrier p hp).2.1) (by decide)

namespace Roster.Orderly

open SubframePlan

variable {cells : List CellParams} {now next : Tti} {served quiet : Nat → Prop} {r : Roster}
  {carrier : Nat} {p : CellParams} {order : Direction → List Candidate → List Candidate}

/-- What the snapshots name lies inside the regions of the carrier. -/
theorem counted (h : r.Orderly cells now next served quiet) (hcells : CellParams.Listed cells)
    (hp : cells[carrier]? = some p) : ∀ s ∈ r.snapshots now carrier, s.Counted := by
  intro s hs
  obtain ⟨t, ht, l, hl, hcarrier, hshows⟩ := of_mem_snapshots h.steady hs
  refine ⟨fun _ first hfirst ↦ ?_, fun q hq ↦ ?_⟩
  · have hlisted := hcells l.carrier l.params ((h.steady t ht).params l hl)
    rw [hshows.candidates_eq] at hfirst
    rw [hshows.level_eq]
    exact Link.counted_of_mem_dciCandidates (CellParams.nofCce_le hlisted.2.1) hfirst
  · exact (h.ulRetx_inside hcells hp hs hq).2.counted (puschRegion_counted (hcells.nofPrb_le hp))

/-- The downlink entry of a terminal with a retransmission due is that retransmission. -/
theorem plan_dl_eq_of_due (h : r.Orderly cells now next served quiet)
    (hcells : CellParams.Listed cells) (hp : cells[carrier]? = some p) {d : DlPlan}
    (hd : d ∈ (make p order (r.snapshots now carrier)).dl) {pr : HarqProcess RbgMask}
    (hdue : r.Due Link.dl carrier now.downlinkTx d.rnti pr) :
    d.pid = pr.pid ∧ pr.alloc = some d.mask := by
  have hnodup := rntis_snapshots h.rntis now carrier
  obtain ⟨s, hs, hrnti, a, halloc, hask⟩ := (h.ready_dl hcells hp).retx_of_due hdue
  rw [make_eq] at hd
  rcases List.mem_append.mp hd with hd | hd
  · obtain ⟨s', hs', q, hq, hrnti', hpid, hmask⟩ :=
      of_mem_retxDownlink (hcells.nofPrb_le hp) (h.apart hcells hp) hd
    obtain rfl := List.inj_on_of_nodup_map hnodup hs' hs (hrnti'.symm.trans hrnti.symm)
    obtain rfl := Option.some.inj (hq.symm.trans hask)
    exact ⟨hpid, hmask ▸ halloc⟩
  · -- new data is planned only where nothing is due
    obtain ⟨s', hs', hrnti', q, hq, -⟩ := placeDownlink_begins _ d hd
    obtain rfl := List.inj_on_of_nodup_map hnodup hs' hs (hrnti'.symm.trans hrnti.symm)
    exact ((one_of_mem_snapshots hs).1 ⟨by rw [hask]; rfl, by rw [hq]; rfl⟩).elim

/-- An uplink retransmission that is due is planned where it was, without a message. -/
theorem mem_plan_ul_of_due (h : r.Orderly cells now next served quiet)
    (hcells : CellParams.Listed cells) (hp : cells[carrier]? = some p)
    (order : Direction → List Candidate → List Candidate) {rnti : Rnti}
    {pr : HarqProcess PrbInterval} (hdue : r.Due Link.ul carrier now.uplinkTx rnti pr) :
    ∃ a, pr.alloc = some a ∧
      (⟨rnti, pr.pid, a, none⟩ : UlPlan) ∈ (make p order (r.snapshots now carrier)).ul := by
  obtain ⟨s, hs, rfl, a, halloc, hask⟩ := (h.ready_ul hcells hp).retx_of_due hdue
  refine ⟨a, halloc, ?_⟩
  rw [make_eq, retxUplink_eq (hcells.nofPrb_le hp) (h.apart hcells hp)]
  refine List.mem_append_left _ (List.mem_filterMap.mpr ⟨s, hs, ?_⟩)
  rw [hask, Option.map_some]

/-- A downlink retransmission that is due is planned, or each of its candidates shares an
element with the message of a planned one. -/
theorem plan_dl_or_blocked (h : r.Orderly cells now next served quiet)
    (hcells : CellParams.Listed cells) (hp : cells[carrier]? = some p) {t : Terminal} (ht : t ∈ r)
    {l : Link} (hl : l ∈ t.links) (hcarrier : l.carrier = carrier) {pr : HarqProcess RbgMask}
    (hpr : pr ∈ l.dl.procs) (hdue : pr.hasPendingRetx now.downlinkTx = true) :
    (∃ d ∈ (retxDownlink p (r.snapshots now carrier)).1, d.rnti = t.rnti) ∨
      ∀ first ∈ l.dciCandidates now.downlinkTx.subframe l.aggrLevel,
        ∃ d ∈ (retxDownlink p (r.snapshots now carrier)).1,
          d.dci.overlaps ⟨first, l.aggrLevel⟩ = true := by
  have hparams : l.params = p := by
    have hlisted := (h.steady t ht).params l hl
    rw [hcarrier, hp] at hlisted
    exact (Option.some.inj hlisted).symm
  obtain ⟨s, hs, hshows⟩ := exists_snapshot h.steady ht hl
  obtain ⟨a, -, hask⟩ := (h.ready_dl hcells hp).retx_eq_of_due ht hl hcarrier hpr hdue hshows
  rw [hcarrier] at hs
  rcases retxDownlink_or_blocked (hcells.nofPrb_le hp) (h.apart hcells hp)
      (rntis_snapshots h.rntis now carrier) (h.counted hcells hp) hs hask with
    ⟨d, hd, hrnti, -⟩ | hblocked
  · exact .inl ⟨d, hd, hrnti.trans hshows.rnti_eq⟩
  · right
    intro first hfirst
    obtain ⟨hlevel, hinside⟩ := Link.of_mem_dciCandidates hfirst
    have hcce := CellParams.nofCce_le (hcells carrier p hp).2.1
    rw [hparams] at hinside
    rw [← hshows.candidates_eq] at hfirst
    have hover := hblocked first hfirst
    rw [hshows.level_eq] at hover
    refine hover hlevel (Nat.le_min.mpr ⟨hinside, Nat.le_trans hinside ?_⟩)
    exact Nat.le_trans hcce (by decide)

end Roster.Orderly

end MacScheduler
