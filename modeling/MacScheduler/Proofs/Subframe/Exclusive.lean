import MacScheduler.Proofs.Config.Check
import MacScheduler.Proofs.Subframe.Place

/-!
# Plans hand out every resource once

A plan is the retransmissions that stay, followed by the new data placed around
them.  Both parts keep the partition of groups, blocks and control elements, so
no two entries of a plan share a resource, every entry lies on the carrier, and
the control region holds the grant messages of the entries and nothing else.
-/

namespace MacScheduler

/-- The allocations repeated by a snapshot's retransmissions are not empty, and the
downlink one belongs to a carrier with these parameters. -/
def Snapshot.WellFormed (p : CellParams) (s : Snapshot) : Prop :=
  (∀ retx, s.dlRetx = some retx → retx.alloc.isEmpty = false ∧ retx.alloc.OfCarrier p.nofRbg) ∧
    ∀ retx, s.ulRetx = some retx → retx.alloc.isEmpty = false

namespace SubframePlan

section Phases

variable (p : CellParams) (order : Direction → List Candidate → List Candidate)
  (snapshots : List Snapshot)

def retxHolds : Holds := holdAll ⟨.empty p.nofRbg, uplinkMap p, [], [], []⟩ snapshots

def retxBatch : List (DciRequest × Option DciLocation) × ControlRegion :=
  (ControlRegion.empty p.nofCce).allocBatch (retxHolds p snapshots).requests

def retxDownlink : List DlPlan × RbgMask :=
  settleDownlink (retxBatch p snapshots).1 (retxHolds p snapshots).rbgs (retxHolds p snapshots).dl

def retxUplink : List UlPlan × PrbMap :=
  settleUplink (retxBatch p snapshots).1 (retxHolds p snapshots).prbs (retxHolds p snapshots).ul

def newDownlink : List DlPlan × RbgMask × ControlRegion :=
  placeDownlink snapshots p.nofRbg (retxDownlink p snapshots).2 (retxBatch p snapshots).2
    (order .downlink (candidates .downlink snapshots))

def newUplink : List UlPlan × PrbMap × ControlRegion :=
  placeUplink snapshots (retxUplink p snapshots).2 (newDownlink p order snapshots).2.2
    (order .uplink (candidates .uplink snapshots))

theorem make_eq : make p order snapshots =
    { dl := (retxDownlink p snapshots).1 ++ (newDownlink p order snapshots).1
      ul := (retxUplink p snapshots).1 ++ (newUplink p order snapshots).1
      region := (newUplink p order snapshots).2.2
      dlCandidates := order .downlink (candidates .downlink snapshots)
      ulCandidates := order .uplink (candidates .uplink snapshots) } := rfl

end Phases

section

variable {p : CellParams} (order : Direction → List Candidate → List Candidate)
  (snapshots : List Snapshot)

theorem retxHolds_consistent (hp : p.nofPrb ≤ 128) :
    (retxHolds p snapshots).Consistent p snapshots snapshots :=
  (Holds.Consistent.start hp).holdAll snapshots

/-- The requests of a batch end within the counts where the snapshots do. -/
theorem counted_requests (hp : p.nofPrb ≤ 128) (hcounted : ∀ s ∈ snapshots, s.Counted) :
    ∀ q ∈ (retxHolds p snapshots).requests.mergeSort ControlRegion.servedBefore, q.Counted :=
  fun q hq ↦ (retxHolds_consistent snapshots hp).counted hcounted hcounted q
    ((List.mergeSort_perm _ _).mem_iff.mp hq)

theorem retxDownlink_partition (hp : p.nofPrb ≤ 128) :
    (retxDownlink p snapshots).2.PartitionedBy ((retxDownlink p snapshots).1.map (·.mask)) := by
  have hholds := (retxHolds_consistent snapshots hp).rbgs
  rw [← List.nil_append ((retxHolds p snapshots).dl.map _)] at hholds
  exact settleDownlink_partitionedBy hholds

theorem size_retxDownlink (hp : p.nofPrb ≤ 128) : (retxDownlink p snapshots).2.size = p.nofRbg :=
  (size_settleDownlink _ _).trans (retxHolds_consistent snapshots hp).rbgs_size

theorem newDownlink_placement (hp : p.nofPrb ≤ 128) :
    DlPlacement snapshots ((retxDownlink p snapshots).1.map (·.mask)) (retxDownlink p snapshots).2
      (retxBatch p snapshots).2 (order .downlink (candidates .downlink snapshots))
      (newDownlink p order snapshots) :=
  placeDownlink_placement p.nofRbg (retxDownlink_partition snapshots hp) _

theorem newUplink_placement :
    UlPlacement snapshots (edges p ++ (retxUplink p snapshots).1.map (·.interval))
      (retxUplink p snapshots).2 (newDownlink p order snapshots).2.2
      (order .uplink (candidates .uplink snapshots)) (newUplink p order snapshots) :=
  placeUplink_placement _ _ _ _

theorem size_newUplink (hp : p.nofPrb ≤ 128) : (newUplink p order snapshots).2.1.size = p.nofPrb :=
  ((newUplink_placement order snapshots).size_eq.trans (size_settleUplink _ _)).trans
    (retxHolds_consistent snapshots hp).prbs_size

/-! ## Disjointness -/

theorem make_dl_partition (hp : p.nofPrb ≤ 128) :
    (newDownlink p order snapshots).2.1.PartitionedBy
      ((make p order snapshots).dl.map (·.mask)) := by
  rw [make_eq, List.map_append]
  exact (newDownlink_placement order snapshots hp).partition

/-- A block taken on the uplink belongs to an edge or to an entry. -/
theorem make_ul_covered (hp : p.nofPrb ≤ 128) :
    (newUplink p order snapshots).2.1.CoveredBy
      (edges p ++ (make p order snapshots).ul.map (·.interval)) := by
  rw [make_eq, List.map_append, ← List.append_assoc]
  have hholds := (retxHolds_consistent snapshots hp).covered
  exact (newUplink_placement order snapshots).covered (settleUplink_keeps .clear hholds)

theorem make_ul_partition (hp : p.nofPrb ≤ 128) (hcounted : ∀ s ∈ snapshots, s.Counted) :
    (newUplink p order snapshots).2.1.PartitionedBy
      (edges p ++ (make p order snapshots).ul.map (·.interval)) := by
  rw [make_eq, List.map_append, ← List.append_assoc]
  have hholds := (retxHolds_consistent snapshots hp).prbs hcounted
  exact (newUplink_placement order snapshots).partition (settleUplink_keeps .clear hholds)

theorem make_dl_disjoint (hp : p.nofPrb ≤ 128) :
    (make p order snapshots).dl.Pairwise fun a b ↦ a.mask.overlaps b.mask = false :=
  List.pairwise_map.mp (make_dl_partition order snapshots hp).disjoint

theorem make_ul_disjoint (hp : p.nofPrb ≤ 128) (hcounted : ∀ s ∈ snapshots, s.Counted) :
    (make p order snapshots).ul.Pairwise fun a b ↦ a.interval.overlaps b.interval = false :=
  List.pairwise_map.mp
    (List.pairwise_append.mp (make_ul_partition order snapshots hp hcounted).disjoint).2.1

theorem retxDownlink_inside (hp : p.nofPrb ≤ 128)
    (hdl : ∀ s ∈ snapshots, ∀ retx, s.dlRetx = some retx → retx.alloc.OfCarrier p.nofRbg) :
    ∀ d ∈ (retxDownlink p snapshots).1, d.mask.OfCarrier p.nofRbg := by
  intro d hd
  rw [retxDownlink, settleDownlink_fst] at hd
  obtain ⟨h, hh, hplan⟩ := List.mem_filterMap.mp hd
  rw [(of_dlPlan? hplan).2.2.1]
  exact (retxHolds_consistent snapshots hp).ofCarrier hdl h hh

theorem make_dl_inside (hp : p.nofPrb ≤ 128)
    (hdl : ∀ s ∈ snapshots, ∀ retx, s.dlRetx = some retx → retx.alloc.OfCarrier p.nofRbg) :
    ∀ d ∈ (make p order snapshots).dl, d.mask.OfCarrier p.nofRbg := by
  intro d hd
  rcases List.mem_append.mp hd with hd | hd
  · exact retxDownlink_inside snapshots hp hdl d hd
  · exact size_retxDownlink snapshots hp ▸ (newDownlink_placement order snapshots hp).ofCarrier d hd

theorem make_ul_nonempty (hp : p.nofPrb ≤ 128)
    (hul : ∀ s ∈ snapshots, ∀ retx, s.ulRetx = some retx → retx.alloc.isEmpty = false) :
    ∀ u ∈ (make p order snapshots).ul, 0 < u.interval.len := by
  intro u hu
  rcases List.mem_append.mp hu with hu | hu
  · rw [settleUplink_fst] at hu
    obtain ⟨h, hh, hplan⟩ := List.mem_filterMap.mp hu
    obtain ⟨s, hs, retx, hretx, -, -, hlen, -⟩ :=
      (retxHolds_consistent snapshots hp).ul_source h hh
    rw [(of_ulPlan? hplan).2.2.1, hlen]
    exact PrbInterval.not_isEmpty_iff.mp (hul s hs retx hretx)
  · exact (newUplink_placement order snapshots).nonempty u hu

/-- An interval that shares no block with the control edges lies between them. -/
theorem inside_of_disjoint_edges (hp : p.nofPrb ≤ 128) {i : PrbInterval} (hlen : 0 < i.len)
    (hstop : i.start + i.len ≤ p.nofPrb) (h : ∀ e ∈ edges p, e.overlaps i = false) :
    i.Within p.puschRegion := by
  have hcounted := PrbInterval.counted_of_le hstop hp
  have hedges := fun e he ↦ (uplinkMap_partitionedBy hp).counted (i := e) he
  have hregion := (puschRegion_counted hp).stop_eq
  have hlowMem : ⟨0, p.puschRegion.start⟩ ∈ edges p := List.mem_cons_self
  have hhighMem : ⟨p.puschRegion.stop, p.nofPrb - p.puschRegion.stop⟩ ∈ edges p :=
    List.mem_cons_of_mem _ (List.mem_singleton.mpr rfl)
  have hlow := (PrbInterval.overlaps_eq_false_iff (hedges _ hlowMem) hcounted).mp
    (h _ hlowMem) i.start
  have hhigh := (PrbInterval.overlaps_eq_false_iff (hedges _ hhighMem) hcounted).mp
    (h _ hhighMem) (i.start + i.len - 1)
  rw [(hedges _ hlowMem).holds_iff, hcounted.holds_iff] at hlow
  rw [(hedges _ hhighMem).holds_iff, hcounted.holds_iff] at hhigh
  simp only [PrbInterval.Has] at hlow hhigh
  unfold PrbInterval.Within
  omega

theorem make_ul_inside (hp : p.nofPrb ≤ 128) (hcounted : ∀ s ∈ snapshots, s.Counted)
    (hul : ∀ s ∈ snapshots, ∀ retx, s.ulRetx = some retx → retx.alloc.isEmpty = false) :
    ∀ u ∈ (make p order snapshots).ul, u.interval.Within p.puschRegion := by
  intro u hu
  have hpart := make_ul_partition order snapshots hp hcounted
  have hmem : u.interval ∈ (make p order snapshots).ul.map (·.interval) :=
    List.mem_map_of_mem hu
  refine inside_of_disjoint_edges hp (make_ul_nonempty order snapshots hp hul u hu) ?_ ?_
  · exact size_newUplink order snapshots hp ▸ hpart.inside _ (List.mem_append_right _ hmem)
  · exact fun e he ↦ (List.pairwise_append.mp hpart.disjoint).2.2 e he _ hmem

/-! ## One entry per terminal -/

theorem count_le_one_of_sublists {f g : Snapshot → Bool} {as bs cs : List Rnti} {rnti : Rnti}
    (hnodup : (snapshots.map (·.rnti)).Nodup)
    (hone : ∀ s ∈ snapshots, s.rnti = rnti → ¬(f s ∧ g s))
    (has : as.Sublist ((snapshots.filter f).map (·.rnti)))
    (hbs : bs.Sublist cs) (hcs : cs.Perm ((snapshots.filter g).map (·.rnti))) :
    (as ++ bs).count rnti ≤ 1 := by
  have hle : ∀ q : Snapshot → Bool, ((snapshots.filter q).map (·.rnti)).count rnti ≤ 1 :=
    fun q ↦ List.nodup_iff_count_le_one.mp (hnodup.sublist (List.filter_sublist.map _)) rnti
  have ha := has.count_le rnti
  have hb := Nat.le_trans (hbs.count_le rnti) (Nat.le_of_eq (hcs.count_eq rnti))
  have hf := hle f
  have hg := hle g
  rw [List.count_append]
  by_contra hgt
  have hfpos : 0 < ((snapshots.filter f).map (·.rnti)).count rnti := by omega
  have hgpos : 0 < ((snapshots.filter g).map (·.rnti)).count rnti := by omega
  obtain ⟨s, hs, hsr⟩ := List.mem_map.mp (List.count_pos_iff.mp hfpos)
  obtain ⟨t, ht, htr⟩ := List.mem_map.mp (List.count_pos_iff.mp hgpos)
  obtain ⟨hsmem, hsf⟩ := List.mem_filter.mp hs
  obtain ⟨htmem, htg⟩ := List.mem_filter.mp ht
  have hst : s = t := List.inj_on_of_nodup_map hnodup hsmem htmem (hsr.trans htr.symm)
  exact hone s hsmem hsr ⟨hsf, hst ▸ htg⟩

theorem rnti_candidates (dir : Direction) :
    (candidates dir snapshots).map (·.rnti) =
      (snapshots.filter fun s ↦ (newRequest? s dir).isSome).map (·.rnti) := by
  induction snapshots with
  | nil => rfl
  | cons s snapshots ih =>
      unfold candidates at ih ⊢
      cases hq : newRequest? s dir with
      | none => simpa [hq] using ih
      | some q => simpa [hq] using ih

theorem make_dl_unique (hp : p.nofPrb ≤ 128) (horder : ∀ dir cs, (order dir cs).Perm cs)
    (hnodup : (snapshots.map (·.rnti)).Nodup) {rnti : Rnti}
    (hone : ∀ s ∈ snapshots, s.rnti = rnti → ¬(s.dlRetx.isSome ∧ s.dlNew.isSome)) :
    ((make p order snapshots).dl.map (·.rnti)).count rnti ≤ 1 := by
  rw [make_eq, List.map_append]
  refine count_le_one_of_sublists snapshots hnodup hone ?_
    (newDownlink_placement order snapshots hp).rntis
    (((horder _ _).map _).trans (.of_eq (rnti_candidates snapshots .downlink)))
  rw [retxDownlink, settleDownlink_fst]
  exact (sublist_map_filterMap (fun _ _ hd ↦ (of_dlPlan? hd).1) _).trans
    (retxHolds_consistent snapshots hp).dl_rntis

theorem make_ul_unique (hp : p.nofPrb ≤ 128) (horder : ∀ dir cs, (order dir cs).Perm cs)
    (hnodup : (snapshots.map (·.rnti)).Nodup) {rnti : Rnti}
    (hone : ∀ s ∈ snapshots, s.rnti = rnti → ¬(s.ulRetx.isSome ∧ s.ulNew.isSome)) :
    ((make p order snapshots).ul.map (·.rnti)).count rnti ≤ 1 := by
  rw [make_eq, List.map_append]
  refine count_le_one_of_sublists snapshots hnodup hone ?_
    (newUplink_placement order snapshots).rntis
    (((horder _ _).map _).trans (.of_eq (rnti_candidates snapshots .uplink)))
  rw [retxUplink, settleUplink_fst]
  exact (sublist_map_filterMap (fun _ _ hu ↦ (of_ulPlan? hu).1) _).trans
    (retxHolds_consistent snapshots hp).ul_rntis

end

/-! ## What the entries are for -/

end SubframePlan

/-- A downlink entry repeats what the snapshot asks to repeat, on as many groups, or starts
the new data it asks for, on some blocks. -/
inductive DlPlan.Serves (p : CellParams) (s : Snapshot) (d : DlPlan) : Prop
  | repeats {q : RetxRequest RbgMask} (hq : s.dlRetx = some q) (hpid : d.pid = q.pid)
      (hcount : d.mask.count = q.alloc.count)
  | starts {q : NewTxRequest} (hq : s.dlNew = some q) (hpid : d.pid = q.pid)
      (hmask : d.mask.OfCarrier p.nofRbg) (hblocks : 0 < d.mask.nofPrb p.nofPrb)

inductive UlPlan.Serves (s : Snapshot) (u : UlPlan) : Prop
  | repeats {q : RetxRequest PrbInterval} (hq : s.ulRetx = some q) (hpid : u.pid = q.pid)
      (hlen : u.interval.len = q.alloc.len)
  | starts {q : NewTxRequest} (hq : s.ulNew = some q) (hpid : u.pid = q.pid)
      (hlen : 0 < u.interval.len)

namespace SubframePlan

section

variable {p : CellParams} (order : Direction → List Candidate → List Candidate)
  (snapshots : List Snapshot)

theorem make_dl_serves (hp : p.nofPrb ≤ 128) :
    ∀ d ∈ (make p order snapshots).dl, ∃ s ∈ snapshots, d.rnti = s.rnti ∧ d.Serves p s := by
  intro d hd
  have hholds := retxHolds_consistent snapshots hp
  rcases List.mem_append.mp hd with hd | hd
  · rw [settleDownlink_fst] at hd
    obtain ⟨h, hh, hplan⟩ := List.mem_filterMap.mp hd
    obtain ⟨hrnti, hpid, hmask, -⟩ := of_dlPlan? hplan
    obtain ⟨s, hs, q, hq, hsource, hqpid, hcount, -⟩ := hholds.dl_source h hh
    exact ⟨s, hs, hrnti.trans hsource, .repeats hq (hpid.trans hqpid) (hmask ▸ hcount)⟩
  · have hplacement := newDownlink_placement order snapshots hp
    obtain ⟨s, hs, hrnti, q, hq, hpid⟩ := placeDownlink_begins _ d hd
    have hsize := size_retxDownlink snapshots hp
    obtain ⟨i, hi⟩ := placeDownlink_nonempty (RbgMask.nofRbgs_le hp) hsize _ _ d hd
    have hmask : d.mask.OfCarrier p.nofRbg := hsize ▸ hplacement.ofCarrier d hd
    exact ⟨s, hs, hrnti, .starts hq hpid hmask (RbgMask.nofPrb_pos hmask.size_eq hi)⟩

theorem make_ul_serves (hp : p.nofPrb ≤ 128) :
    ∀ u ∈ (make p order snapshots).ul, ∃ s ∈ snapshots, u.rnti = s.rnti ∧ u.Serves s := by
  intro u hu
  rcases List.mem_append.mp hu with hu | hu
  · rw [settleUplink_fst] at hu
    obtain ⟨h, hh, hplan⟩ := List.mem_filterMap.mp hu
    obtain ⟨hrnti, hpid, hinterval, -⟩ := of_ulPlan? hplan
    obtain ⟨s, hs, q, hq, hsource, hqpid, hlen, -⟩ :=
      (retxHolds_consistent snapshots hp).ul_source h hh
    exact ⟨s, hs, hrnti.trans hsource, .repeats hq (hpid.trans hqpid) (hinterval ▸ hlen)⟩
  · have hplacement := newUplink_placement (p := p) order snapshots
    obtain ⟨s, hs, hrnti, q, hq, hpid⟩ := placeUplink_begins _ u hu
    exact ⟨s, hs, hrnti, .starts hq hpid (hplacement.nonempty u hu)⟩

end

end SubframePlan

end MacScheduler
