import MacScheduler.Proofs.Subframe.Exclusive

/-!
# Retransmissions that stay where they were

Where the last allocations of all retransmissions are disjoint, each is free when
its turn comes: nothing is moved, uplink needs no grant message, and downlink
competes for control elements with other retransmissions only.
-/

namespace MacScheduler.SubframePlan

/-- The last allocations of the retransmissions share no resource, and the uplink ones lie
between the control edges. -/
structure Apart (p : CellParams) (snapshots : List Snapshot) : Prop where
  dl : snapshots.Pairwise fun s t ↦ ∀ a b, s.dlRetx = some a → t.dlRetx = some b →
    a.alloc.overlaps b.alloc = false
  ul : snapshots.Pairwise fun s t ↦ ∀ a b, s.ulRetx = some a → t.ulRetx = some b →
    a.alloc.overlaps b.alloc = false
  ul_inside : ∀ s ∈ snapshots, ∀ q, s.ulRetx = some q → q.alloc.Within p.puschRegion

def ownDownlink? (s : Snapshot) : Option DlHold :=
  s.dlRetx.map fun q ↦ ⟨s.rnti, q.pid, q.alloc⟩

def ownUplink? (s : Snapshot) : Option UlHold :=
  s.ulRetx.map fun q ↦ ⟨s.rnti, q.pid, q.alloc, false⟩

def ownRequest? (s : Snapshot) : Option DciRequest :=
  s.dlRetx.map fun _ ↦ dciRequest s .downlink

/-- Everything set aside so far is where it was. -/
structure Holds.Unmoved (seen : List Snapshot) (h : Holds) : Prop where
  dl : h.dl = seen.filterMap ownDownlink?
  ul : h.ul = seen.filterMap ownUplink?
  requests : h.requests = seen.filterMap ownRequest?

variable {p : CellParams} {h : Holds} {seen rest : List Snapshot} {s : Snapshot}

/-! ## One terminal -/

/-- A block between the control edges belongs to neither. -/
theorem not_mem_edges (hp : p.nofPrb ≤ 128) {k : Nat} (hk : p.puschRegion.Has k) {e : PrbInterval}
    (he : e ∈ edges p) : ¬e.Holds k := by
  obtain ⟨hstart, hstop⟩ := hk
  have hend := (puschRegion_counted hp).stop_eq
  rintro ⟨hek, hke⟩
  simp only [edges, List.mem_cons, List.not_mem_nil, or_false] at he
  rcases he with rfl | rfl
  · have hedge := PrbInterval.stop_le ⟨0, p.puschRegion.start⟩
    simp only at hedge
    omega
  · simp only at hek
    omega

theorem Holds.Unmoved.downlink_free (hu : h.Unmoved seen) (hc : h.Consistent p seen seen)
    (hapart : Apart p (seen ++ s :: rest)) {q : RetxRequest RbgMask} (hq : s.dlRetx = some q) :
    h.rbgs.overlaps q.alloc = false := by
  have hpairs := (List.pairwise_append.mp hapart.dl).2.2
  rw [RbgMask.overlaps_eq_false_iff]
  intro i hi
  obtain ⟨m, hm, hmi⟩ := (hc.rbgs.bit_iff i).mp hi
  rw [hu.dl] at hm
  obtain ⟨d, hd, rfl⟩ := List.mem_map.mp hm
  obtain ⟨r, hr, hd⟩ := List.mem_filterMap.mp hd
  obtain ⟨a, ha, rfl⟩ := Option.map_eq_some_iff.mp hd
  exact RbgMask.overlaps_eq_false_iff.mp (hpairs r hr s List.mem_cons_self a q ha hq) i hmi

theorem Holds.Unmoved.uplink_free (hu : h.Unmoved seen) (hc : h.Consistent p seen seen)
    (hp : p.nofPrb ≤ 128) (hapart : Apart p (seen ++ s :: rest)) {q : RetxRequest PrbInterval}
    (hq : s.ulRetx = some q) : h.prbs.isFree q.alloc = true := by
  have hpairs := (List.pairwise_append.mp hapart.ul).2.2
  have hcounted := puschRegion_counted hp
  have hinside := hapart.ul_inside s (by simp) q hq
  have hend := puschRegion_end p
  refine PrbMap.Free.isFree ⟨?_, fun k hk ↦ ?_⟩
  · rw [hc.prbs_size]
    exact Nat.le_trans hinside.2 (by omega)
  · by_contra htaken
    obtain ⟨-, i, hi, hik⟩ := hc.covered k (by simpa using htaken)
    rcases List.mem_append.mp hi with hi | hi
    · exact not_mem_edges hp (hinside.has hk) hi hik
    · rw [hu.ul] at hi
      obtain ⟨u, hu', rfl⟩ := List.mem_map.mp hi
      obtain ⟨r, hr, hu'⟩ := List.mem_filterMap.mp hu'
      obtain ⟨a, ha, rfl⟩ := Option.map_eq_some_iff.mp hu'
      have hother := (hapart.ul_inside r (List.mem_append_left _ hr) a ha).counted hcounted
      have hown := hinside.counted hcounted
      exact (PrbInterval.overlaps_eq_false_iff hother hown).mp
        (hpairs r hr s List.mem_cons_self a q ha hq) k hik (hown.holds_iff.mpr hk)

theorem Holds.Unmoved.step (hu : h.Unmoved seen) (hc : h.Consistent p seen seen)
    (hp : p.nofPrb ≤ 128) (hapart : Apart p (seen ++ s :: rest)) :
    (holdUplink (holdDownlink h s) s).Unmoved (seen ++ [s]) := by
  have hdl : (holdDownlink h s).prbs = h.prbs ∧ (holdDownlink h s).ul = h.ul ∧
      (holdDownlink h s).dl = (seen ++ [s]).filterMap ownDownlink? ∧
      (holdDownlink h s).requests = (seen ++ [s]).filterMap ownRequest? := by
    rw [List.filterMap_append, List.filterMap_append, ← hu.dl, ← hu.requests]
    cases hq : s.dlRetx with
    | none => simp [holdDownlink, ownDownlink?, ownRequest?, hq]
    | some q =>
        have hfree := hu.downlink_free hc hapart hq
        simp [holdDownlink, retxMask, ownDownlink?, ownRequest?, hq, hfree]
  obtain ⟨hprbs, hulHolds, hdlHolds, hrequests⟩ := hdl
  have hul : (holdUplink (holdDownlink h s) s).dl = (holdDownlink h s).dl ∧
      (holdUplink (holdDownlink h s) s).ul = (seen ++ [s]).filterMap ownUplink? ∧
      (holdUplink (holdDownlink h s) s).requests = (holdDownlink h s).requests := by
    rw [List.filterMap_append, ← hu.ul, ← hulHolds]
    cases hq : s.ulRetx with
    | none => simp [holdUplink, ownUplink?, hq]
    | some q =>
        have hfree := hprbs ▸ hu.uplink_free hc hp hapart hq
        simp [holdUplink, retxInterval?, ownUplink?, hq, hfree]
  exact ⟨hul.1.trans hdlHolds, hul.2.1, hul.2.2.trans hrequests⟩

/-! ## All terminals -/

theorem Holds.Unmoved.holdAll (hu : h.Unmoved seen) (hc : h.Consistent p seen seen)
    (hp : p.nofPrb ≤ 128) (hapart : Apart p (seen ++ rest)) :
    (SubframePlan.holdAll h rest).Unmoved (seen ++ rest) := by
  induction rest generalizing h seen with
  | nil => simpa [SubframePlan.holdAll] using hu
  | cons s rest ih =>
      have hnext := (hc.holdDownlink s).holdUplink s
      have hrest := ih (hu.step hc hp hapart) hnext (by simpa using hapart)
      rw [List.append_assoc] at hrest
      exact hrest

theorem Apart.prefix {post : List Snapshot} (h : Apart p (seen ++ post)) : Apart p seen where
  dl := (List.pairwise_append.mp h.dl).1
  ul := (List.pairwise_append.mp h.ul).1
  ul_inside := fun s hs ↦ h.ul_inside s (List.mem_append_left _ hs)

theorem retxHolds_unmoved {snapshots : List Snapshot} (hp : p.nofPrb ≤ 128)
    (hapart : Apart p snapshots) : (retxHolds p snapshots).Unmoved snapshots := by
  have hstart : Holds.Unmoved [] ⟨.empty p.nofRbg, uplinkMap p, [], [], []⟩ := ⟨rfl, rfl, rfl⟩
  exact hstart.holdAll (.start hp) hp hapart

theorem retx_free (hp : p.nofPrb ≤ 128) (hapart : Apart p (seen ++ s :: rest)) :
    (∀ q, s.dlRetx = some q → (retxHolds p seen).rbgs.overlaps q.alloc = false) ∧
      ∀ q, s.ulRetx = some q → (retxHolds p seen).prbs.isFree q.alloc = true := by
  have hu := retxHolds_unmoved hp hapart.prefix
  have hc := retxHolds_consistent seen hp
  exact ⟨fun _ hq ↦ hu.downlink_free hc hapart hq, fun _ hq ↦ hu.uplink_free hc hp hapart hq⟩

variable {snapshots : List Snapshot}

theorem retxUplink_eq (hp : p.nofPrb ≤ 128) (hapart : Apart p snapshots) :
    (retxUplink p snapshots).1 =
      snapshots.filterMap fun s ↦ s.ulRetx.map fun q ↦ ⟨s.rnti, q.pid, q.alloc, none⟩ := by
  rw [retxUplink, settleUplink_fst, (retxHolds_unmoved hp hapart).ul, List.filterMap_filterMap]
  apply List.filterMap_congr
  intro s _
  cases hq : s.ulRetx with
  | none => simp [ownUplink?, hq]
  | some q => simp [ownUplink?, hq, UlHold.plan?]

theorem of_mem_retxDownlink (hp : p.nofPrb ≤ 128) (hapart : Apart p snapshots) {d : DlPlan}
    (hd : d ∈ (retxDownlink p snapshots).1) :
    ∃ s ∈ snapshots, ∃ q, s.dlRetx = some q ∧ d.rnti = s.rnti ∧ d.pid = q.pid ∧
      d.mask = q.alloc := by
  rw [retxDownlink, settleDownlink_fst, (retxHolds_unmoved hp hapart).dl] at hd
  obtain ⟨hold, hhold, hplan⟩ := List.mem_filterMap.mp hd
  obtain ⟨s, hs, hhold⟩ := List.mem_filterMap.mp hhold
  obtain ⟨q, hq, rfl⟩ := Option.map_eq_some_iff.mp hhold
  obtain ⟨hrnti, hpid, hmask, -⟩ := of_dlPlan? hplan
  exact ⟨s, hs, q, hq, hrnti, hpid, hmask⟩

theorem exists_answer {q : DciRequest} (hq : q ∈ (retxHolds p snapshots).requests) :
    ∃ loc, (q, loc) ∈ (retxBatch p snapshots).1 := by
  have hmem := (List.mergeSort_perm (retxHolds p snapshots).requests
    ControlRegion.servedBefore).mem_iff.mpr hq
  rw [← ControlRegion.allocAll_fst (.empty p.nofCce)
    ((retxHolds p snapshots).requests.mergeSort ControlRegion.servedBefore)] at hmem
  obtain ⟨⟨_, loc⟩, hanswer, rfl⟩ := List.mem_map.mp hmem
  exact ⟨loc, hanswer⟩

/-- A retransmission that has groups set aside is planned, or its request stays unanswered. -/
theorem planned_or_unanswered (hp : p.nofPrb ≤ 128) (hnodup : (snapshots.map (·.rnti)).Nodup)
    {d : DlHold} (hd : d ∈ (retxHolds p snapshots).dl) (hrnti : d.rnti = s.rnti)
    (hrequest : dciRequest s .downlink ∈ (retxHolds p snapshots).requests) :
    (∃ dci, ⟨d.rnti, d.pid, d.mask, dci⟩ ∈ (retxDownlink p snapshots).1) ∨
      (dciRequest s .downlink, none) ∈ (retxBatch p snapshots).1 := by
  have hkeys := nodup_keys_allocBatch (retxHolds_consistent snapshots hp) hnodup hnodup p.nofCce
  obtain ⟨loc, hanswer⟩ := exists_answer hrequest
  cases loc with
  | none => exact .inr hanswer
  | some dci =>
      have hplaced : placedFor (retxBatch p snapshots).1 d.rnti .downlink = some dci :=
        hrnti ▸ placedFor_of_mem hkeys hanswer
      refine .inl ⟨dci, ?_⟩
      rw [retxDownlink, settleDownlink_fst]
      exact List.mem_filterMap.mpr ⟨d, hd, by rw [DlHold.plan?, hplaced]; rfl⟩

theorem message_of_mem_retxBatch (hp : p.nofPrb ≤ 128) (hapart : Apart p snapshots)
    (hnodup : (snapshots.map (·.rnti)).Nodup) {a : DciAlloc}
    (ha : a ∈ (retxBatch p snapshots).2.allocs) :
    ∃ d ∈ (retxDownlink p snapshots).1, d.message = a := by
  have hperm := allocBatch_allocs (retxHolds_consistent snapshots hp) hnodup hnodup p.nofCce rfl
  have hul : ((retxHolds p snapshots).ul.filterMap
      (UlHold.plan? (retxBatch p snapshots).1)).filterMap UlPlan.message? = [] := by
    have heq := retxUplink_eq hp hapart
    rw [retxUplink, settleUplink_fst] at heq
    rw [heq, List.filterMap_filterMap, List.filterMap_eq_nil_iff]
    intro t _
    cases t.ulRetx <;> rfl
  have ha := hperm.mem_iff.mp ha
  change a ∈ _ ++ ((retxHolds p snapshots).ul.filterMap
    (UlHold.plan? (retxBatch p snapshots).1)).filterMap UlPlan.message? at ha
  rw [hul, List.append_nil] at ha
  rw [retxDownlink, settleDownlink_fst]
  exact List.mem_map.mp ha

/-- A downlink retransmission is planned, or each of its candidates shares an element with
the grant message of one that is. -/
theorem retxDownlink_or_blocked (hp : p.nofPrb ≤ 128) (hapart : Apart p snapshots)
    (hnodup : (snapshots.map (·.rnti)).Nodup) (hcounted : ∀ s ∈ snapshots, s.Counted)
    {s : Snapshot} (hs : s ∈ snapshots) {q : RetxRequest RbgMask} (hq : s.dlRetx = some q) :
    (∃ d ∈ (retxDownlink p snapshots).1, d.rnti = s.rnti ∧ d.pid = q.pid ∧ d.mask = q.alloc) ∨
      ∀ first ∈ s.candidates, s.aggrLevel ≤ maxAggrLevel →
        DciLocation.Inside ⟨first, s.aggrLevel⟩ (min p.nofCce ControlRegion.maxSize) →
        ∃ d ∈ (retxDownlink p snapshots).1, d.dci.overlaps ⟨first, s.aggrLevel⟩ = true := by
  have hu := retxHolds_unmoved hp hapart
  have hhold : ⟨s.rnti, q.pid, q.alloc⟩ ∈ (retxHolds p snapshots).dl := by
    rw [hu.dl]
    exact List.mem_filterMap.mpr ⟨s, hs, by simp [ownDownlink?, hq]⟩
  have hrequest : dciRequest s .downlink ∈ (retxHolds p snapshots).requests := by
    rw [hu.requests]
    exact List.mem_filterMap.mpr ⟨s, hs, by simp [ownRequest?, hq]⟩
  rcases planned_or_unanswered hp hnodup hhold rfl hrequest with ⟨dci, hplanned⟩ | hunanswered
  · exact .inl ⟨_, hplanned, rfl, rfl, rfl⟩
  · right
    intro first hfirst hlevel hinside
    obtain ⟨a, ha, hover⟩ := (ControlRegion.consistent_empty p.nofCce).blocked
      (counted_requests snapshots hp hcounted) hunanswered hfirst hlevel hinside
    obtain ⟨d, hd, rfl⟩ := message_of_mem_retxBatch hp hapart hnodup ha
    exact ⟨d, hd, hover⟩

end MacScheduler.SubframePlan
