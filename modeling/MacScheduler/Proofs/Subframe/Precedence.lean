import MacScheduler.Proofs.Subframe.Exclusive

/-!
# Retransmissions come before new data

The first phases of a plan read only what the terminals have to repeat.  So the
retransmissions of a plan are those planned when nobody asks for new data, with
the same resources and grant messages, and the new data follows them.
-/

namespace MacScheduler

/-- What a terminal asks for apart from new data. -/
def Snapshot.withoutNew (s : Snapshot) : Snapshot := { s with dlNew := none, ulNew := none }

/-- The entry repeats the block that the snapshot asks to repeat, on as many groups. -/
def DlPlan.Repeats (s : Snapshot) (d : DlPlan) : Prop :=
  d.rnti = s.rnti ∧ ∃ q, s.dlRetx = some q ∧ d.pid = q.pid ∧ d.mask.count = q.alloc.count

def UlPlan.Repeats (s : Snapshot) (u : UlPlan) : Prop :=
  u.rnti = s.rnti ∧ ∃ q, s.ulRetx = some q ∧ u.pid = q.pid ∧ u.interval.len = q.alloc.len

namespace SubframePlan

/-- In each direction a plan is its retransmissions, followed by its new data. -/
structure Phases (snapshots : List Snapshot) (plan : SubframePlan) (dlRetx dlNew : List DlPlan)
    (ulRetx ulNew : List UlPlan) : Prop where
  dl : plan.dl = dlRetx ++ dlNew
  ul : plan.ul = ulRetx ++ ulNew
  dl_repeats : ∀ d ∈ dlRetx, ∃ s ∈ snapshots, d.Repeats s
  dl_begins : ∀ d ∈ dlNew, ∃ s ∈ snapshots, d.Begins s
  ul_repeats : ∀ u ∈ ulRetx, ∃ s ∈ snapshots, u.Repeats s
  ul_begins : ∀ u ∈ ulNew, ∃ s ∈ snapshots, u.Begins s

variable {snapshots snapshots' : List Snapshot}

/-! ## Retransmissions repeat a block -/

theorem mem_dl_holdAll {h : Holds} {d : DlHold} (hd : d ∈ (holdAll h snapshots).dl) :
    d ∈ h.dl ∨ ∃ s ∈ snapshots, d.rnti = s.rnti ∧
      ∃ q, s.dlRetx = some q ∧ d.pid = q.pid ∧ d.mask.count = q.alloc.count := by
  induction snapshots generalizing h with
  | nil => exact .inl hd
  | cons s snapshots ih =>
      rcases ih (h := holdUplink (holdDownlink h s) s) hd with hd | ⟨t, ht, hsource⟩
      · have hul : (holdUplink (holdDownlink h s) s).dl = (holdDownlink h s).dl := by
          rcases holdUplink_cases (holdDownlink h s) s with heq | ⟨_, _, _, -, -, heq⟩ <;> rw [heq]
        rw [hul] at hd
        rcases holdDownlink_cases h s with heq | ⟨q, hq, hcount, heq⟩
        · exact .inl (heq ▸ hd)
        · rw [heq] at hd
          rcases List.mem_append.mp hd with hd | hd
          · exact .inl hd
          · obtain rfl := List.mem_singleton.mp hd
            exact .inr ⟨s, List.mem_cons_self, rfl, q, hq, rfl, hcount⟩
      · exact .inr ⟨t, List.mem_cons_of_mem s ht, hsource⟩

theorem mem_ul_holdAll {h : Holds} {u : UlHold} (hu : u ∈ (holdAll h snapshots).ul) :
    u ∈ h.ul ∨ ∃ s ∈ snapshots, u.rnti = s.rnti ∧
      ∃ q, s.ulRetx = some q ∧ u.pid = q.pid ∧ u.interval.len = q.alloc.len := by
  induction snapshots generalizing h with
  | nil => exact .inl hu
  | cons s snapshots ih =>
      rcases ih (h := holdUplink (holdDownlink h s) s) hu with hu | ⟨t, ht, hsource⟩
      · have hdl : (holdDownlink h s).ul = h.ul := by
          rcases holdDownlink_cases h s with heq | ⟨_, -, -, heq⟩ <;> rw [heq]
        rcases holdUplink_cases (holdDownlink h s) s with heq | ⟨q, i, moved, hq, hi, heq⟩
        · exact .inl (hdl ▸ heq ▸ hu)
        · rw [heq] at hu
          rcases List.mem_append.mp hu with hu | hu
          · exact .inl (hdl ▸ hu)
          · obtain rfl := List.mem_singleton.mp hu
            have hlen := (of_retxInterval? hi).2.1
            exact .inr ⟨s, List.mem_cons_self, rfl, q, hq, rfl, hlen⟩
      · exact .inr ⟨t, List.mem_cons_of_mem s ht, hsource⟩

variable (p : CellParams)

theorem retxDownlink_repeats :
    ∀ d ∈ (retxDownlink p snapshots).1, ∃ s ∈ snapshots, d.Repeats s := by
  intro d hd
  rw [retxDownlink, settleDownlink_fst] at hd
  obtain ⟨h, hh, hplan⟩ := List.mem_filterMap.mp hd
  obtain ⟨hrnti, hpid, hmask, -⟩ := of_dlPlan? hplan
  rcases mem_dl_holdAll hh with hh | ⟨s, hs, hsource, q, hq, hqpid, hcount⟩
  · cases hh
  · exact ⟨s, hs, hrnti.trans hsource, q, hq, hpid.trans hqpid, hmask ▸ hcount⟩

theorem retxUplink_repeats :
    ∀ u ∈ (retxUplink p snapshots).1, ∃ s ∈ snapshots, u.Repeats s := by
  intro u hu
  rw [retxUplink, settleUplink_fst] at hu
  obtain ⟨h, hh, hplan⟩ := List.mem_filterMap.mp hu
  obtain ⟨hrnti, hpid, hinterval, -⟩ := of_ulPlan? hplan
  rcases mem_ul_holdAll hh with hh | ⟨s, hs, hsource, q, hq, hqpid, hlen⟩
  · cases hh
  · exact ⟨s, hs, hrnti.trans hsource, q, hq, hpid.trans hqpid, hinterval ▸ hlen⟩

theorem make_phases (order : Direction → List Candidate → List Candidate)
    (snapshots : List Snapshot) :
    Phases snapshots (make p order snapshots) (retxDownlink p snapshots).1
      (newDownlink p order snapshots).1 (retxUplink p snapshots).1
      (newUplink p order snapshots).1 where
  dl := rfl
  ul := rfl
  dl_repeats := retxDownlink_repeats p
  dl_begins := placeDownlink_begins _
  ul_repeats := retxUplink_repeats p
  ul_begins := placeUplink_begins _

/-! ## The first phases read no request for new data -/

theorem holdAll_withoutNew (h : Holds) (snapshots : List Snapshot) :
    holdAll h (snapshots.map Snapshot.withoutNew) = holdAll h snapshots := by
  -- each hold reads the terminal and its blocks to repeat, which are kept
  rw [holdAll, List.foldl_map]
  rfl

theorem retxHolds_withoutNew (snapshots : List Snapshot) :
    retxHolds p (snapshots.map Snapshot.withoutNew) = retxHolds p snapshots :=
  holdAll_withoutNew _ snapshots

theorem retxDownlink_withoutNew (snapshots : List Snapshot) :
    retxDownlink p (snapshots.map Snapshot.withoutNew) = retxDownlink p snapshots := by
  simp only [retxDownlink, retxBatch, retxHolds_withoutNew]

theorem retxUplink_withoutNew (snapshots : List Snapshot) :
    retxUplink p (snapshots.map Snapshot.withoutNew) = retxUplink p snapshots := by
  simp only [retxUplink, retxBatch, retxHolds_withoutNew]

theorem candidates_withoutNew (dir : Direction) (snapshots : List Snapshot) :
    candidates dir (snapshots.map Snapshot.withoutNew) = [] := by
  cases dir <;> simp [candidates, newRequest?, Snapshot.withoutNew]

variable {p} {order order' : Direction → List Candidate → List Candidate}

/-- Where nobody asks for new data, a plan is its retransmissions. -/
theorem make_withoutNew (horder : ∀ dir cs, (order dir cs).Perm cs) (snapshots : List Snapshot) :
    (make p order (snapshots.map Snapshot.withoutNew)).dl = (retxDownlink p snapshots).1 ∧
      (make p order (snapshots.map Snapshot.withoutNew)).ul = (retxUplink p snapshots).1 := by
  have hnone : ∀ dir, order dir (candidates dir (snapshots.map Snapshot.withoutNew)) = [] := by
    intro dir
    rw [candidates_withoutNew]
    exact (horder dir []).eq_nil
  rw [make_eq, newDownlink, newUplink, hnone, hnone, retxDownlink_withoutNew,
    retxUplink_withoutNew]
  exact ⟨List.append_nil _, List.append_nil _⟩

/-- Two runs that differ in the requests for new data and in the policy plan the same
retransmissions, those of a run without new data, before all new data. -/
theorem retransmissions_unaffected_by_new_data (horder : ∀ dir cs, (order dir cs).Perm cs)
    (hagree : snapshots.map Snapshot.withoutNew = snapshots'.map Snapshot.withoutNew) :
    ∃ dlNew ulNew dlNew' ulNew',
      Phases snapshots (make p order snapshots)
        (make p order (snapshots.map Snapshot.withoutNew)).dl dlNew
        (make p order (snapshots.map Snapshot.withoutNew)).ul ulNew ∧
      Phases snapshots' (make p order' snapshots')
        (make p order (snapshots.map Snapshot.withoutNew)).dl dlNew'
        (make p order (snapshots.map Snapshot.withoutNew)).ul ulNew' := by
  refine ⟨(newDownlink p order snapshots).1, (newUplink p order snapshots).1,
    (newDownlink p order' snapshots').1, (newUplink p order' snapshots').1, ?_, ?_⟩
  · obtain ⟨hdl, hul⟩ := make_withoutNew (p := p) horder snapshots
    rw [hdl, hul]
    exact make_phases p order snapshots
  · rw [hagree]
    obtain ⟨hdl, hul⟩ := make_withoutNew (p := p) horder snapshots'
    rw [hdl, hul]
    exact make_phases p order' snapshots'

/-- Two retransmissions that ask for the same groups and blocks, and a terminal without one. -/
def repeatingSnapshots : List Snapshot :=
  [⟨⟨70⟩, 1, [0, 2, 4], some ⟨3, .ofRange 13 0 4⟩, none, some ⟨1, ⟨4, 6⟩⟩, none⟩,
    ⟨⟨71⟩, 1, [0, 2, 4], some ⟨5, .ofRange 13 2 4⟩, none, some ⟨2, ⟨6, 4⟩⟩, none⟩,
    ⟨⟨72⟩, 0, [0, 6], none, none, none, none⟩]

/-- The same terminals, all of which have new data in each direction. -/
def contendingSnapshots : List Snapshot :=
  repeatingSnapshots.map fun s ↦
    { s with
      dlNew := some ⟨6, 900, 9, Float.ofNat 100⟩
      ulNew := some ⟨7, 600, 20, Float.ofNat 30⟩ }

/-- Requests that are made in the order of service are served as they come. -/
theorem retxBatch_of_pairwise
    (h : (retxHolds p snapshots).requests.Pairwise fun a b ↦ ControlRegion.servedBefore a b) :
    retxBatch p snapshots =
      (ControlRegion.empty p.nofCce).allocAll (retxHolds p snapshots).requests := by
  rw [retxBatch, ControlRegion.allocBatch, List.mergeSort_of_pairwise h]

theorem retransmissions_amid_contention :
    ((make ⟨0, {}, {}, 160, 0⟩ (fun _ cs ↦ cs)
        (repeatingSnapshots.map Snapshot.withoutNew)).dl.map fun d ↦ d.rnti.val) = [70, 71] ∧
      ∃ dlNew ulNew dlNew' ulNew',
        Phases repeatingSnapshots
          (make ⟨0, {}, {}, 160, 0⟩ (fun _ cs ↦ cs) repeatingSnapshots)
          (make ⟨0, {}, {}, 160, 0⟩ (fun _ cs ↦ cs)
            (repeatingSnapshots.map Snapshot.withoutNew)).dl dlNew
          (make ⟨0, {}, {}, 160, 0⟩ (fun _ cs ↦ cs)
            (repeatingSnapshots.map Snapshot.withoutNew)).ul ulNew ∧
        Phases contendingSnapshots
          (make ⟨0, {}, {}, 160, 0⟩ (fun _ cs ↦ cs.reverse) contendingSnapshots)
          (make ⟨0, {}, {}, 160, 0⟩ (fun _ cs ↦ cs)
            (repeatingSnapshots.map Snapshot.withoutNew)).dl dlNew'
          (make ⟨0, {}, {}, 160, 0⟩ (fun _ cs ↦ cs)
            (repeatingSnapshots.map Snapshot.withoutNew)).ul ulNew' := by
  refine ⟨?_, retransmissions_unaffected_by_new_data (fun _ cs ↦ .refl cs) rfl⟩
  rw [(make_withoutNew (fun _ cs ↦ .refl cs) repeatingSnapshots).1, retxDownlink,
    retxBatch_of_pairwise (by decide +kernel)]
  decide +kernel

end SubframePlan

end MacScheduler
