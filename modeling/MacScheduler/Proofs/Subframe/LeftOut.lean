import MacScheduler.Proofs.Subframe.Conserve

/-!
# Retransmissions that are left out

Groups are set aside for one retransmission after the other, and only then are the
grant messages placed.  So a retransmission is left out because its message has no
place, or because too few groups were free at its turn.  Groups that are given back
for want of a message come too late for the retransmissions that met them taken.
-/

namespace MacScheduler.SubframePlan

variable {p : CellParams} {order : Direction → List Candidate → List Candidate}
  {snapshots before after : List Snapshot} {s : Snapshot} {q : RetxRequest RbgMask}
  {h h' h'' : Holds}

/-! ## What is set aside stays -/

/-- `h'` sets more aside than `h`. -/
structure Holds.Extends (h h' : Holds) : Prop where
  dl : h.dl <+: h'.dl
  requests : h.requests <+: h'.requests

namespace Holds.Extends

theorem refl (h : Holds) : h.Extends h := ⟨List.prefix_rfl, List.prefix_rfl⟩

theorem trans (hext : h.Extends h') (hext' : h'.Extends h'') : h.Extends h'' :=
  ⟨hext.dl.trans hext'.dl, hext.requests.trans hext'.requests⟩

theorem holdDownlink (h : Holds) (s : Snapshot) : h.Extends (SubframePlan.holdDownlink h s) := by
  rcases holdDownlink_cases h s with heq | ⟨retx, -, -, heq⟩
  · rw [heq]
    exact refl h
  · rw [heq]
    exact ⟨List.prefix_append _ _, List.prefix_append _ _⟩

theorem holdUplink (h : Holds) (s : Snapshot) : h.Extends (SubframePlan.holdUplink h s) := by
  rcases holdUplink_cases h s with heq | ⟨retx, interval, moved, -, -, heq⟩
  · rw [heq]
    exact refl h
  · rw [heq]
    cases moved with
    | false => exact ⟨List.prefix_rfl, List.prefix_rfl⟩
    | true => exact ⟨List.prefix_rfl, List.prefix_append _ _⟩

theorem holdAll (h : Holds) (snapshots : List Snapshot) :
    h.Extends (SubframePlan.holdAll h snapshots) := by
  induction snapshots generalizing h with
  | nil => exact refl h
  | cons s snapshots ih => exact ((holdDownlink h s).trans (holdUplink _ s)).trans (ih _)

end Holds.Extends

theorem retxHolds_append (p : CellParams) (before after : List Snapshot) :
    retxHolds p (before ++ after) = holdAll (retxHolds p before) after :=
  List.foldl_append

/-! ## At the turn of a retransmission -/

/-- A retransmission has groups set aside and asks for a message, or too few groups are free. -/
theorem holdDownlink_or_short (hsize : h.rbgs.size ≤ 64) (hq : s.dlRetx = some q) :
    (∃ d ∈ (holdDownlink h s).dl, d.rnti = s.rnti) ∧
        dciRequest s .downlink ∈ (holdDownlink h s).requests ∨
      h.rbgs.free.length < q.alloc.count := by
  by_cases hcount : (retxMask h.rbgs q.alloc).count = q.alloc.count
  · have heq : holdDownlink h s = { h with
        rbgs := h.rbgs.union (retxMask h.rbgs q.alloc)
        dl := h.dl ++ [⟨s.rnti, q.pid, retxMask h.rbgs q.alloc⟩]
        requests := h.requests ++ [dciRequest s .downlink] } := by
      rw [holdDownlink, hq]
      exact if_pos hcount
    rw [heq]
    exact .inl ⟨⟨_, List.mem_append_right _ List.mem_cons_self, rfl⟩,
      List.mem_append_right _ List.mem_cons_self⟩
  · -- its own groups would have been as many: it was to be moved, and found too few
    right
    unfold retxMask at hcount
    split at hcount
    · rw [RbgMask.count_pickFree hsize] at hcount
      omega
    · exact (hcount rfl).elim

/-- Each group is free or set aside. -/
theorem Holds.Consistent.total_add_free {ulSeen : List Snapshot}
    (hc : h.Consistent p before ulSeen) (hn : p.nofRbg ≤ 64)
    (hdl : ∀ s ∈ before, ∀ q, s.dlRetx = some q → q.alloc.OfCarrier p.nofRbg) :
    total (h.dl.map (·.mask.count)) + h.rbgs.free.length = p.nofRbg := by
  have hmasks : ∀ m ∈ h.dl.map (·.mask), m.OfCarrier p.nofRbg := by
    intro m hm
    obtain ⟨d, hd, rfl⟩ := List.mem_map.mp hm
    exact hc.ofCarrier hdl d hd
  have hfree := hc.rbgs.count_add_free hc.rbgs_size hn hmasks
  rw [hc.rbgs.count_eq, List.map_map] at hfree
  exact hfree

/-! ## In the plan -/

/-- A terminal whose request stays unanswered has no candidate left in the plan. -/
theorem blocked_of_unanswered
    (hunanswered : (dciRequest s .downlink, none) ∈ (retxBatch p snapshots).1) :
    s.Blocked (make p order snapshots).region := by
  have hblocked : s.Blocked (retxBatch p snapshots).2 :=
    fun _ hfirst ↦ ControlRegion.fits_of_unanswered hunanswered hfirst
  exact hblocked.grown ((placeDownlink_grown _ _ _ _ _).trans (newDownlink_grown p order snapshots))

/-- The groups set aside for the terminals `before` and given back, as no place was found for
their grant messages. -/
def returnedGroups (p : CellParams) (snapshots before : List Snapshot) : Nat :=
  total (((retxHolds p before).dl.filter fun d ↦
    (DlHold.plan? (retxBatch p snapshots).1 d).isNone).map (·.mask.count))

theorem total_filterMap_add {β γ : Type} {f : β → Option γ} {g : β → Nat} {k : γ → Nat}
    (hf : ∀ b c, f b = some c → k c = g b) (l : List β) :
    total ((l.filterMap f).map k) + total ((l.filter fun b ↦ (f b).isNone).map g) =
      total (l.map g) := by
  induction l with
  | nil => rfl
  | cons b l ih =>
      rw [List.map_cons, total_cons, ← ih]
      cases hb : f b with
      | none =>
          rw [List.filterMap_cons_none hb, List.filter_cons_of_pos (by simp [hb]), List.map_cons,
            total_cons]
          omega
      | some c =>
          rw [List.filterMap_cons_some hb, List.filter_cons_of_neg (by simp [hb]), List.map_cons,
            total_cons, hf b c hb]
          omega

/-- What was set aside for the terminals `before` is held by the plan or was given back. -/
theorem total_le_make (order : Direction → List Candidate → List Candidate) (hp : p.nofPrb ≤ 128)
    (hdl : ∀ s ∈ before ++ after, ∀ q, s.dlRetx = some q → q.alloc.OfCarrier p.nofRbg) :
    total ((retxHolds p before).dl.map (·.mask.count)) +
        (freeGroups p.nofRbg (make p order (before ++ after)).dl).length ≤
      p.nofRbg + returnedGroups p (before ++ after) before := by
  have hheld : HeldBy p.nofRbg _ (make p order (before ++ after)).dl := make_heldBy hp hdl
  have hfree := hheld.count_add_free (RbgMask.nofRbgs_le hp)
  rw [hheld.partition.count_eq, List.map_map] at hfree
  have hsplit := total_filterMap_add (g := fun d ↦ d.mask.count) (k := fun e ↦ e.mask.count)
    (fun d e (hde : DlHold.plan? (retxBatch p (before ++ after)).1 d = some e) ↦
      congrArg RbgMask.count (of_dlPlan? hde).2.2.1) (retxHolds p before).dl
  have hplanned : total (((retxHolds p before).dl.filterMap
      (DlHold.plan? (retxBatch p (before ++ after)).1)).map (·.mask.count)) ≤
      total ((make p order (before ++ after)).dl.map (·.mask.count)) := by
    obtain ⟨rest, hrest⟩ := (Holds.Extends.holdAll (retxHolds p before) after).dl
    rw [← retxHolds_append] at hrest
    rw [make_eq, retxDownlink, settleDownlink_fst, ← hrest, List.filterMap_append,
      List.append_assoc, List.map_append, total_append]
    exact Nat.le_add_right _ _
  change _ ≤ p.nofRbg + total _
  change total ((make p order (before ++ after)).dl.map (·.mask.count)) + _ = _ at hfree
  omega

/-- A retransmission is left out because no candidate for its message fits the final region,
or because it needs more groups than were free at its turn: those that the plan leaves, but for
the groups set aside before and given back. -/
theorem left_out_blocked_or_short (order : Direction → List Candidate → List Candidate)
    (hcell : p.cell.violations = []) (hnodup : (snapshots.map (·.rnti)).Nodup)
    (hdl : ∀ s ∈ snapshots, ∀ q, s.dlRetx = some q → q.alloc.OfCarrier p.nofRbg)
    (hsplit : snapshots = before ++ s :: after) (hq : s.dlRetx = some q)
    (hout : ∀ d ∈ (retxDownlink p snapshots).1, d.rnti ≠ s.rnti) :
    s.Blocked (make p order snapshots).region ∨
      (freeGroups p.nofRbg (make p order snapshots).dl).length <
        q.alloc.count + returnedGroups p snapshots before := by
  have hp : p.nofPrb ≤ 128 := Nat.le_trans (CellConfig.nofPrb_le hcell) (by decide)
  have hn : p.nofRbg ≤ 64 := RbgMask.nofRbgs_le hp
  subst hsplit
  have hc := retxHolds_consistent before hp
  have hafter : (holdDownlink (retxHolds p before) s).Extends
      (retxHolds p (before ++ s :: after)) := by
    rw [retxHolds_append]
    exact (Holds.Extends.holdUplink _ s).trans (.holdAll _ after)
  rcases holdDownlink_or_short (hc.rbgs_size ▸ hn) hq with
    ⟨⟨d, hd, hrnti⟩, hrequest⟩ | hshort
  · left
    rcases planned_or_unanswered hp hnodup (hafter.dl.subset hd) hrnti
      (hafter.requests.subset hrequest) with ⟨dci, hplanned⟩ | hunanswered
    · exact (hout _ hplanned hrnti).elim
    · exact blocked_of_unanswered hunanswered
  · right
    have hturn := hc.total_add_free hn fun t ht ↦ hdl t (List.mem_append_left _ ht)
    have hmake := total_le_make order hp hdl
    omega

/-- A terminal repeats a block on all groups but the last, and another one on two of them:
nothing is given back, and one group is left for two. -/
theorem left_out_short_of_groups :
    let p : CellParams := ⟨0, {}, {}, 160, 0⟩
    let first : Snapshot := ⟨⟨70⟩, 0, [0], some ⟨3, .ofRange 13 0 12⟩, none, none, none⟩
    let second : Snapshot := ⟨⟨71⟩, 0, [1], some ⟨5, .ofRange 13 0 2⟩, none, none, none⟩
    let plan := make p (fun _ cs ↦ cs) [first, second]
    p.cell.violations = [] ∧ (∀ d ∈ (retxDownlink p [first, second]).1, d.rnti ≠ second.rnti) ∧
      returnedGroups p [first, second] [first] = 0 ∧
      (second.Blocked plan.region ∨ (freeGroups p.nofRbg plan.dl).length < 2) := by
  intro p first second plan
  have hcell : p.cell.violations = [] := by decide
  have hgroups : p.nofRbg = 13 := by decide
  have hdl : ∀ s ∈ [first, second], ∀ q, s.dlRetx = some q → q.alloc.OfCarrier p.nofRbg := by
    simp only [hgroups, first, second, List.forall_mem_cons, Option.some.injEq, forall_eq']
    exact ⟨RbgMask.ofCarrier_ofRange 13 0 12, RbgMask.ofCarrier_ofRange 13 0 2, by simp⟩
  have hbatch : retxBatch p [first, second] = (ControlRegion.empty p.nofCce).allocAll
      (retxHolds p [first, second]).requests := retxBatch_of_pairwise (by decide +kernel)
  have hout : ∀ d ∈ (retxDownlink p [first, second]).1, d.rnti ≠ second.rnti := by
    rw [retxDownlink, hbatch]
    decide +kernel
  have hreturned : returnedGroups p [first, second] [first] = 0 := by
    rw [returnedGroups, hbatch]
    decide +kernel
  have hcount : (RbgMask.ofRange 13 0 2).count = 2 := by decide +kernel
  have hsplit : [first, second] = [first] ++ second :: [] := rfl
  have hleft :=
    left_out_blocked_or_short (fun _ cs ↦ cs) hcell (by decide) hdl hsplit rfl hout
  rw [hreturned, Nat.add_zero, hcount] at hleft
  exact ⟨hcell, hout, hreturned, hleft⟩

/-- A terminal whose message takes the only candidate of the next one, which had all other
groups set aside, and a last one that asks for one of these groups. -/
def refusedSnapshots : List Snapshot :=
  [⟨⟨70⟩, 0, [0], some ⟨3, .ofRange 13 0 1⟩, none, none, none⟩,
    ⟨⟨71⟩, 0, [0], some ⟨5, .ofRange 13 1 12⟩, none, none, none⟩,
    ⟨⟨72⟩, 0, [1], some ⟨2, .ofRange 13 1 1⟩, none, none, none⟩]

/-- The last terminal is left out, although twelve groups are free and its candidate fits. -/
theorem returned_groups_not_offered :
    let p : CellParams := ⟨0, {}, {}, 160, 0⟩
    let plan := make p (fun _ cs ↦ cs) refusedSnapshots
    p.cell.violations = [] ∧ (refusedSnapshots.map (·.rnti)).Nodup ∧
      (∀ s ∈ refusedSnapshots, s.WellFormed p) ∧
      refusedSnapshots = refusedSnapshots.map Snapshot.withoutNew ∧
      (refusedSnapshots.map fun s ↦ (s.rnti.val, s.dlRetx.map fun q ↦ q.alloc.count)) =
        [(70, some 1), (71, some 12), (72, some 1)] ∧
      (plan.dl.map fun d ↦ d.rnti.val) = [70] ∧ (freeGroups p.nofRbg plan.dl).length = 12 ∧
      plan.region.fits ⟨1, 0⟩ = true := by
  intro p plan
  have hgroups : p.nofRbg = 13 := by decide
  have hwf : ∀ s ∈ refusedSnapshots, s.WellFormed p := by
    simp only [Snapshot.WellFormed, hgroups, refusedSnapshots, List.forall_mem_cons,
      Option.some.injEq, forall_eq']
    exact ⟨⟨⟨by decide +kernel, RbgMask.ofCarrier_ofRange 13 0 1⟩, by simp⟩,
      ⟨⟨by decide +kernel, RbgMask.ofCarrier_ofRange 13 1 12⟩, by simp⟩,
      ⟨⟨by decide +kernel, RbgMask.ofCarrier_ofRange 13 1 1⟩, by simp⟩, by simp⟩
  have hbatch : retxBatch p refusedSnapshots = (ControlRegion.empty p.nofCce).allocAll
      (retxHolds p refusedSnapshots).requests := retxBatch_of_pairwise (by decide +kernel)
  have hdl : plan.dl = (retxDownlink p refusedSnapshots).1 :=
    (make_withoutNew (fun _ cs ↦ .refl cs) refusedSnapshots).1
  have hregion : plan.region = (retxBatch p refusedSnapshots).2 := rfl
  rw [hdl, hregion, retxDownlink, hbatch]
  refine ⟨by decide, by decide, hwf, rfl, ?_, ?_, ?_, ?_⟩ <;> decide +kernel

end MacScheduler.SubframePlan
