import MacScheduler.Proofs.Subframe.Keep
import MacScheduler.Proofs.Subframe.Precedence

/-!
# New data is placed while anything is left

Placing only ever adds groups, blocks and grant messages.  So what a candidate did
not find at its turn is not there at the end either: who goes without new data sees a
carrier that is full, or a control region without a place for the message.  In downlink
an entry takes what it asks for out of the groups that the entries before it left.
-/

namespace MacScheduler

/-- No place for a grant message of the terminal is left in the region. -/
def Snapshot.Blocked (s : Snapshot) (r : ControlRegion) : Prop :=
  ∀ first ∈ s.candidates, r.fits ⟨first, s.aggrLevel⟩ = false

theorem Snapshot.Blocked.grown {s : Snapshot} {r r' : ControlRegion} (h : s.Blocked r)
    (hgrown : r.Grown r') : s.Blocked r' :=
  fun first hfirst ↦ hgrown.fits_eq_false (h first hfirst)

namespace SubframePlan

variable {snapshots : List Snapshot}

/-! ## Candidates and their requests -/

theorem snapshotOf?_of_mem (hnodup : (snapshots.map (·.rnti)).Nodup) {s : Snapshot}
    (hs : s ∈ snapshots) : snapshotOf? s.rnti snapshots = some s := by
  cases hfound : snapshotOf? s.rnti snapshots with
  | some t =>
      obtain ⟨ht, hrnti⟩ := of_snapshotOf? hfound
      rw [List.inj_on_of_nodup_map hnodup ht hs hrnti]
  | none =>
      induction snapshots with
      | nil => cases hs
      | cons t snapshots ih =>
          rw [snapshotOf?, Option.or_eq_none_iff] at hfound
          rcases List.mem_cons.mp hs with rfl | hs
          · simp at hfound
          · exact (ih (List.nodup_cons.mp hnodup).2 hs hfound.1)

theorem wishOf?_of_request (hnodup : (snapshots.map (·.rnti)).Nodup) {s : Snapshot}
    (hs : s ∈ snapshots) {dir : Direction} {q : NewTxRequest} (hq : newRequest? s dir = some q)
    {c : Candidate} (hc : c.rnti = s.rnti) : wishOf? snapshots dir c = some (s, q) := by
  rw [wishOf?, hc, snapshotOf?_of_mem hnodup hs, Option.bind_some, hq, Option.map_some]

/-- Every request for new data is a candidate. -/
theorem exists_candidate (hnodup : (snapshots.map (·.rnti)).Nodup) {s : Snapshot}
    (hs : s ∈ snapshots) {dir : Direction} {q : NewTxRequest} (hq : newRequest? s dir = some q) :
    ∃ c ∈ candidates dir snapshots, wishOf? snapshots dir c = some (s, q) := by
  refine ⟨⟨s.rnti, q.pending, q.units, q.bytesPerUnit⟩, ?_, wishOf?_of_request hnodup hs hq rfl⟩
  exact List.mem_filterMap.mpr ⟨s, hs, by rw [hq, Option.map_some]⟩

/-- A candidate asks for the units of its terminal's request. -/
theorem units_of_wishOf? (hnodup : (snapshots.map (·.rnti)).Nodup) {dir : Direction}
    {c : Candidate} (hc : c ∈ candidates dir snapshots) {s : Snapshot} {q : NewTxRequest}
    (hwish : wishOf? snapshots dir c = some (s, q)) : c.units = q.units := by
  obtain ⟨t, ht, hc⟩ := List.mem_filterMap.mp hc
  obtain ⟨q', hq', rfl⟩ := Option.map_eq_some_iff.mp hc
  rw [wishOf?_of_request hnodup ht hq' rfl] at hwish
  cases hwish
  rfl

/-! ## Groups that are left -/

/-- The groups of a carrier that no entry holds. -/
def freeGroups (n : Nat) (plans : List DlPlan) : List Nat :=
  (List.range n).filter fun i ↦ plans.all fun d ↦ !d.mask.test i

/-- The groups taken on a carrier are those that the entries hold. -/
structure HeldBy (n : Nat) (used : RbgMask) (plans : List DlPlan) : Prop where
  size_eq : used.size = n
  partition : used.PartitionedBy (plans.map (·.mask))
  ofCarrier : ∀ d ∈ plans, d.mask.OfCarrier n

namespace HeldBy

variable {n : Nat} {used : RbgMask} {plans : List DlPlan}

theorem bit_iff (h : HeldBy n used plans) (i : Nat) :
    used.bits.getLsbD i = true ↔ ∃ d ∈ plans, d.mask.bits.getLsbD i = true := by
  rw [h.partition.bit_iff]
  simp

theorem test_iff (h : HeldBy n used plans) (i : Nat) :
    used.test i = true ↔ ∃ d ∈ plans, d.mask.test i = true := by
  have hsize : ∀ d ∈ plans, d.mask.test i = (decide (i < n) && d.mask.bits.getLsbD i) :=
    fun d hd ↦ by rw [RbgMask.test, (h.ofCarrier d hd).size_eq]
  rw [RbgMask.test, h.size_eq, Bool.and_eq_true, h.bit_iff]
  constructor
  · rintro ⟨hi, d, hd, hbit⟩
    exact ⟨d, hd, by rw [hsize d hd, hi, hbit, Bool.and_self]⟩
  · rintro ⟨d, hd, htest⟩
    rw [hsize d hd, Bool.and_eq_true] at htest
    exact ⟨htest.1, d, hd, htest.2⟩

theorem free_eq (h : HeldBy n used plans) : used.free = freeGroups n plans := by
  rw [RbgMask.free, freeGroups, h.size_eq]
  refine List.filter_congr fun i _ ↦ ?_
  rw [Bool.eq_iff_iff, Bool.not_eq_true', ← Bool.not_eq_true, h.test_iff]
  simp

theorem count_add_free (h : HeldBy n used plans) (hn : n ≤ 64) :
    used.count + (freeGroups n plans).length = n := by
  rw [← h.free_eq]
  refine h.partition.count_add_free h.size_eq hn fun m hm ↦ ?_
  obtain ⟨d, hd, rfl⟩ := List.mem_map.mp hm
  exact h.ofCarrier d hd

theorem count_pickFree (h : HeldBy n used plans) (hn : n ≤ 64) (k : Nat) :
    (used.pickFree k).count = min k (freeGroups n plans).length := by
  rw [RbgMask.count_pickFree (h.size_eq ▸ hn), h.free_eq]

theorem take (h : HeldBy n used plans) {d : DlPlan} {k : Nat} (hd : d.mask = used.pickFree k) :
    HeldBy n (used.union d.mask) (plans ++ [d]) where
  size_eq := h.size_eq
  partition := by
    rw [List.map_append]
    exact h.partition.union (hd ▸ used.overlaps_pickFree k)
  ofCarrier := by
    intro e he
    rcases List.mem_append.mp he with he | he
    · exact h.ofCarrier e he
    · rw [List.mem_singleton.mp he, hd]
      exact RbgMask.ofCarrier_pickFree h.size_eq k

/-- Where as many groups are taken as the carrier has, each is held. -/
theorem test_of_full (h : HeldBy n used plans) (hn : n ≤ 64) (hfull : n - used.count = 0)
    {i : Nat} (hi : i < n) : ∃ d ∈ plans, d.mask.test i = true := by
  have hcount := h.count_add_free hn
  have hnil : freeGroups n plans = [] := List.eq_nil_of_length_eq_zero (by omega)
  refine (h.test_iff i).mp ?_
  by_contra hfree
  have hmem : i ∈ used.free := RbgMask.mem_free.mpr ⟨h.size_eq ▸ hi, by simpa using hfree⟩
  rw [h.free_eq, hnil] at hmem
  cases hmem

end HeldBy

/-! ## Downlink -/

theorem placeDownlink_grown (snapshots : List Snapshot) (nofRbg : Nat) (rbgs : RbgMask)
    (region : ControlRegion) (cs : List Candidate) :
    region.Grown (placeDownlink snapshots nofRbg rbgs region cs).2.2 := by
  induction cs generalizing rbgs region with
  | nil => exact .refl region
  | cons c cs ih =>
      rcases placeDownlink_cases snapshots nofRbg rbgs region c cs with
        ⟨-, heq⟩ | ⟨-, heq⟩ | ⟨s, q, mask, loc, rest, -, -, -, -, rfl, heq⟩ <;> rw [heq]
      · exact .refl region
      · exact ih rbgs region
      · exact (ControlRegion.Grown.place region _).trans (ih _ _)

/-- A downlink candidate is served, finds the carrier full, or has no place for its message,
at its turn and so at the end. -/
theorem placeDownlink_conserves (nofRbg : Nat) (rbgs : RbgMask) (region : ControlRegion)
    (cs : List Candidate) {out : List DlPlan × RbgMask × ControlRegion}
    (hout : placeDownlink snapshots nofRbg rbgs region cs = out) {c : Candidate} (hc : c ∈ cs)
    {s : Snapshot} {q : NewTxRequest} (hwish : wishOf? snapshots .downlink c = some (s, q)) :
    (∃ d ∈ out.1, d.rnti = s.rnti) ∨ nofRbg - out.2.1.count = 0 ∨ s.Blocked out.2.2 := by
  -- the outcome is a variable: the induction rewrites it by the outcome for the later candidates
  induction cs generalizing rbgs region out with
  | nil => cases hc
  | cons c' cs ih =>
      subst hout
      rcases placeDownlink_cases snapshots nofRbg rbgs region c' cs with
        ⟨hfull, heq⟩ | ⟨hpassed, heq⟩ | ⟨s', q', mask, loc, rest, -, hwish', -, -, hrest, heq⟩ <;>
        rw [heq]
      · exact .inr (.inl hfull)
      · rcases List.mem_cons.mp hc with rfl | hc
        · have hblocked : s.Blocked region :=
            ControlRegion.place?_eq_none_iff.mp (hpassed s q hwish)
          exact .inr (.inr (hblocked.grown (placeDownlink_grown _ _ _ _ _)))
        · exact ih rbgs region rfl hc
      · rcases List.mem_cons.mp hc with rfl | hc
        · cases hwish.symm.trans hwish'
          exact .inl ⟨_, List.mem_cons_self, rfl⟩
        · rcases ih _ _ hrest.symm hc with ⟨d, hd, hrnti⟩ | hleft
          · exact .inl ⟨d, List.mem_cons_of_mem _ hd, hrnti⟩
          · exact .inr hleft

/-- The entry holds what a candidate asks for, or all that the entries before it left. -/
def Fills (snapshots : List Snapshot) (n : Nat) (cs : List Candidate) (earlier : List DlPlan)
    (d : DlPlan) : Prop :=
  ∃ c ∈ cs, ∃ s q, wishOf? snapshots .downlink c = some (s, q) ∧ d.rnti = s.rnti ∧
    d.pid = q.pid ∧ d.mask.count = min (max c.units 1) (freeGroups n earlier).length

theorem placeDownlink_fills {n : Nat} (hn : n ≤ 64) {kept : List DlPlan} {rbgs : RbgMask}
    (hheld : HeldBy n rbgs kept) (region : ControlRegion) (cs : List Candidate)
    {before after : List DlPlan} {d : DlPlan}
    (hsplit : (placeDownlink snapshots n rbgs region cs).1 = before ++ d :: after) :
    Fills snapshots n cs (kept ++ before) d := by
  induction cs generalizing kept rbgs region before with
  | nil => simp [placeDownlink] at hsplit
  | cons c cs ih =>
      have later : ∀ {earlier}, Fills snapshots n cs earlier d →
          Fills snapshots n (c :: cs) earlier d := by
        rintro earlier ⟨c', hc', hfills⟩
        exact ⟨c', List.mem_cons_of_mem c hc', hfills⟩
      rcases placeDownlink_cases snapshots n rbgs region c cs with
        ⟨-, heq⟩ | ⟨-, heq⟩ | ⟨s, q, mask, loc, rest, hfree, hwish, hmask, -, rfl, heq⟩ <;>
        rw [heq] at hsplit
      · simp at hsplit
      · exact later (ih hheld region hsplit)
      · -- the candidate's own entry, or one that is placed on what that entry left
        rcases before with - | ⟨d', before⟩
        · obtain ⟨rfl, -⟩ := List.cons.inj hsplit
          refine ⟨c, List.mem_cons_self, s, q, hwish, rfl, rfl, ?_⟩
          have hcount := hheld.count_add_free hn
          rw [List.append_nil, hmask, hheld.count_pickFree hn]
          omega
        · obtain ⟨rfl, htail⟩ := List.cons.inj hsplit
          have hrest := ih (hheld.take (d := ⟨s.rnti, q.pid, mask, loc⟩) hmask) _ htail
          rw [List.append_assoc] at hrest
          exact later hrest

/-! ## Uplink -/

theorem placeUplink_grown (snapshots : List Snapshot) (prbs : PrbMap) (region : ControlRegion)
    (cs : List Candidate) : region.Grown (placeUplink snapshots prbs region cs).2.2 := by
  induction cs generalizing prbs region with
  | nil => exact .refl region
  | cons c cs ih =>
      rcases placeUplink_cases snapshots prbs region c cs with
        ⟨-, heq⟩ | ⟨-, heq⟩ | ⟨s, q, interval, loc, rest, -, -, -, rfl, heq⟩ <;> rw [heq]
      · exact ih prbs region
      · exact .refl region
      · exact (ControlRegion.Grown.place region _).trans (ih _ _)

/-- The uplink counterpart of `placeDownlink_conserves`. -/
theorem placeUplink_conserves (prbs : PrbMap) (region : ControlRegion) (cs : List Candidate)
    {out : List UlPlan × PrbMap × ControlRegion}
    (hout : placeUplink snapshots prbs region cs = out) {c : Candidate} (hc : c ∈ cs)
    {s : Snapshot} {q : NewTxRequest} (hwish : wishOf? snapshots .uplink c = some (s, q)) :
    (∃ u ∈ out.1, u.rnti = s.rnti) ∨ (∀ k < out.2.1.size, out.2.1.taken k = true) ∨
      s.Blocked out.2.2 := by
  induction cs generalizing prbs region out with
  | nil => cases hc
  | cons c' cs ih =>
      subst hout
      rcases placeUplink_cases snapshots prbs region c' cs with
        ⟨hpassed, heq⟩ | ⟨hfound, heq⟩ | ⟨s', q', interval, loc, rest, hwish', -, -, hrest, heq⟩ <;>
        rw [heq]
      · rcases List.mem_cons.mp hc with rfl | hc
        · have hblocked : s.Blocked region :=
            ControlRegion.place?_eq_none_iff.mp (hpassed s q hwish)
          exact .inr (.inr (hblocked.grown (placeUplink_grown _ _ _ _)))
        · exact ih prbs region rfl hc
      · exact .inr (.inl fun k hk ↦ PrbMap.taken_of_findUpTo_eq_none hfound hk)
      · rcases List.mem_cons.mp hc with rfl | hc
        · cases hwish.symm.trans hwish'
          exact .inl ⟨_, List.mem_cons_self, rfl⟩
        · rcases ih _ _ hrest.symm hc with ⟨u, hu, hrnti⟩ | hleft
          · exact .inl ⟨u, List.mem_cons_of_mem _ hu, hrnti⟩
          · exact .inr hleft

/-! ## Whole plans -/

variable {p : CellParams} {order : Direction → List Candidate → List Candidate}

/-- A terminal that asks for new data gets it unless the carrier is full or its grant message
has no place, and a downlink entry leaves no group that it asks for. -/
structure Conserves (p : CellParams) (snapshots : List Snapshot) (plan : SubframePlan)
    (dlRetx dlNew : List DlPlan) (ulNew : List UlPlan) : Prop where
  dl : ∀ s ∈ snapshots, s.dlNew.isSome →
    (∃ d ∈ dlNew, d.rnti = s.rnti) ∨ (∀ i < p.nofRbg, ∃ d ∈ plan.dl, d.mask.test i = true) ∨
      s.Blocked plan.region
  ul : ∀ s ∈ snapshots, s.ulNew.isSome →
    (∃ u ∈ ulNew, u.rnti = s.rnti) ∨
      (∀ k, p.puschRegion.Holds k → ∃ u ∈ plan.ul, u.interval.Holds k) ∨ s.Blocked plan.region
  dl_count : ∀ before d after, dlNew = before ++ d :: after →
    ∃ s ∈ snapshots, ∃ q, s.dlNew = some q ∧ d.rnti = s.rnti ∧ d.pid = q.pid ∧
      d.mask.count = min (max q.units 1) (freeGroups p.nofRbg (dlRetx ++ before)).length

theorem make_heldBy (hp : p.nofPrb ≤ 128)
    (hdl : ∀ s ∈ snapshots, ∀ q, s.dlRetx = some q → q.alloc.OfCarrier p.nofRbg) :
    HeldBy p.nofRbg (newDownlink p order snapshots).2.1 (make p order snapshots).dl where
  size_eq :=
    (newDownlink_placement order snapshots hp).size_eq.trans (size_retxDownlink snapshots hp)
  partition := make_dl_partition order snapshots hp
  ofCarrier := make_dl_inside order snapshots hp hdl

theorem retxDownlink_heldBy (hp : p.nofPrb ≤ 128)
    (hdl : ∀ s ∈ snapshots, ∀ q, s.dlRetx = some q → q.alloc.OfCarrier p.nofRbg) :
    HeldBy p.nofRbg (retxDownlink p snapshots).2 (retxDownlink p snapshots).1 where
  size_eq := size_retxDownlink snapshots hp
  partition := retxDownlink_partition snapshots hp
  ofCarrier := retxDownlink_inside snapshots hp hdl

/-- A block taken between the control edges is held by an entry. -/
theorem held_of_taken (hp : p.nofPrb ≤ 128)
    (hfull : ∀ k < (newUplink p order snapshots).2.1.size,
      (newUplink p order snapshots).2.1.taken k = true) {k : Nat} (hk : p.puschRegion.Holds k) :
    ∃ u ∈ (make p order snapshots).ul, u.interval.Holds k := by
  have hstop := puschRegion_stop hp
  have hlt : k < p.nofPrb := Nat.lt_of_lt_of_le hk.2 (hstop ▸ Nat.sub_le _ _)
  obtain ⟨-, i, hi, hik⟩ := make_ul_covered order snapshots hp k
    (hfull k (size_newUplink order snapshots hp ▸ hlt))
  rcases List.mem_append.mp hi with hi | hi
  · exact absurd hik (not_mem_edges hp ((puschRegion_counted hp).holds_iff.mp hk) hi)
  · obtain ⟨u, hu, rfl⟩ := List.mem_map.mp hi
    exact ⟨u, hu, hik⟩

theorem newDownlink_grown (p : CellParams) (order : Direction → List Candidate → List Candidate)
    (snapshots : List Snapshot) :
    (newDownlink p order snapshots).2.2.Grown (make p order snapshots).region :=
  placeUplink_grown _ _ _ _

/-- New data is planned as long as resources and places for grant messages are left. -/
theorem new_data_work_conserving (hcell : p.cell.violations = [])
    (horder : ∀ dir cs, (order dir cs).Perm cs) (hnodup : (snapshots.map (·.rnti)).Nodup)
    (hdl : ∀ s ∈ snapshots, ∀ q, s.dlRetx = some q → q.alloc.OfCarrier p.nofRbg) :
    ∃ dlRetx dlNew ulRetx ulNew,
      Phases snapshots (make p order snapshots) dlRetx dlNew ulRetx ulNew ∧
        Conserves p snapshots (make p order snapshots) dlRetx dlNew ulNew := by
  have hp : p.nofPrb ≤ 128 := Nat.le_trans (CellConfig.nofPrb_le hcell) (by decide)
  have hn : p.nofRbg ≤ 64 := RbgMask.nofRbgs_le hp
  refine ⟨_, _, _, _, make_phases p order snapshots, ⟨?_, ?_, ?_⟩⟩
  · intro s hs hnew
    obtain ⟨q, hq⟩ : ∃ q, newRequest? s .downlink = some q := Option.isSome_iff_exists.mp hnew
    obtain ⟨c, hc, hwish⟩ := exists_candidate hnodup hs hq
    rcases placeDownlink_conserves _ _ _ _ rfl ((horder _ _).mem_iff.mpr hc) hwish with
      hserved | hfull | hblocked
    · exact .inl hserved
    · exact .inr (.inl fun i hi ↦ (make_heldBy hp hdl).test_of_full hn hfull hi)
    · exact .inr (.inr (hblocked.grown (newDownlink_grown p order snapshots)))
  · intro s hs hnew
    obtain ⟨q, hq⟩ : ∃ q, newRequest? s .uplink = some q := Option.isSome_iff_exists.mp hnew
    obtain ⟨c, hc, hwish⟩ := exists_candidate hnodup hs hq
    rcases placeUplink_conserves _ _ _ rfl ((horder _ _).mem_iff.mpr hc) hwish with
      hserved | hfull | hblocked
    · exact .inl hserved
    · exact .inr (.inl fun k hk ↦ held_of_taken hp hfull hk)
    · exact .inr (.inr hblocked)
  · intro before d after hsplit
    obtain ⟨c, hc, s, q, hwish, hrnti, hpid, hcount⟩ :=
      placeDownlink_fills hn (retxDownlink_heldBy hp hdl) _ _ hsplit
    obtain ⟨hs, -, hq⟩ := of_wishOf? hwish
    have hunits := units_of_wishOf? hnodup ((horder _ _).mem_iff.mp hc) hwish
    exact ⟨s, hs, q, hq, hrnti, hpid, hunits ▸ hcount⟩

theorem contention_work_conserving :
    ∃ dlRetx dlNew ulRetx ulNew,
      Phases contendingSnapshots
          (make ⟨0, {}, {}, 160, 0⟩ (fun _ cs ↦ cs.reverse) contendingSnapshots)
          dlRetx dlNew ulRetx ulNew ∧
        Conserves ⟨0, {}, {}, 160, 0⟩ contendingSnapshots
          (make ⟨0, {}, {}, 160, 0⟩ (fun _ cs ↦ cs.reverse) contendingSnapshots)
          dlRetx dlNew ulNew := by
  refine new_data_work_conserving (by decide) (fun _ cs ↦ cs.reverse_perm) (by decide) ?_
  intro s hs q hq
  simp only [contendingSnapshots, repeatingSnapshots, List.map_cons, List.map_nil, List.mem_cons,
    List.not_mem_nil, or_false] at hs
  rcases hs with rfl | rfl | rfl
  · cases hq
    exact RbgMask.ofCarrier_ofRange 13 0 4
  · cases hq
    exact RbgMask.ofCarrier_ofRange 13 2 4
  · cases hq

end SubframePlan

end MacScheduler
