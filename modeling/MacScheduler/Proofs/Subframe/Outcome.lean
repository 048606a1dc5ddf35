import MacScheduler.Proofs.Subframe.Commit
import MacScheduler.Proofs.Terminal.Boundary

/-!
# What a pass does to the terminals

A plan has at most one entry per terminal, so committing it changes each terminal
on its own: its entry, if there is one, is all that happens to it, and the grants
are those that the terminals make for their entries.
-/

namespace MacScheduler.CarrierPass

/-! ## Committing entry by entry -/

section Commit

variable {π γ : Type} (rnti : π → Rnti)
  (grant : π → Terminal → Except GrantError γ × Terminal)

/-- Makes the grants of plan entries one after the other; entries of terminals that are
gone or refuse are left out. -/
def commitAll : Roster → List π → List γ × Roster
  | roster, [] => ([], roster)
  | roster, p :: plans =>
      match roster.get? (rnti p) with
      | none => commitAll roster plans
      | some t =>
          let rest := commitAll (roster.update (grant p t).2) plans
          ((grant p t).1.toOption.toList ++ rest.1, rest.2)

/-- A terminal after the entry that a plan has for it. -/
def committed (plans : List π) (t : Terminal) : Terminal :=
  match plans.find? fun p ↦ decide (rnti p = t.rnti) with
  | none => t
  | some p => (grant p t).2

variable {rnti grant} {roster : Roster} {plans : List π}

theorem committed_cons_of_eq {p : π} {t : Terminal} (h : rnti p = t.rnti) :
    committed rnti grant (p :: plans) t = (grant p t).2 := by
  rw [committed, List.find?_cons_of_pos (by simpa using h)]

theorem committed_cons_of_ne {p : π} {t : Terminal} (h : rnti p ≠ t.rnti) :
    committed rnti grant (p :: plans) t = committed rnti grant plans t := by
  rw [committed, List.find?_cons_of_neg (by simpa using h)]
  rfl

theorem committed_of_not_mem {t : Terminal} (h : t.rnti ∉ plans.map rnti) :
    committed rnti grant plans t = t := by
  have hfind : (plans.find? fun p ↦ decide (rnti p = t.rnti)) = none :=
    List.find?_eq_none.mpr fun p hp ↦ by
      simpa using fun heq ↦ h (List.mem_map.mpr ⟨p, hp, heq⟩)
  rw [committed, hfind]

theorem committed_cases (rnti : π → Rnti) (grant : π → Terminal → Except GrantError γ × Terminal)
    (plans : List π) (t : Terminal) :
    committed rnti grant plans t = t ∧ (∀ p ∈ plans, rnti p ≠ t.rnti) ∨
      ∃ p ∈ plans, rnti p = t.rnti ∧ committed rnti grant plans t = (grant p t).2 := by
  unfold committed
  cases hfind : plans.find? fun p ↦ decide (rnti p = t.rnti) with
  | none => exact .inl ⟨rfl, fun p hp ↦ by simpa using List.find?_eq_none.mp hfind p hp⟩
  | some p =>
      exact .inr ⟨p, List.mem_of_find?_eq_some hfind, by simpa using List.find?_some hfind, rfl⟩

/-- What is true of a terminal and itself, and of a terminal and what each grant makes of it. -/
theorem committed_rel {R : Terminal → Terminal → Prop} (hrefl : ∀ t, R t t)
    (hgrant : ∀ p t, R t (grant p t).2) (plans : List π) (t : Terminal) :
    R t (committed rnti grant plans t) := by
  rcases committed_cases rnti grant plans t with ⟨heq, -⟩ | ⟨p, -, -, heq⟩
  · rw [heq]
    exact hrefl t
  · rw [heq]
    exact hgrant p t

theorem rnti_committed (hkeep : ∀ p t, (grant p t).2.rnti = t.rnti) (plans : List π)
    (t : Terminal) : (committed rnti grant plans t).rnti = t.rnti :=
  committed_rel (R := fun t t' ↦ t'.rnti = t.rnti) (fun _ ↦ rfl) hkeep plans t

theorem rntis_map_committed (hkeep : ∀ p t, (grant p t).2.rnti = t.rnti) (plans : List π)
    (r : Roster) : (r.map (committed rnti grant plans)).map (·.rnti) = r.map (·.rnti) := by
  rw [List.map_map]
  exact List.map_congr_left fun t _ ↦ rnti_committed hkeep plans t

theorem commitAll_roster (hkeep : ∀ p t, (grant p t).2.rnti = t.rnti)
    (hr : (roster.map (·.rnti)).Nodup) (hp : (plans.map rnti).Nodup) :
    (commitAll rnti grant roster plans).2 = roster.map (committed rnti grant plans) := by
  induction plans generalizing roster with
  | nil => exact (List.map_id roster).symm
  | cons p plans ih =>
      obtain ⟨hnot, hrest⟩ := List.nodup_cons.mp hp
      rw [commitAll]
      cases hget : roster.get? (rnti p) with
      | none =>
          rw [ih hr hrest]
          refine List.map_congr_left fun u hu ↦ (committed_cons_of_ne fun heq ↦ ?_).symm
          have hfind := List.find?_eq_none.mp hget u hu
          simp [heq] at hfind
      | some t =>
          obtain ⟨ht, htr⟩ := Roster.of_get? hget
          have hkept := roster.rntis_update (grant p t).2
          dsimp only
          rw [ih (hkept ▸ hr) hrest, Roster.update, List.map_map]
          apply List.map_congr_left
          intro u hu
          rw [Function.comp_apply, hkeep]
          by_cases hut : u.rnti = t.rnti
          · -- the terminal of the entry, which no later entry is for
            obtain rfl := List.inj_on_of_nodup_map hr hu ht hut
            rw [if_pos rfl, committed_cons_of_eq htr.symm]
            exact committed_of_not_mem (by rw [hkeep, htr]; exact hnot)
          · rw [if_neg hut, committed_cons_of_ne fun heq ↦ hut (heq.symm.trans htr.symm)]

theorem rntis_commitAll (roster : Roster) (plans : List π) :
    (commitAll rnti grant roster plans).2.map (·.rnti) = roster.map (·.rnti) := by
  induction plans generalizing roster with
  | nil => rfl
  | cons p plans ih =>
      rw [commitAll]
      cases hget : roster.get? (rnti p) with
      | none => exact ih roster
      | some t => exact (ih _).trans (roster.rntis_update (grant p t).2)

/-- What no grant breaks holds of every terminal once a plan is committed. -/
theorem commitAll_forall {P : Terminal → Prop}
    (hgrant : ∀ p ∈ plans, ∀ t, P t → P (grant p t).2) (h : ∀ t ∈ roster, P t) :
    ∀ t ∈ (commitAll rnti grant roster plans).2, P t := by
  induction plans generalizing roster with
  | nil => exact h
  | cons p plans ih =>
      rw [commitAll]
      cases hget : roster.get? (rnti p) with
      | none => exact ih (fun q hq ↦ hgrant q (List.mem_cons_of_mem p hq)) h
      | some t =>
          refine ih (fun q hq ↦ hgrant q (List.mem_cons_of_mem p hq)) fun u hu ↦ ?_
          rcases Roster.mem_update hu with rfl | hu
          · exact hgrant p List.mem_cons_self t (h t (Roster.of_get? hget).1)
          · exact h u hu

/-- What every terminal grants while nothing breaks `P` is true of all grants of a plan. -/
theorem forall_mem_commitAll {P : Terminal → Prop} {Q : γ → Prop}
    (hkeep : ∀ p t, P t → P (grant p t).2) (hgrant : ∀ p t g, P t → (grant p t).1 = .ok g → Q g)
    (h : ∀ t ∈ roster, P t) (plans : List π) :
    ∀ g ∈ (commitAll rnti grant roster plans).1, Q g := by
  induction plans generalizing roster with
  | nil => simp [commitAll]
  | cons p plans ih =>
      rw [commitAll]
      cases hget : roster.get? (rnti p) with
      | none => exact ih h
      | some t =>
          have ht := h t (Roster.of_get? hget).1
          intro g hg
          rcases List.mem_append.mp hg with hg | hg
          · refine hgrant p t g ht ?_
            cases hanswer : (grant p t).1 with
            | error e => simp [hanswer, Except.toOption] at hg
            | ok g' => simpa [hanswer, Except.toOption, eq_comm] using hg
          · refine ih (fun u hu ↦ ?_) g hg
            rcases Roster.mem_update hu with rfl | hu
            · exact hkeep p t ht
            · exact h u hu

theorem get?_update_of_not_mem (hkeep : ∀ p t, (grant p t).2.rnti = t.rnti) {p q : π}
    {t : Terminal} (hget : roster.get? (rnti p) = some t) (hnot : rnti p ∉ plans.map rnti)
    (hq : q ∈ plans) : (roster.update (grant p t).2).get? (rnti q) = roster.get? (rnti q) := by
  rw [Roster.get?_update, hkeep, (Roster.of_get? hget).2, if_neg]
  exact fun heq ↦ hnot (List.mem_map.mpr ⟨q, hq, heq.symm⟩)

theorem mem_commitAll (hkeep : ∀ p t, (grant p t).2.rnti = t.rnti) (hp : (plans.map rnti).Nodup)
    {g : γ} : g ∈ (commitAll rnti grant roster plans).1 ↔
      ∃ p ∈ plans, ∃ t, roster.get? (rnti p) = some t ∧ (grant p t).1 = .ok g := by
  induction plans generalizing roster with
  | nil => simp [commitAll]
  | cons p plans ih =>
      obtain ⟨hnot, hrest⟩ := List.nodup_cons.mp hp
      rw [commitAll]
      cases hget : roster.get? (rnti p) with
      | none => simp [ih hrest, hget]
      | some t =>
          have hsame := fun q (hq : q ∈ plans) ↦ get?_update_of_not_mem hkeep hget hnot hq
          have hhead : g ∈ (grant p t).1.toOption.toList ↔ (grant p t).1 = .ok g := by
            cases (grant p t).1 <;> simp [Except.toOption, eq_comm]
          rw [List.mem_append, hhead, ih hrest]
          constructor
          · rintro (hg | ⟨q, hq, u, hu, hg⟩)
            · exact ⟨p, List.mem_cons_self, t, hget, hg⟩
            · exact ⟨q, List.mem_cons_of_mem p hq, u, hsame q hq ▸ hu, hg⟩
          · rintro ⟨q, hq, u, hu, hg⟩
            rcases List.mem_cons.mp hq with rfl | hq
            · obtain rfl := Option.some.inj (hget.symm.trans hu)
              exact .inl hg
            · exact .inr ⟨q, hq, u, (hsame q hq).trans hu, hg⟩

/-- Every entry is granted when its turn comes. -/
inductive GrantsAll (rnti : π → Rnti) (grant : π → Terminal → Except GrantError γ × Terminal) :
    Roster → List π → List γ → Roster → Prop
  | nil (roster : Roster) : GrantsAll rnti grant roster [] [] roster
  | cons {roster last : Roster} {p : π} {plans : List π} {t t' : Terminal} {g : γ}
      {grants : List γ} (hget : roster.get? (rnti p) = some t) (hgrant : grant p t = (.ok g, t'))
      (hrest : GrantsAll rnti grant (roster.update t') plans grants last) :
      GrantsAll rnti grant roster (p :: plans) (g :: grants) last

/-- Entries for different terminals that each would be granted now are all granted, in turn. -/
theorem exists_grantsAll {R : π → γ → Prop} (hkeep : ∀ p t, (grant p t).2.rnti = t.rnti)
    (hp : (plans.map rnti).Nodup) (hgrant : ∀ p ∈ plans, ∃ t, roster.get? (rnti p) = some t ∧
      ∃ g, (grant p t).1 = .ok g ∧ R p g) :
    ∃ grants last, GrantsAll rnti grant roster plans grants last ∧ List.Forall₂ R plans grants := by
  induction plans generalizing roster with
  | nil => exact ⟨[], roster, .nil roster, .nil⟩
  | cons p plans ih =>
      obtain ⟨hnot, hrest⟩ := List.nodup_cons.mp hp
      obtain ⟨t, hget, g, hg, hpg⟩ := hgrant p List.mem_cons_self
      -- the entries left are for other terminals, which this grant leaves alone
      have hlater : ∀ q ∈ plans, ∃ u, (roster.update (grant p t).2).get? (rnti q) = some u ∧
          ∃ g, (grant q u).1 = .ok g ∧ R q g := by
        intro q hq
        rw [get?_update_of_not_mem hkeep hget hnot hq]
        exact hgrant q (List.mem_cons_of_mem p hq)
      obtain ⟨grants, last, hall, hR⟩ := ih hrest hlater
      exact ⟨g :: grants, last, .cons hget (Prod.ext hg rfl) hall, .cons hpg hR⟩

theorem GrantsAll.commitAll_eq {last : Roster} {grants : List γ}
    (h : GrantsAll rnti grant roster plans grants last) :
    commitAll rnti grant roster plans = (grants, last) := by
  induction h with
  | nil => rfl
  | cons hget hgrant _ ih =>
      rw [commitAll, hget]
      dsimp only
      rw [hgrant, ih]
      rfl

end Commit

variable (tx : Tti) (carrier : Nat)

def grantDl (p : DlPlan) (t : Terminal) : Except GrantError DlGrant × Terminal :=
  t.grantDownlink tx carrier p.pid p.mask p.dci

def grantUl (p : UlPlan) (t : Terminal) : Except GrantError UlGrant × Terminal :=
  t.grantUplink tx carrier p.pid p.interval p.dci

theorem rnti_grantDl (p : DlPlan) (t : Terminal) : (grantDl tx carrier p t).2.rnti = t.rnti :=
  (t.grantDownlink_spec tx carrier p.pid p.mask p.dci).answer.1

theorem rnti_grantUl (p : UlPlan) (t : Terminal) : (grantUl tx carrier p t).2.rnti = t.rnti :=
  (t.grantUplink_spec tx carrier p.pid p.interval p.dci).answer.1

theorem commitDownlink_eq (roster : Roster) (region : ControlRegion) (plans : List DlPlan) :
    (commitDownlink tx carrier roster region plans).1 =
        (commitAll DlPlan.rnti (grantDl tx carrier) roster plans).1 ∧
      (commitDownlink tx carrier roster region plans).2.1 =
        (commitAll DlPlan.rnti (grantDl tx carrier) roster plans).2 := by
  induction plans generalizing roster region with
  | nil => exact ⟨rfl, rfl⟩
  | cons p plans ih =>
      rw [commitAll]
      cases hget : roster.get? p.rnti with
      | none =>
          rw [commitDownlink_cons_none tx carrier hget]
          exact ih roster region
      | some t =>
          rcases hgrant : grantDl tx carrier p t with ⟨e | g, t'⟩
          · rw [commitDownlink_cons_error tx carrier hget hgrant]
            dsimp only
            rw [hgrant]
            exact ih _ _
          · rw [commitDownlink_cons_ok tx carrier hget hgrant]
            dsimp only
            rw [hgrant]
            exact ⟨congrArg (g :: ·) (ih _ _).1, (ih _ _).2⟩

theorem commitUplink_eq (roster : Roster) (region : ControlRegion) (plans : List UlPlan) :
    (commitUplink tx carrier roster region plans).1 =
        (commitAll UlPlan.rnti (grantUl tx carrier) roster plans).1 ∧
      (commitUplink tx carrier roster region plans).2.1 =
        (commitAll UlPlan.rnti (grantUl tx carrier) roster plans).2 := by
  induction plans generalizing roster region with
  | nil => exact ⟨rfl, rfl⟩
  | cons p plans ih =>
      rw [commitAll]
      cases hget : roster.get? p.rnti with
      | none =>
          rw [commitUplink_cons_none tx carrier hget]
          exact ih roster region
      | some t =>
          rcases hgrant : grantUl tx carrier p t with ⟨e | g, t'⟩
          · rw [commitUplink_cons_error tx carrier hget hgrant]
            dsimp only
            rw [hgrant]
            exact ih _ _
          · rw [commitUplink_cons_ok tx carrier hget hgrant]
            dsimp only
            rw [hgrant]
            exact ⟨congrArg (g :: ·) (ih _ _).1, (ih _ _).2⟩

/-- Where every entry is granted, nothing is given back to the control region. -/
theorem GrantsAll.commitDownlink_eq {roster last : Roster} {plans : List DlPlan}
    {grants : List DlGrant}
    (h : GrantsAll DlPlan.rnti (grantDl tx carrier) roster plans grants last)
    (region : ControlRegion) :
    commitDownlink tx carrier roster region plans = (grants, last, region) := by
  induction h with
  | nil => rfl
  | cons hget hgrant _ ih => rw [commitDownlink_cons_ok tx carrier hget hgrant, ih]

theorem GrantsAll.commitUplink_eq {roster last : Roster} {plans : List UlPlan}
    {grants : List UlGrant}
    (h : GrantsAll UlPlan.rnti (grantUl tx carrier) roster plans grants last)
    (region : ControlRegion) :
    commitUplink tx carrier roster region plans = (grants, last, region) := by
  induction h with
  | nil => rfl
  | cons hget hgrant _ ih => rw [commitUplink_cons_ok tx carrier hget hgrant, ih]

/-! ## Observing -/

/-- A pass sees every terminal at its own point of the clock, in order. -/
theorem observe_spec (now : Tti) (carrier : Nat) (pools : PucchPools) (roster : Roster) :
    (observe now carrier pools roster).1 =
        (observe now carrier pools roster).2.1.filterMap (·.snapshot? now carrier) ∧
      (observe now carrier pools roster).2.1.map (·.rnti) = roster.map (·.rnti) ∧
      ∀ t' ∈ (observe now carrier pools roster).2.1, ∃ t ∈ roster, ∃ pools,
        t' = (t.newTti now pools).1 := by
  induction roster generalizing pools with
  | nil => simp [observe]
  | cons t roster ih =>
      obtain ⟨hsnapshots, hrntis, hback⟩ := ih (t.newTti now pools).2
      have hobserve : observe now carrier pools (t :: roster) =
          (((t.newTti now pools).1.snapshot? now carrier).toList ++
              (observe now carrier (t.newTti now pools).2 roster).1,
            (t.newTti now pools).1 :: (observe now carrier (t.newTti now pools).2 roster).2.1,
            (observe now carrier (t.newTti now pools).2 roster).2.2) := rfl
      rw [hobserve]
      refine ⟨?_, ?_, fun t' ht' ↦ ?_⟩
      · rw [List.filterMap_cons, ← hsnapshots]
        cases (t.newTti now pools).1.snapshot? now carrier <;> rfl
      · have hrnti : (t.newTti now pools).1.rnti = t.rnti := t.rnti_newTti now pools
        rw [List.map_cons, List.map_cons, hrnti, hrntis]
      · rcases List.mem_cons.mp ht' with rfl | ht'
        · exact ⟨t, List.mem_cons_self, pools, rfl⟩
        · obtain ⟨u, hu, pools', rfl⟩ := hback t' ht'
          exact ⟨u, List.mem_cons_of_mem t hu, pools', rfl⟩

/-- The terminals after a pass: what its plan makes of those it saw. -/
theorem schedule_roster_eq (c : CarrierPass)
    (order : Direction → List Candidate → List Candidate) (now : Tti) (elapsed : Nat)
    (roster : Roster) (pools : PucchPools) :
    (c.schedule order now elapsed roster pools).2.2.1 =
      (commitAll UlPlan.rnti (grantUl now.uplinkTx c.params.index)
        (commitAll DlPlan.rnti (grantDl now.downlinkTx c.params.index)
          (c.observed now roster pools).2.1 (c.planOf order now roster pools).dl).2
        (c.planOf order now roster pools).ul).2 := by
  obtain ⟨-, -, -, -, heq⟩ := c.schedule_parts order now elapsed roster pools
  rw [heq, uplinkOf, (commitUplink_eq _ _ _ _ _).2, downlinkOf, (commitDownlink_eq _ _ _ _ _).2]

end MacScheduler.CarrierPass
