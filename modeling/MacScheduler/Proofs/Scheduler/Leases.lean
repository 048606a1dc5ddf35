import MacScheduler.Proofs.Scheduler.Attached

/-!
# Leases of all terminals

The leases on a pool are those of the attached terminals, so the users of a slot
are counted by going through the roster.  Terminals come, go and are configured
anew, and every pass tries again for each terminal that lacks a lease; leases are
only taken during a pass, so a pool that was full when one terminal asked is full
at the end.
-/

namespace MacScheduler

namespace Roster

/-- The leases on the pool of a kind. -/
def held (kind : PucchKind) (r : Roster) : List PucchLease := r.filterMap (·.lease? kind)

/-- The terminals whose lease is on a slot. -/
def usersOn (kind : PucchKind) (slot : Nat) (r : Roster) : Nat :=
  r.countP fun t ↦ (t.lease? kind).any fun l ↦ decide (l.slot = slot)

variable {r r' : Roster} {t t' : Terminal} {kind : PucchKind}

theorem held_cons (kind : PucchKind) (t : Terminal) (r : Roster) :
    held kind (t :: r) = (t.lease? kind).toList ++ held kind r := by
  rw [held, List.filterMap_cons]
  cases t.lease? kind <;> rfl

theorem held_append (kind : PucchKind) (r r' : Roster) :
    held kind (r ++ r') = held kind r ++ held kind r' := List.filterMap_append

theorem perm_held (kind : PucchKind) (before after : Roster) (t : Terminal) :
    (held kind (before ++ t :: after)).Perm
      ((t.lease? kind).toList ++ held kind (before ++ after)) := by
  rw [held_append, held_append, held_cons]
  exact List.perm_append_comm_assoc _ _ _

theorem countP_held (kind : PucchKind) (slot : Nat) (r : Roster) :
    (held kind r).countP (fun l ↦ decide (l.slot = slot)) = r.usersOn kind slot := by
  induction r with
  | nil => rfl
  | cons t r ih =>
      rw [held_cons, List.countP_append, ih, usersOn, usersOn, List.countP_cons, Nat.add_comm]
      cases t.lease? kind <;> simp

/-! ## One terminal of a roster -/

/-- Where a terminal stands in a roster: what an update and a removal make of the rest. -/
theorem exists_split (hnodup : (r.map (·.rnti)).Nodup) (hget : r.get? t.rnti = some t) :
    ∃ before after, r = before ++ t :: after ∧
      (∀ t', t'.rnti = t.rnti → r.update t' = before ++ t' :: after) ∧
      r.erase t.rnti = before ++ after := by
  obtain ⟨before, after, rfl⟩ := List.append_of_mem (of_get? hget).1
  rw [List.map_append, List.map_cons, List.nodup_middle, List.nodup_cons, List.mem_append] at hnodup
  obtain ⟨hbefore, hafter⟩ := not_or.mp hnodup.1
  have hne : ∀ s : Roster, t.rnti ∉ s.map (·.rnti) → ∀ u ∈ s, u.rnti ≠ t.rnti :=
    fun s hs u hu heq ↦ hs (heq ▸ List.mem_map_of_mem hu)
  refine ⟨before, after, rfl, fun t' ht' ↦ ?_, ?_⟩
  · have hsame : ∀ s : Roster, t.rnti ∉ s.map (·.rnti) → s.update t' = s := by
      intro s hs
      rw [update, List.map_congr_left (g := id), List.map_id]
      intro u hu
      rw [ht', if_neg (hne s hs u hu), id]
    rw [update, List.map_append, List.map_cons, if_pos ht'.symm]
    exact congrArg₂ (· ++ t' :: ·) (hsame before hbefore) (hsame after hafter)
  · have hsame : ∀ s : Roster, t.rnti ∉ s.map (·.rnti) → s.erase t.rnti = s := fun s hs ↦
      List.filter_eq_self.mpr fun u hu ↦ by simpa using hne s hs u hu
    rw [erase, List.filter_append, List.filter_cons_of_neg (by simp)]
    exact congrArg₂ (· ++ ·) (hsame before hbefore) (hsame after hafter)

theorem exists_insert_split (hnew : t.rnti ∉ r.map (·.rnti)) :
    ∃ before after, r = before ++ after ∧ r.insert t = before ++ t :: after := by
  induction r with
  | nil => exact ⟨[], [], rfl, rfl⟩
  | cons u r ih =>
      obtain ⟨hne, hrest⟩ := not_or.mp fun h ↦ hnew (List.mem_cons.mpr h)
      obtain ⟨before, after, rfl, hinsert⟩ := ih hrest
      by_cases hlt : t.rnti.val < u.rnti.val
      · exact ⟨[], u :: (before ++ after), rfl, by rw [insert, if_pos hlt]; rfl⟩
      · refine ⟨u :: before, after, rfl, ?_⟩
        rw [insert, if_neg hlt, if_neg hne, hinsert, List.cons_append]

/-! ## Rosters that lease alike -/

/-- Terminal by terminal, nothing that concerns the pools is different. -/
def SameLeases (r r' : Roster) : Prop := List.Forall₂ Terminal.SameLeases r r'

namespace SameLeases

theorem refl (r : Roster) : r.SameLeases r := List.forall₂_same.mpr fun t _ ↦ .refl t

theorem trans {r'' : Roster} (h : r.SameLeases r') (h' : r'.SameLeases r'') : r.SameLeases r'' := by
  induction h generalizing r'' with
  | nil =>
      cases h'
      exact .nil
  | cons hhead _ ih =>
      cases h' with
      | cons hhead' htail' => exact .cons (hhead.trans hhead') (ih htail')

theorem rntis_eq (h : r.SameLeases r') : r'.map (·.rnti) = r.map (·.rnti) :=
  map_eq_of_forall₂ h fun _ _ hsame ↦ hsame.rnti_eq

theorem held_eq (h : r.SameLeases r') (kind : PucchKind) : r'.held kind = r.held kind := by
  induction h with
  | nil => rfl
  | cons hhead _ ih => rw [held_cons, held_cons, hhead.lease_eq, ih]

theorem of_mem (h : r.SameLeases r') (ht' : t' ∈ r') : ∃ t ∈ r, t.SameLeases t' := by
  obtain ⟨i, hi⟩ := List.mem_iff_getElem?.mp ht'
  obtain ⟨t, ht, hsame⟩ := getElem?_of_forall₂ h hi
  exact ⟨t, List.mem_of_getElem? ht, hsame⟩

theorem update (hnodup : (r.map (·.rnti)).Nodup) {rnti : Rnti} (hget : r.get? rnti = some t)
    (h : t.SameLeases t') : r.SameLeases (r.update t') := by
  obtain ⟨hmem, rfl⟩ := of_get? hget
  obtain ⟨before, after, hr, hupdate, -⟩ := exists_split hnodup hget
  rw [hupdate t' h.rnti_eq, hr]
  exact List.rel_append (refl before) (.cons h (refl after))

end SameLeases

end Roster

namespace CarrierPass

/-! ## A pass -/

section Commit

variable {π γ : Type} {rnti : π → Rnti}
  {grant : π → Terminal → Except GrantError γ × Terminal}

theorem commitAll_sameLeases (hsame : ∀ p (t : Terminal), t.SameLeases (grant p t).2)
    {roster : Roster} (hnodup : (roster.map (·.rnti)).Nodup) (plans : List π) :
    roster.SameLeases (commitAll rnti grant roster plans).2 := by
  induction plans generalizing roster with
  | nil => exact .refl roster
  | cons p plans ih =>
      rw [commitAll]
      cases hget : roster.get? (rnti p) with
      | none => exact ih hnodup
      | some t =>
          have hupdate := Roster.SameLeases.update hnodup hget (hsame p t)
          exact hupdate.trans (ih (hupdate.rntis_eq ▸ hnodup))

end Commit

variable {now : Tti} {carrier : Nat} {kind : PucchKind}

theorem observe_cons (now : Tti) (carrier : Nat) (pools : PucchPools) (t : Terminal)
    (roster : Roster) :
    (observe now carrier pools (t :: roster)).2 =
      ((t.newTti now pools).1 :: (observe now carrier (t.newTti now pools).2 roster).2.1,
        (observe now carrier (t.newTti now pools).2 roster).2.2) := rfl

theorem observe_keepsRntis (now : Tti) (carrier : Nat) (pools : PucchPools) (roster : Roster) :
    (observe now carrier pools roster).2.1.map (·.rnti) = roster.map (·.rnti) :=
  (observe_spec now carrier pools roster).2.1

/-- Each boundary of a pass leaves the pools in order. -/
theorem kept_observe (now : Tti) (carrier : Nat) {pools : PucchPools} {roster : Roster}
    {others : List PucchLease}
    (h : (pools.pool kind).Kept kind (Roster.held kind roster ++ others)) :
    ((observe now carrier pools roster).2.2.pool kind).Kept kind
      (Roster.held kind (observe now carrier pools roster).2.1 ++ others) := by
  induction roster generalizing pools others with
  | nil => exact h
  | cons t roster ih =>
      have hhead : ((t.newTti now pools).2.pool kind).Kept kind
          (((t.newTti now pools).1.lease? kind).toList ++ (Roster.held kind roster ++ others)) := by
        rw [Roster.held_cons, List.append_assoc] at h
        by_cases hlast : t.lastTti = some now
        · rw [Terminal.newTti, if_pos hlast]
          exact h
        · have hrenew := Terminal.newTti_leases hlast pools kind
          have hkept := Terminal.kept_renew h (t.config.period? kind)
          rw [← hrenew] at hkept
          exact hkept
      have htail := ih (hhead.perm (List.perm_append_comm_assoc _ _ _))
      rw [observe_cons, Roster.held_cons, List.append_assoc]
      exact htail.perm (List.perm_append_comm_assoc _ _ _)

theorem pool_observe_of_full {pools : PucchPools} {roster : Roster}
    (h : (pools.pool kind).Full) :
    (observe now carrier pools roster).2.2.pool kind = pools.pool kind := by
  induction roster generalizing pools with
  | nil => rfl
  | cons t roster ih =>
      have hhead : (t.newTti now pools).2.pool kind = pools.pool kind := by
        by_cases hlast : t.lastTti = some now
        · rw [Terminal.newTti, if_pos hlast]
        · have hrenew := Terminal.newTti_leases hlast pools kind
          rw [Terminal.renew_of_full h] at hrenew
          exact congrArg Prod.snd hrenew
      rw [observe_cons, ih (hhead ▸ h), hhead]

/-- A terminal that a pass leaves without a lease asked a pool that was full. -/
theorem full_observe {pools : PucchPools} {roster : Roster} {others : List PucchLease}
    (h : (pools.pool kind).Kept kind (Roster.held kind roster ++ others))
    (hperiodic : ∀ t ∈ roster, t.config.Periodic) (hlast : ∀ t ∈ roster, t.lastTti ≠ some now) :
    ∀ t' ∈ (observe now carrier pools roster).2.1, t'.lease? kind = none →
      ((observe now carrier pools roster).2.2.pool kind).Full := by
  induction roster generalizing pools others with
  | nil => exact fun _ ht' ↦ by cases ht'
  | cons t roster ih =>
      have hkept := h
      rw [Roster.held_cons, List.append_assoc] at hkept
      have hrenew := Terminal.newTti_leases (hlast t List.mem_cons_self) pools kind
      have hnext := Terminal.kept_renew hkept (t.config.period? kind)
      rw [← hrenew] at hnext
      rw [observe_cons]
      intro t' ht' hnone
      rcases List.mem_cons.mp ht' with rfl | ht'
      · have hfull := Terminal.full_renew hkept
          (hperiodic t List.mem_cons_self kind) (by rw [← hrenew]; exact hnone)
        rw [← hrenew] at hfull
        rw [pool_observe_of_full hfull]
        exact hfull
      · exact ih (hnext.perm (List.perm_append_comm_assoc _ _ _))
          (fun u hu ↦ hperiodic u (List.mem_cons_of_mem t hu))
          (fun u hu ↦ hlast u (List.mem_cons_of_mem t hu)) t' ht' hnone

/-- The terminals after a pass lease as they did once they were brought to its point. -/
theorem schedule_sameLeases (c : CarrierPass)
    (order : Direction → List Candidate → List Candidate) (now : Tti) (elapsed : Nat)
    {roster : Roster} (hnodup : (roster.map (·.rnti)).Nodup) (pools : PucchPools) :
    (c.observed now roster pools).2.1.SameLeases
        (c.schedule order now elapsed roster pools).2.2.1 ∧
      (c.schedule order now elapsed roster pools).2.2.2 = (c.observed now roster pools).2.2 := by
  refine ⟨?_, rfl⟩
  have hobserved : ((c.observed now roster pools).2.1.map (·.rnti)).Nodup := by
    rw [observed, observe_keepsRntis]
    exact hnodup
  have hdl : (c.observed now roster pools).2.1.SameLeases
      (commitAll DlPlan.rnti (grantDl now.downlinkTx c.params.index)
        (c.observed now roster pools).2.1 (c.planOf order now roster pools).dl).2 :=
    commitAll_sameLeases (fun (p : DlPlan) t ↦ .grantDownlink t _ _ p.pid p.mask p.dci) hobserved _
  rw [schedule_roster_eq]
  exact hdl.trans (commitAll_sameLeases
    (fun (p : UlPlan) t ↦ .grantUplink t _ _ p.pid p.interval p.dci)
    (hdl.rntis_eq ▸ hobserved) _)

/-- Every terminal was brought to the point of the pass, with the configuration it had. -/
theorem of_mem_schedule {c : CarrierPass} {order : Direction → List Candidate → List Candidate}
    {elapsed : Nat} {roster : Roster} {pools : PucchPools} (hnodup : (roster.map (·.rnti)).Nodup)
    {t' : Terminal} (ht' : t' ∈ (c.schedule order now elapsed roster pools).2.2.1) :
    t'.lastTti = some now ∧ ∃ t ∈ roster, t.config.Periodic → t'.config.Periodic := by
  obtain ⟨u, hu, hsame⟩ :=
    (c.schedule_sameLeases order now elapsed hnodup pools).1.of_mem ht'
  obtain ⟨t, ht, pools', rfl⟩ := (observe_spec now c.params.index pools roster).2.2 u hu
  obtain ⟨hconfig, hlast⟩ := t.newTti_clock now pools'
  exact ⟨hsame.lastTti_eq.trans hlast, t, ht, fun h ↦ hsame.periodic (hconfig ▸ h)⟩

end CarrierPass

/-! ## Pools of a configuration -/

theorem PucchPools.kept_ofConfig {c : Config} (h : c.check = .ok ()) (cell : CellConfig)
    (kind : PucchKind) : ((PucchPools.ofConfig c.pucch cell).pool kind).Kept kind [] := by
  have hpucch := (Config.of_check h).2.2.1
  simp only [PucchConfig.violations, Violation.orSection_eq_nil_iff, List.append_eq_nil_iff,
    Violation.require_eq_nil_iff] at hpucch
  cases kind with
  | sr =>
      exact ⟨rfl, hpucch.1.1.1.1.2, .start .sr c.pucch.sr cell, fun users husers ↦
        (List.eq_of_mem_replicate husers).symm ▸ Nat.zero_le _⟩
  | cqi =>
      exact ⟨rfl, hpucch.1.2, .start .cqi c.pucch.cqi cell, fun users husers ↦
        (List.eq_of_mem_replicate husers).symm ▸ Nat.zero_le _⟩

namespace Scheduler

/-! ## Runs -/

/-- The scheduler is reached by requests, and `last` is the point of the latest pass that any
carrier ran. -/
inductive Passed : Scheduler → Option Tti → Prop
  | start : Passed {} none
  | step {s : Scheduler} {last : Option Tti} (h : Passed s last) (r : Request) :
      Passed (s.handle r).2 ((s.passPoint? r).or last)

theorem reachable_iff {s : Scheduler} : s.Reachable ↔ ∃ last, s.Passed last := by
  constructor
  · intro h
    induction h with
    | start => exact ⟨none, .start⟩
    | step _ r ih =>
        obtain ⟨last, hlast⟩ := ih
        exact ⟨_, hlast.step r⟩
  · rintro ⟨last, h⟩
    induction h with
    | start => exact .start
    | step _ r ih => exact ih.step r

/-- The pools are in order with the leases of the attached terminals, all of which were last at
the point of the latest pass. -/
structure Tenancy (last : Option Tti) (s : Scheduler) : Prop where
  kept : ∀ cells, s.cells = some cells → ∀ kind,
    (cells.pools.pool kind).Kept kind (s.terminals.held kind)
  periodic : ∀ t ∈ s.terminals, t.config.Periodic
  clock : ∀ t ∈ s.terminals, t.lastTti = none ∨ t.lastTti = last

namespace Tenancy

variable {s : Scheduler} {last : Option Tti}

theorem start : Tenancy last {} where
  kept := fun _ h ↦ by cases h
  periodic := fun _ h ↦ by cases h
  clock := fun _ h ↦ by cases h

theorem configureCells (h : s.Tenancy last) (c : Config) : (s.configureCells c).2.Tenancy last := by
  unfold Scheduler.configureCells
  split
  · exact h
  · rename_i hnone
    have hempty : s.terminals = [] := Decidable.not_not.mp hnone
    unfold CellSet.create
    cases hcheck : c.check with
    | error e => exact h
    | ok _ =>
        refine ⟨fun cells hcells kind ↦ ?_, h.periodic, h.clock⟩
        obtain rfl := Option.some.inj hcells
        rw [hempty]
        exact PucchPools.kept_ofConfig hcheck _ kind

theorem act (h : s.Tenancy last) (ha : s.Attached) (rnti : Rnti) (action : Terminal.Action) :
    (s.act rnti action).2.Tenancy last := by
  unfold Scheduler.act
  cases hget : s.terminals.get? rnti with
  | none => exact h
  | some t =>
      have hsame := Roster.SameLeases.update ha.nodup hget (.perform t action)
      have hback := fun u (hu : u ∈ s.terminals.update _) ↦ hsame.of_mem hu
      refine ⟨fun cells hcells kind ↦ ?_, fun u hu ↦ ?_, fun u hu ↦ ?_⟩
      · have hkept := h.kept cells hcells kind
        rw [← hsame.held_eq kind] at hkept
        exact hkept
      · obtain ⟨v, hv, hvu⟩ := hback u hu
        exact hvu.periodic (h.periodic v hv)
      · obtain ⟨v, hv, hvu⟩ := hback u hu
        rw [hvu.lastTti_eq]
        exact h.clock v hv

theorem removeTerminal (h : s.Tenancy last) (ha : s.Attached) (rnti : Rnti) :
    (s.removeTerminal rnti).2.Tenancy last := by
  unfold Scheduler.removeTerminal
  cases hget : s.terminals.get? rnti with
  | none => exact h
  | some t =>
      obtain ⟨-, rfl⟩ := Roster.of_get? hget
      obtain ⟨before, after, hsplit, -, herase⟩ := Roster.exists_split ha.nodup hget
      have hsub : ∀ u ∈ s.terminals.erase t.rnti, u ∈ s.terminals := fun u hu ↦
        List.mem_of_mem_filter hu
      refine ⟨fun cells' hcells' kind ↦ ?_, fun u hu ↦ h.periodic u (hsub u hu),
        fun u hu ↦ h.clock u (hsub u hu)⟩
      obtain ⟨cells, hcells, rfl⟩ := Option.map_eq_some_iff.mp hcells'
      have hkept := h.kept cells hcells kind
      rw [hsplit] at hkept
      rw [herase]
      exact Terminal.kept_leave (hkept.perm (Roster.perm_held kind before after t))

theorem repool (h : s.Tenancy last) {cells : CellSet} (hcells : s.cells = some cells)
    {pools : PucchPools}
    (hkept : ∀ kind held, (cells.pools.pool kind).Kept kind held →
      (pools.pool kind).Kept kind held) :
    Tenancy last { s with cells := some { cells with pools } } :=
  ⟨fun _ hcells' kind ↦ Option.some.inj hcells' ▸ hkept kind _ (h.kept cells hcells kind),
    h.periodic, h.clock⟩

/-- Replacing one terminal, together with what it leases, leaves the rest in order. -/
theorem replace (h : s.Tenancy last) (ha : s.Attached) {cells : CellSet}
    (hcells : s.cells = some cells)
    {rnti : Rnti} {t t' : Terminal} (hget : s.terminals.get? rnti = some t)
    (hrnti : t'.rnti = t.rnti) (hlast : t'.lastTti = t.lastTti) (hperiodic : t'.config.Periodic)
    {pools : PucchPools}
    (hkept : ∀ kind held, (cells.pools.pool kind).Kept kind ((t.lease? kind).toList ++ held) →
      (pools.pool kind).Kept kind ((t'.lease? kind).toList ++ held)) :
    Tenancy last ⟨some { cells with pools }, s.terminals.update t'⟩ := by
  obtain ⟨hmem, rfl⟩ := Roster.of_get? hget
  obtain ⟨before, after, hsplit, hupdate, -⟩ := Roster.exists_split ha.nodup hget
  refine ⟨fun cells' hcells' kind ↦ ?_, fun u hu ↦ ?_, fun u hu ↦ ?_⟩
  · obtain rfl := Option.some.inj hcells'
    have hold := h.kept cells hcells kind
    rw [hsplit] at hold
    have hnew := hkept kind _ (hold.perm (Roster.perm_held kind before after t))
    rw [hupdate t' hrnti]
    exact hnew.perm (Roster.perm_held kind before after t').symm
  · rcases Roster.mem_update hu with rfl | hu
    · exact hperiodic
    · exact h.periodic u hu
  · rcases Roster.mem_update hu with rfl | hu
    · rw [hlast]
      exact h.clock t hmem
    · exact h.clock u hu

theorem attach (h : s.Tenancy last) {cells : CellSet} (hcells : s.cells = some cells)
    {t : Terminal} (hget : s.terminals.get? t.rnti = none) (hlast : t.lastTti = none)
    (hperiodic : t.config.Periodic) {pools : PucchPools}
    (hkept : ∀ kind held, (cells.pools.pool kind).Kept kind held →
      (pools.pool kind).Kept kind ((t.lease? kind).toList ++ held)) :
    Tenancy last ⟨some { cells with pools }, s.terminals.insert t⟩ := by
  have hnew := Roster.not_mem_of_get?_eq_none hget
  obtain ⟨before, after, hsplit, hinsert⟩ := Roster.exists_insert_split hnew
  refine ⟨fun cells' hcells' kind ↦ ?_, fun u hu ↦ ?_, fun u hu ↦ ?_⟩
  · obtain rfl := Option.some.inj hcells'
    have hold := h.kept cells hcells kind
    rw [hsplit] at hold
    rw [hinsert]
    exact (hkept kind _ hold).perm (Roster.perm_held kind before after t).symm
  · rcases Roster.mem_insert hu with rfl | hu
    · exact hperiodic
    · exact h.periodic u hu
  · rcases Roster.mem_insert hu with rfl | hu
    · exact .inl hlast
    · exact h.clock u hu

theorem configureTerminal (h : s.Tenancy last) (ha : s.Attached) (rnti : Rnti)
    (c : TerminalConfig) : (s.configureTerminal rnti c).2.Tenancy last := by
  unfold Scheduler.configureTerminal
  cases hcells : s.cells with
  | none => exact h
  | some cells =>
      cases hget : s.terminals.get? rnti with
      | some t =>
          have hmem := (Roster.of_get? hget).1
          dsimp only
          unfold Terminal.setConfig
          cases hcheck : c.check cells.params.length with
          | error e =>
              exact h.replace ha hcells hget rfl rfl (h.periodic t hmem) fun _ _ hkept ↦ hkept
          | ok _ =>
              obtain ⟨hrnti, hlast, -⟩ := t.apply_links cells.params c cells.pools
              exact h.replace ha hcells hget hrnti hlast
                (Terminal.periodic_apply cells.params (h.periodic t hmem)
                  (TerminalConfig.periodic_of_check hcheck) cells.pools)
                fun _ _ hkept ↦ Terminal.kept_apply hkept c
      | none =>
          rcases Terminal.create_leases rnti c cells.params cells.pools with
            ⟨e, pools, hcreate, hkept⟩ | ⟨t, pools, hcreate, rfl, hlast, hperiodic, hkept⟩
          · simp only [hcreate]
            exact h.repool hcells hkept
          · simp only [hcreate]
            exact h.attach hcells hget hlast hperiodic hkept

/-- A pass brings every terminal to its point, and its grants concern no pool. -/
theorem pull (h : s.Tenancy last) (ha : s.Attached) (hconf : s.Configured) (now : Tti)
    (carrier elapsed : Nat) : (s.pull now carrier elapsed).2.Tenancy
      ((s.passPoint? (.pull now carrier elapsed)).or last) := by
  cases hpoint : s.passPoint? (.pull now carrier elapsed) with
  | none =>
      rw [pull_of_passPoint?_eq_none hpoint]
      exact h
  | some t =>
      obtain ⟨_, _, cells, pass, ⟨⟩, hcells, hpass, hadmits⟩ := exists_of_passPoint? hpoint
      obtain ⟨res, hres, heq⟩ :=
        pull_of_admits hcells hpass hadmits (hconf.pass_counted hcells hpass) elapsed
      obtain ⟨hsame, hpools⟩ := pass.schedule_sameLeases (cells.policy.prioritize now carrier) now
        elapsed ha.nodup cells.pools
      rw [← hres] at hsame hpools
      have hback := fun u (hu : u ∈ res.2.2.1) ↦ CarrierPass.of_mem_schedule ha.nodup (hres ▸ hu)
      rw [heq]
      refine ⟨fun cells' hcells' kind ↦ ?_, fun u hu ↦ ?_, fun u hu ↦ .inr (hback u hu).1⟩
      · have hkept := h.kept cells hcells kind
        rw [← List.append_nil (Roster.held kind s.terminals)] at hkept
        have hobserved := CarrierPass.kept_observe now pass.params.index hkept
        rw [List.append_nil] at hobserved
        obtain rfl := Option.some.inj hcells'
        rw [hsame.held_eq, hpools]
        exact hobserved
      · obtain ⟨-, t, ht, hperiodic⟩ := hback u hu
        exact hperiodic (h.periodic t ht)

theorem handle (h : s.Tenancy last) (ha : s.Attached) (hconf : s.Configured) (r : Request) :
    (s.handle r).2.Tenancy ((s.passPoint? r).or last) := by
  cases r with
  | configureCells c => exact h.configureCells c
  | configureTerminal rnti c => exact h.configureTerminal ha rnti c
  | removeTerminal rnti => exact h.removeTerminal ha rnti
  | act rnti action => exact h.act ha rnti action
  | pull now carrier elapsed => exact h.pull ha hconf now carrier elapsed

/-- After a pass, what a terminal lacks is not to be had. -/
theorem full_pull (h : s.Tenancy last) (ha : s.Attached) (hconf : s.Configured) {now : Tti}
    {carrier elapsed : Nat}
    (hpoint : s.passPoint? (.pull now carrier elapsed) = some now) (hlast : last ≠ some now) :
    ∃ cells, (s.pull now carrier elapsed).2.cells = some cells ∧
      ∀ t ∈ (s.pull now carrier elapsed).2.terminals, ∀ kind, t.lease? kind = none →
        (cells.pools.pool kind).Full := by
  obtain ⟨_, _, cells, pass, ⟨⟩, hcells, hpass, hadmits⟩ := exists_of_passPoint? hpoint
  obtain ⟨res, hres, heq⟩ :=
    pull_of_admits hcells hpass hadmits (hconf.pass_counted hcells hpass) elapsed
  obtain ⟨hsame, hpools⟩ := pass.schedule_sameLeases (cells.policy.prioritize now carrier) now
    elapsed ha.nodup cells.pools
  rw [← hres] at hsame hpools
  rw [heq]
  refine ⟨_, rfl, fun t' ht' kind hnone ↦ ?_⟩
  obtain ⟨u, hu, hut⟩ := hsame.of_mem ht'
  have hkept := h.kept cells hcells kind
  rw [← List.append_nil (Roster.held kind s.terminals)] at hkept
  have hearlier : ∀ t ∈ s.terminals, t.lastTti ≠ some now := fun t ht hnow ↦ by
    rcases h.clock t ht with hclock | hclock
    · rw [hclock] at hnow
      cases hnow
    · exact hlast (hclock.symm.trans hnow)
  have hfull := CarrierPass.full_observe hkept h.periodic hearlier u hu
    ((hut.lease_eq kind).symm.trans hnone)
  dsimp only
  rw [hpools]
  exact hfull

end Tenancy

theorem Passed.tenancy {s : Scheduler} {last : Option Tti} (h : s.Passed last) :
    s.Tenancy last := by
  induction h with
  | start => exact .start
  | step hs r ih =>
      have hreachable := reachable_iff.mpr ⟨_, hs⟩
      exact ih.handle hreachable.attached hreachable.configured r

/-! ## Slots -/

/-- In every reachable state each slot of both pools has as many users as there are terminals
whose lease is on it, and no more than it may have.  Right after a pass at a new point, a
terminal is without a resource only if every slot of that pool has as many users as it may. -/
theorem slots_count_terminals {s : Scheduler} (h : s.Reachable) :
    (∀ cells, s.cells = some cells → ∀ (kind : PucchKind),
      (∀ t ∈ s.terminals, ∀ l, t.lease? kind = some l →
        l.slot < (cells.pools.pool kind).occupancy.length) ∧
      ∀ (slot users : Nat), (cells.pools.pool kind).occupancy[slot]? = some users →
        users = s.terminals.usersOn kind slot ∧ users ≤ (cells.pools.pool kind).maxUsers) ∧
    ∀ last, s.Passed last → ∀ now carrier elapsed,
      s.passPoint? (.pull now carrier elapsed) = some now → last ≠ some now →
      ∃ cells, (s.handle (.pull now carrier elapsed)).2.cells = some cells ∧
        ∀ t ∈ (s.handle (.pull now carrier elapsed)).2.terminals, ∀ kind,
          t.lease? kind = none → ∀ users ∈ (cells.pools.pool kind).occupancy,
            users = (cells.pools.pool kind).maxUsers := by
  constructor
  · intro cells hcells kind
    obtain ⟨last, hpassed⟩ := reachable_iff.mp h
    have hkept := hpassed.tenancy.kept cells hcells kind
    constructor
    · intro t ht l hl
      have hplaced := hkept.sound.placed l (List.mem_filterMap.mpr ⟨t, ht, hl⟩)
      exact hkept.sound.length_eq ▸ hplaced.slot_lt
    · intro slot users hslot
      refine ⟨?_, hkept.bounded users (List.mem_of_getElem? hslot)⟩
      rw [← Roster.countP_held]
      exact (hkept.sound.counted slot users hslot).symm
  · intro last hpassed now carrier elapsed hpoint hlast
    have hafter := (hpassed.step (.pull now carrier elapsed)).tenancy
    obtain ⟨cells, hcells, hfull⟩ := hpassed.tenancy.full_pull h.attached h.configured hpoint hlast
    refine ⟨cells, hcells, fun t ht kind hnone users husers ↦ ?_⟩
    exact Nat.le_antisymm ((hafter.kept cells hcells kind).bounded users husers)
      (hfull t ht kind hnone users husers)

/-- The given number of terminals on pools of one slot, which takes eight users. -/
def tenants : Nat → Scheduler
  | 0 =>
      let cell : CellConfig := { extendedCp := true, deltaPucchShift := 3 }
      let pucch : PucchConfig :=
        { sr := { nofSubframes := 1, period := 20 }, cqi := { nofSubframes := 1, period := 40 } }
      (({} : Scheduler).handle (.configureCells { cells := [cell], pucch })).2
  | n + 1 => ((tenants n).handle (.configureTerminal ⟨70 + n⟩ {})).2

theorem passed_tenants (n : Nat) : (tenants n).Passed none := by
  induction n with
  | zero => exact .step .start (.configureCells _)
  | succ n ih => exact ih.step (.configureTerminal ⟨70 + n⟩ {})

/-- Of nine terminals one is without, and has to be. -/
theorem slots_count_tenants :
    ∃ cells, ((tenants 9).handle (.pull (Tti.ofNat 1) 0 10)).2.cells = some cells ∧
      (∃ t ∈ ((tenants 9).handle (.pull (Tti.ofNat 1) 0 10)).2.terminals,
        t.lease? .sr = none) ∧
      cells.pools.sr.occupancy = [8] ∧
      ∀ users ∈ cells.pools.sr.occupancy, users = cells.pools.sr.maxUsers := by
  have hpassed := passed_tenants 9
  obtain ⟨cells, hcells, hfull⟩ := (slots_count_terminals (reachable_iff.mpr ⟨_, hpassed⟩)).2 none
    hpassed (Tti.ofNat 1) 0 10 (by decide +kernel) (by decide)
  have hlacks : ∃ t ∈ ((tenants 9).handle (.pull (Tti.ofNat 1) 0 10)).2.terminals,
      t.lease? .sr = none := by
    decide +kernel
  have hoccupancy : ((tenants 9).handle (.pull (Tti.ofNat 1) 0 10)).2.cells.map
      (·.pools.sr.occupancy) = some [8] := by
    decide +kernel
  rw [hcells, Option.map_some] at hoccupancy
  obtain ⟨t, ht, hnone⟩ := hlacks
  exact ⟨cells, hcells, ⟨t, ht, hnone⟩, Option.some.inj hoccupancy, hfull t ht .sr hnone⟩

end Scheduler

end MacScheduler
