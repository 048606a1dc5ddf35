import MacScheduler.Proofs.Pucch.Index
import MacScheduler.Proofs.Terminal.Leases
import MacScheduler.Proofs.Terminal.Run

/-!
# Periods of leases

A terminal leases at the period that its configuration asks for, or at the pool's
own.  A lease is given back when the configuration changes that period, so what is
held always agrees with the configuration.  The pools are shared: who else uses
them changes nothing about the resources that they lease.
-/

namespace MacScheduler

namespace PucchPool

variable {p q : PucchPool} {period : Nat} {r : PucchResource}

theorem Issues.of_vacated (h : q.Issues period r) (hpq : p.vacated = q.vacated) :
    p.Issues period r := by
  have hvacated : q.vacated.Issues period r :=
    ⟨h.kind_eq, h.period_eq, h.offset_mem, h.configIdx_eq⟩
  rw [← hpq] at hvacated
  exact ⟨hvacated.kind_eq, hvacated.period_eq, hvacated.offset_mem, hvacated.configIdx_eq⟩

theorem of_vacated_eq (h : p.vacated = q.vacated) :
    p.nofPrb = q.nofPrb ∧ p.offsets = q.offsets ∧ p.defaultPeriod = q.defaultPeriod ∧
      p.occupancy.length = q.occupancy.length := by
  have hnofPrb := congrArg PucchPool.nofPrb h
  have hoffsets := congrArg PucchPool.offsets h
  have hdefault := congrArg PucchPool.defaultPeriod h
  have hlength := congrArg (List.length ·.occupancy) h
  simp only [vacated, List.length_replicate] at hlength
  exact ⟨hnofPrb, hoffsets, hdefault, hlength⟩

theorem Gridded.of_vacated (h : q.Gridded) (hpq : p.vacated = q.vacated) : p.Gridded := by
  obtain ⟨hnofPrb, hoffsets, -, hlength⟩ := of_vacated_eq hpq
  rw [Gridded, hlength, hnofPrb, hoffsets]
  exact h

end PucchPool

namespace PucchPools

/-- The same pools, whoever uses them. -/
def Like (pools u : PucchPools) : Prop := ∀ kind, (pools.pool kind).vacated = (u.pool kind).vacated

def Gridded (pools : PucchPools) : Prop := ∀ kind, (pools.pool kind).Gridded

theorem gridded_ofConfig (c : PucchConfig) (cell : CellConfig) : (ofConfig c cell).Gridded := by
  intro kind
  cases kind <;> exact List.length_replicate

end PucchPools

namespace Terminal

/-- Both leases are for the periods that the configuration asks for. -/
def Leased (u : PucchPools) (t : Terminal) : Prop :=
  ∀ kind, ∀ l ∈ t.lease? kind,
    (u.pool kind).Issues ((t.config.period? kind).getD (u.pool kind).defaultPeriod) l.resource

theorem issues_renew {p u : PucchPool} (hlike : p.vacated = u.vacated) (hu : u.Gridded)
    {period : Option Nat} {old : Option PucchLease}
    (hold : ∀ l ∈ old, u.Issues (period.getD u.defaultPeriod) l.resource) :
    (∀ l ∈ (renew p period old).1, u.Issues (period.getD u.defaultPeriod) l.resource) ∧
      (renew p period old).2.vacated = u.vacated := by
  cases old with
  | some l => exact ⟨hold, hlike⟩
  | none =>
      have hdefault := (PucchPool.of_vacated_eq hlike).2.2.1
      have hvacated := p.vacated_lease (period.getD p.defaultPeriod)
      rw [renew, tryLease]
      cases hlease : p.lease (period.getD p.defaultPeriod) with
      | mk answer p' =>
          rw [hlease] at hvacated
          cases answer with
          | error e => exact ⟨fun _ hl ↦ (by cases hl), hvacated.trans hlike⟩
          | ok l =>
              have hissues := (hu.of_vacated hlike).issues hlease
              rw [hdefault] at hissues
              refine ⟨?_, hvacated.trans hlike⟩
              rintro _ ⟨⟩
              exact hissues.of_vacated hlike.symm

theorem vacated_giveBack (p : PucchPool) (old : Option PucchLease) :
    (giveBack p old).vacated = p.vacated := by
  cases old with
  | none => rfl
  | some l => exact p.vacated_release l

variable {cells : List CellParams} {t t' : Terminal} {u pools : PucchPools}

namespace Leased

theorem of_sameLeases (h : t.Leased u) (hsame : t.SameLeases t') : t'.Leased u := by
  intro kind l hl
  rw [hsame.lease_eq kind] at hl
  rw [hsame.period_eq kind]
  exact h kind l hl

theorem newTti (h : t.Leased u) (hu : u.Gridded) (hpools : pools.Like u) (now : Tti) :
    (t.newTti now pools).1.Leased u ∧ (t.newTti now pools).2.Like u := by
  by_cases hlast : t.lastTti = some now
  · rw [Terminal.newTti, if_pos hlast]
    exact ⟨h, hpools⟩
  · have hrenew := fun kind ↦ issues_renew (hpools kind) (hu kind) (h kind)
    have hconfig := (t.newTti_clock now pools).1
    simp only [← Terminal.newTti_leases hlast pools] at hrenew
    refine ⟨fun kind ↦ ?_, fun kind ↦ (hrenew kind).2⟩
    rw [hconfig]
    exact (hrenew kind).1

theorem apply (h : t.Leased u) (hu : u.Gridded) (hpools : pools.Like u)
    (cells : List CellParams) (c : TerminalConfig) :
    (t.apply cells c pools).2.1.Leased u ∧ (t.apply cells c pools).2.2.Like u := by
  rcases t.apply_leases cells c pools with ⟨-, hconfig, hsame⟩ | ⟨-, hconfig, hleases⟩
  · refine ⟨fun kind ↦ ?_, fun kind ↦ ?_⟩
    · rw [hconfig, (hsame kind).1]
      exact h kind
    · exact (congrArg PucchPool.vacated (hsame kind).2).trans (hpools kind)
  · have hrenew : ∀ kind, (∀ l ∈ (t.apply cells c pools).2.1.lease? kind, (u.pool kind).Issues
          ((c.period? kind).getD (u.pool kind).defaultPeriod) l.resource) ∧
        ((t.apply cells c pools).2.2.pool kind).vacated = (u.pool kind).vacated := by
      intro kind
      have heq := hleases kind
      by_cases hperiod : t.config.period? kind = c.period? kind
      · rw [if_pos hperiod] at heq
        have hkept := issues_renew (hpools kind) (hu kind) (hperiod ▸ h kind)
        rw [← heq] at hkept
        exact hkept
      · -- the lease of another period is given back first
        rw [if_neg hperiod] at heq
        have hnone : ∀ l ∈ (none : Option PucchLease), (u.pool kind).Issues
            ((c.period? kind).getD (u.pool kind).defaultPeriod) l.resource :=
          fun _ hl ↦ (by cases hl)
        have hback := vacated_giveBack (pools.pool kind) (t.lease? kind)
        have hfresh := issues_renew (hback.trans (hpools kind)) (hu kind) hnone
        rw [← heq] at hfresh
        exact hfresh
    refine ⟨fun kind ↦ ?_, fun kind ↦ (hrenew kind).2⟩
    rw [hconfig]
    exact (hrenew kind).1

theorem setConfig (h : t.Leased u) (hu : u.Gridded) (hpools : pools.Like u)
    (cells : List CellParams) (c : TerminalConfig) :
    (t.setConfig c cells pools).2.1.Leased u ∧ (t.setConfig c cells pools).2.2.Like u := by
  unfold Terminal.setConfig
  split
  · exact ⟨h, hpools⟩
  · exact h.apply hu hpools cells c

theorem blank (u : PucchPools) (rnti : Rnti) (c : TerminalConfig) : (blank rnti c).Leased u := by
  intro kind l hl
  cases kind <;> cases hl

end Leased

theorem like_leave (hpools : pools.Like u) (t : Terminal) : (t.leave pools).Like u := by
  intro kind
  cases kind
  · exact (vacated_giveBack _ _).trans (hpools .sr)
  · exact (vacated_giveBack _ _).trans (hpools .cqi)

theorem create_leased (hu : u.Gridded) (hpools : pools.Like u) (rnti : Rnti) (c : TerminalConfig)
    (cells : List CellParams) :
    (∀ t, (create rnti c cells pools).1 = .ok t → t.Leased u) ∧
      (create rnti c cells pools).2.Like u := by
  have happly := (Leased.blank u rnti c).apply hu hpools cells c
  unfold create
  split
  · exact ⟨fun _ ht ↦ (by cases ht), hpools⟩
  · unfold blank at happly
    dsimp only
    generalize Terminal.apply _ cells c pools = out at happly ⊢
    obtain ⟨e | _, t, pools'⟩ := out
    · exact ⟨fun _ ht ↦ (by cases ht), like_leave happly.2 t⟩
    · refine ⟨?_, happly.2⟩
      rintro _ ⟨⟩
      exact happly.1

end Terminal

end MacScheduler
