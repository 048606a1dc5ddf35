import MacScheduler.Proofs.Pucch.Pool
import MacScheduler.Proofs.Terminal.Request

/-!
# Leases of a terminal

A terminal holds at most one lease on each of the two pools.  A configuration and
a boundary take it, give it back or try again; nothing else that happens to a
terminal concerns the pools.  A pool stays in order when the leases on it are
counted with those of all other terminals, and a terminal that asked and went
without met a pool that was full.
-/

namespace MacScheduler

/-! ## One pool -/

def PucchKind.accepts : PucchKind → Nat → Bool
  | .sr => isSrPeriod
  | .cqi => isCqiPeriod

namespace PucchPool

variable {kind : PucchKind} {p : PucchPool} {held held' : List PucchLease}

/-- No slot takes another user. -/
def Full (p : PucchPool) : Prop := ∀ users ∈ p.occupancy, p.maxUsers ≤ users

/-- The leases held from a pool of its kind: every slot has as many users as there are leases on
it, within the bound. -/
structure Kept (kind : PucchKind) (p : PucchPool) (held : List PucchLease) : Prop where
  kind_eq : p.kind = kind
  accepts : kind.accepts p.defaultPeriod = true
  sound : PucchUse.Sound ⟨p, held⟩
  bounded : ∀ users ∈ p.occupancy, users ≤ p.maxUsers

theorem cqiIndexBase?_ne_none : ∀ period ∈ cqiPeriods, cqiIndexBase? period ≠ none := by decide

theorem configIdx?_ne_none {period : Nat} (h : p.kind.accepts period = true) (offset : Nat) :
    p.configIdx? period offset ≠ none := by
  unfold configIdx?
  cases hkind : p.kind with
  | sr =>
      rw [hkind] at h
      simp [show isSrPeriod period = true from h]
  | cqi =>
      rw [hkind] at h
      have hbase := cqiIndexBase?_ne_none period (List.contains_iff_mem.mp h)
      simp [show isCqiPeriod period = true from h, hbase]

namespace Kept

theorem perm (h : p.Kept kind held) (hperm : held.Perm held') : p.Kept kind held' where
  kind_eq := h.kind_eq
  accepts := h.accepts
  bounded := h.bounded
  sound :=
    { length_eq := h.sound.length_eq
      maxUsers_le := h.sound.maxUsers_le
      counted := fun slot users hslot ↦
        (hperm.countP_eq _).symm.trans (h.sound.counted slot users hslot)
      placed := fun l hl ↦ h.sound.placed l (hperm.mem_iff.mpr hl) }

theorem release {l : PucchLease} (h : p.Kept kind (l :: held)) : (p.release l).Kept kind held where
  kind_eq := h.kind_eq
  accepts := h.accepts
  sound := h.sound.perform (.giveBack 0)
  bounded := by
    intro users husers
    obtain ⟨slot, hslot⟩ := List.mem_iff_getElem?.mp husers
    rw [PucchPool.release, List.getElem?_modify] at hslot
    obtain ⟨n, hn, rfl⟩ := Option.map_eq_some_iff.mp hslot
    have hle := h.bounded n (List.mem_of_getElem? hn)
    change (if l.slot = slot then n - 1 else n) ≤ p.maxUsers
    split
    · omega
    · exact hle

/-- A lease is added, or the pool is full or does not know the period. -/
theorem lease (h : p.Kept kind held) (period : Nat) :
    ((kind.accepts period = true → p.Full) ∧ ∃ e, p.lease period = (.error e, p)) ∨
      ∃ l p', p.lease period = (.ok l, p') ∧ p'.Kept kind (l :: held) := by
  rcases p.lease_cases period with ⟨hwhy, hrefused⟩ | ⟨slot, users, base, hget, hlt, heq⟩
  · refine .inl ⟨fun hperiod ↦ hwhy.resolve_left ?_, hrefused⟩
    exact configIdx?_ne_none (h.kind_eq ▸ hperiod) 0
  · refine .inr ⟨_, _, heq, h.kind_eq, h.accepts, ?_, ?_⟩
    · have hsound := h.sound.perform (.lease period)
      simp only [PucchUse.perform, heq] at hsound
      have hperm := List.perm_append_singleton
        ⟨slot, p.resourceAt period slot users base⟩ held
      exact
        { length_eq := hsound.length_eq
          maxUsers_le := hsound.maxUsers_le
          counted := fun k n hk ↦ (hperm.countP_eq _).symm.trans (hsound.counted k n hk)
          placed := fun k hk ↦ hsound.placed k (hperm.mem_iff.mpr hk) }
    · intro n hn
      rcases List.mem_or_eq_of_mem_set hn with hn | rfl
      · exact h.bounded n hn
      · exact hlt

end Kept

theorem lease_of_full (h : p.Full) (period : Nat) : ∃ e, p.lease period = (.error e, p) := by
  rcases p.lease_cases period with ⟨-, hrefused⟩ | ⟨slot, users, base, hget, hlt, -⟩
  · exact hrefused
  · exact absurd hlt (Nat.not_lt.mpr (h users (List.mem_of_getElem? hget)))

end PucchPool

/-! ## One terminal -/

def PucchPools.pool (pools : PucchPools) : PucchKind → PucchPool
  | .sr => pools.sr
  | .cqi => pools.cqi

def TerminalConfig.period? (c : TerminalConfig) : PucchKind → Option Nat
  | .sr => c.srPeriod
  | .cqi => c.cqiPeriod

/-- The periods asked for are ones that the pools know. -/
def TerminalConfig.Periodic (c : TerminalConfig) : Prop :=
  ∀ kind, ∀ period ∈ c.period? kind, kind.accepts period = true

theorem TerminalConfig.periodic_of_check {c : TerminalConfig} {nofCells : Nat}
    (h : c.check nofCells = .ok ()) : c.Periodic := by
  unfold check at h
  split at h
  · cases h
  · split at h
    · cases h
    · cases h
    · cases h
    · rename_i hsr hcqi
      intro kind period hperiod
      cases kind with
      | sr =>
          by_contra hnot
          have hsome : c.srPeriod = some period := hperiod
          simp [hsome, PucchKind.accepts] at hsr hnot
          simp [hnot] at hsr
      | cqi =>
          by_contra hnot
          have hsome : c.cqiPeriod = some period := hperiod
          simp [hsome, PucchKind.accepts] at hcqi hnot
          simp [hnot] at hcqi

namespace Terminal

def lease? (t : Terminal) : PucchKind → Option PucchLease
  | .sr => t.srLease
  | .cqi => t.cqiLease

section Pool

variable {kind : PucchKind} {p : PucchPool} {old : Option PucchLease} {held : List PucchLease}

theorem kept_renew (h : p.Kept kind (old.toList ++ held)) (period : Option Nat) :
    (renew p period old).2.Kept kind ((renew p period old).1.toList ++ held) := by
  cases old with
  | some l => exact h
  | none =>
      rw [renew, tryLease]
      rcases h.lease (period.getD p.defaultPeriod) with ⟨-, e, heq⟩ | ⟨l, p', heq, hkept⟩
      · rw [heq]
        exact h
      · rw [heq]
        exact hkept

theorem full_renew (h : p.Kept kind (old.toList ++ held)) {period : Option Nat}
    (hperiod : ∀ n ∈ period, kind.accepts n = true) (hnone : (renew p period old).1 = none) :
    (renew p period old).2.Full := by
  cases old with
  | some l => cases hnone
  | none =>
      have haccepts : kind.accepts (period.getD p.defaultPeriod) = true := by
        cases period with
        | none => exact h.accepts
        | some n => exact hperiod n rfl
      rw [renew, tryLease] at hnone ⊢
      rcases h.lease (period.getD p.defaultPeriod) with ⟨hfull, e, heq⟩ | ⟨l, p', heq, -⟩
      · rw [heq]
        exact hfull haccepts
      · rw [heq] at hnone
        cases hnone

theorem renew_of_full (h : p.Full) (period : Option Nat) (old : Option PucchLease) :
    renew p period old = (old, p) := by
  cases old with
  | some l => rfl
  | none =>
      obtain ⟨e, heq⟩ := PucchPool.lease_of_full h (period.getD p.defaultPeriod)
      rw [renew, tryLease, heq]

theorem kept_giveBack (old : Option PucchLease) (h : p.Kept kind (old.toList ++ held)) :
    (giveBack p old).Kept kind held := by
  cases old with
  | none => exact h
  | some l => exact h.release

end Pool

variable {t t' : Terminal} {cells : List CellParams}

theorem kept_leave {kind : PucchKind} {pools : PucchPools} {held : List PucchLease}
    (h : (pools.pool kind).Kept kind ((t.lease? kind).toList ++ held)) :
    ((t.leave pools).pool kind).Kept kind held := by
  cases kind
  · exact kept_giveBack t.srLease h
  · exact kept_giveBack t.cqiLease h

/-- Nothing that concerns the pools is different. -/
structure SameLeases (t t' : Terminal) : Prop where
  rnti_eq : t'.rnti = t.rnti
  lastTti_eq : t'.lastTti = t.lastTti
  lease_eq : ∀ kind, t'.lease? kind = t.lease? kind
  period_eq : ∀ kind, t'.config.period? kind = t.config.period? kind

namespace SameLeases

theorem of_fields (hrnti : t'.rnti = t.rnti) (hlast : t'.lastTti = t.lastTti)
    (hsr : t'.srLease = t.srLease) (hcqi : t'.cqiLease = t.cqiLease)
    (hconfig : t'.config = t.config) : t.SameLeases t' where
  rnti_eq := hrnti
  lastTti_eq := hlast
  lease_eq := by
    intro kind
    cases kind
    · exact hsr
    · exact hcqi
  period_eq := fun kind ↦ by rw [hconfig]

theorem refl (t : Terminal) : t.SameLeases t := .of_fields rfl rfl rfl rfl rfl

theorem trans {t'' : Terminal} (h : t.SameLeases t') (h' : t'.SameLeases t'') :
    t.SameLeases t'' where
  rnti_eq := h'.rnti_eq.trans h.rnti_eq
  lastTti_eq := h'.lastTti_eq.trans h.lastTti_eq
  lease_eq := fun kind ↦ (h'.lease_eq kind).trans (h.lease_eq kind)
  period_eq := fun kind ↦ (h'.period_eq kind).trans (h.period_eq kind)

theorem periodic (h : t.SameLeases t') (hp : t.config.Periodic) : t'.config.Periodic := by
  intro kind period hperiod
  exact hp kind period (h.period_eq kind ▸ hperiod)

theorem updateLink (t : Terminal) (carrier : Nat) (f : Link → Link) :
    t.SameLeases (t.updateLink carrier f).2 := by
  unfold Terminal.updateLink
  split <;> exact .of_fields rfl rfl rfl rfl rfl

theorem perform (t : Terminal) (action : Action) : t.SameLeases (t.perform action).2 := by
  cases action with
  | configureBearer lcid b =>
      simp only [Terminal.perform, Terminal.configureBearer]
      split <;> exact ⟨rfl, rfl, fun kind ↦ by cases kind <;> rfl, fun kind ↦ by cases kind <;> rfl⟩
  | removeBearer lcid =>
      simp only [Terminal.perform, Terminal.removeBearer]
      split <;> exact ⟨rfl, rfl, fun kind ↦ by cases kind <;> rfl, fun kind ↦ by cases kind <;> rfl⟩
  | requestActivation carrier activate =>
      simp only [Terminal.perform, Terminal.requestActivation]
      split <;> exact .of_fields rfl rfl rfl rfl rfl
  | reportDownlink lcid fresh repeated =>
      rw [Terminal.perform, taken_snd]
      exact .of_fields rfl rfl rfl rfl rfl
  | pushCe ce => exact .of_fields rfl rfl rfl rfl rfl
  | reportUplink lcg bytes =>
      rw [Terminal.perform, taken_snd]
      exact .of_fields rfl rfl rfl rfl rfl
  | reportHeadroom headroom => exact .of_fields rfl rfl rfl rfl rfl
  | requestUplink => exact .of_fields rfl rfl rfl rfl rfl
  | reportChannel received carrier m => exact .updateLink t carrier (m.record received)
  | acknowledgeDownlink received carrier tb ack =>
      simp only [Terminal.perform, Terminal.acknowledgeDownlink]
      split
      · exact .refl t
      · split <;> exact .of_fields rfl rfl rfl rfl rfl
  | acknowledgeUplink received carrier ack =>
      simp only [Terminal.perform, Terminal.acknowledgeUplink]
      split
      · exact .refl t
      · split <;> exact .of_fields rfl rfl rfl rfl rfl
  | raisePower dir => cases dir <;> exact .of_fields rfl rfl rfl rfl rfl
  | lowerPower dir => cases dir <;> exact .of_fields rfl rfl rfl rfl rfl
  | editBuffer carrier pid tb edit =>
      change t.SameLeases (t.editBuffer carrier pid tb edit).2
      rcases t.editBuffer_cases carrier pid tb edit with heq | ⟨l, buffers, -, heq⟩ <;> rw [heq] <;>
        exact .of_fields rfl rfl rfl rfl rfl

theorem grantDownlink (t : Terminal) (tx : Tti) (carrier pid : Nat) (mask : RbgMask)
    (dci : DciLocation) : t.SameLeases (t.grantDownlink tx carrier pid mask dci).2 := by
  unfold Terminal.grantDownlink
  split
  · exact .refl t
  · split <;> split <;> exact .of_fields rfl rfl rfl rfl rfl

theorem grantUplink (t : Terminal) (tx : Tti) (carrier pid : Nat) (interval : PrbInterval)
    (dci : Option DciLocation) : t.SameLeases (t.grantUplink tx carrier pid interval dci).2 := by
  unfold Terminal.grantUplink
  split
  · exact .refl t
  · dsimp only
    split <;> split <;> exact .of_fields rfl rfl rfl rfl rfl

end SameLeases

/-! ## Boundaries and configurations -/

theorem newTti_clock (t : Terminal) (now : Tti) (pools : PucchPools) :
    (t.newTti now pools).1.config = t.config ∧ (t.newTti now pools).1.lastTti = some now := by
  by_cases hlast : t.lastTti = some now
  · rw [newTti, if_pos hlast]
    exact ⟨rfl, hlast⟩
  · rw [newTti, if_neg hlast]
    exact ⟨rfl, rfl⟩

/-- A boundary tries again for what is missing. -/
theorem newTti_leases {now : Tti} (hlast : t.lastTti ≠ some now) (pools : PucchPools)
    (kind : PucchKind) :
    ((t.newTti now pools).1.lease? kind, (t.newTti now pools).2.pool kind) =
      renew (pools.pool kind) (t.config.period? kind) (t.lease? kind) := by
  rw [newTti, if_neg hlast]
  cases kind <;> rfl

/-- The leases and the pools once a configuration is applied: a lease is kept while its period
is, and what is missing is tried for. -/
theorem apply_leases (t : Terminal) (cells : List CellParams) (c : TerminalConfig)
    (pools : PucchPools) :
    ((∃ e, (t.apply cells c pools).1 = .error e) ∧ (t.apply cells c pools).2.1.config = t.config ∧
        ∀ kind, (t.apply cells c pools).2.1.lease? kind = t.lease? kind ∧
          (t.apply cells c pools).2.2.pool kind = pools.pool kind) ∨
      (t.apply cells c pools).1 = .ok () ∧ (t.apply cells c pools).2.1.config = c ∧
        ∀ kind, ((t.apply cells c pools).2.1.lease? kind, (t.apply cells c pools).2.2.pool kind) =
          if t.config.period? kind = c.period? kind then
            renew (pools.pool kind) (c.period? kind) (t.lease? kind)
          else renew (giveBack (pools.pool kind) (t.lease? kind)) (c.period? kind) none := by
  unfold apply
  rcases t.placeLinks cells c 0 c.carriers with ⟨e | links, commands⟩
  · exact .inl ⟨⟨e, rfl⟩, rfl, fun kind ↦ by cases kind <;> exact ⟨rfl, rfl⟩⟩
  · dsimp only
    split
    · exact .inl ⟨⟨_, rfl⟩, rfl, fun kind ↦ by cases kind <;> exact ⟨rfl, rfl⟩⟩
    · refine .inr ⟨rfl, rfl, fun kind ↦ ?_⟩
      cases kind
      · by_cases hsame : t.config.srPeriod = c.srPeriod <;>
          simp [releaseChanged, retryLeases, TerminalConfig.period?, lease?, PucchPools.pool, hsame]
      · by_cases hsame : t.config.cqiPeriod = c.cqiPeriod <;>
          simp [releaseChanged, retryLeases, TerminalConfig.period?, lease?, PucchPools.pool, hsame]

theorem periodic_apply (cells : List CellParams) (h : t.config.Periodic) {c : TerminalConfig}
    (hc : c.Periodic) (pools : PucchPools) : (t.apply cells c pools).2.1.config.Periodic := by
  rcases t.apply_leases cells c pools with ⟨-, heq, -⟩ | ⟨-, heq, -⟩
  · rwa [heq]
  · rwa [heq]

theorem kept_apply {kind : PucchKind} {held : List PucchLease} {pools : PucchPools}
    (h : (pools.pool kind).Kept kind ((t.lease? kind).toList ++ held)) (c : TerminalConfig) :
    ((t.apply cells c pools).2.2.pool kind).Kept kind
      (((t.apply cells c pools).2.1.lease? kind).toList ++ held) := by
  rcases t.apply_leases cells c pools with ⟨-, -, hsame⟩ | ⟨-, -, hrenew⟩
  · rw [(hsame kind).1, (hsame kind).2]
    exact h
  · have heq := hrenew kind
    by_cases hperiod : t.config.period? kind = c.period? kind
    · rw [if_pos hperiod] at heq
      have hkept := kept_renew h (c.period? kind)
      rw [← heq] at hkept
      exact hkept
    · rw [if_neg hperiod] at heq
      have hgiven : (giveBack (pools.pool kind) (t.lease? kind)).Kept kind
          ((none : Option PucchLease).toList ++ held) := kept_giveBack _ h
      have hkept := kept_renew hgiven (c.period? kind)
      rw [← heq] at hkept
      exact hkept

/-- A refused terminal takes nothing with it; one that is created has yet to see a boundary. -/
theorem create_leases (rnti : Rnti) (c : TerminalConfig) (cells : List CellParams)
    (pools : PucchPools) :
    (∃ e pools', create rnti c cells pools = (.error e, pools') ∧
        ∀ kind held, (pools.pool kind).Kept kind held → (pools'.pool kind).Kept kind held) ∨
      ∃ t pools', create rnti c cells pools = (.ok t, pools') ∧ t.rnti = rnti ∧
        t.lastTti = none ∧ t.config.Periodic ∧ ∀ kind held, (pools.pool kind).Kept kind held →
          (pools'.pool kind).Kept kind ((t.lease? kind).toList ++ held) := by
  unfold create
  cases hcheck : c.check cells.length with
  | error e => exact .inl ⟨_, pools, rfl, fun _ _ hkept ↦ hkept⟩
  | ok _ =>
      have hc := TerminalConfig.periodic_of_check hcheck
      dsimp only
      generalize hblank : ({ rnti, config := { c with carriers := [] } } : Terminal) = blank
      have hperiodic : blank.config.Periodic := by
        intro kind
        cases kind
        · exact hblank ▸ hc .sr
        · exact hblank ▸ hc .cqi
      have hnone : ∀ kind, blank.lease? kind = none := by
        intro kind
        cases kind <;> exact hblank ▸ rfl
      have happlied := periodic_apply cells hperiodic hc pools
      have hkept : ∀ kind held, (pools.pool kind).Kept kind held →
          ((blank.apply cells c pools).2.2.pool kind).Kept kind
            (((blank.apply cells c pools).2.1.lease? kind).toList ++ held) := by
        intro kind held h
        refine kept_apply ?_ c
        rw [hnone]
        exact h
      obtain ⟨hrnti, hlast, -⟩ := blank.apply_links cells c pools
      generalize blank.apply cells c pools = result at happlied hkept hrnti hlast ⊢
      rcases result with ⟨e | _, t, pools'⟩
      · exact .inl ⟨e, _, rfl, fun kind held h ↦ kept_leave (hkept kind held h)⟩
      · refine .inr ⟨t, pools', rfl, hrnti.trans ?_, hlast.trans ?_, happlied, hkept⟩
        · rw [← hblank]
        · rw [← hblank]

end Terminal

end MacScheduler
