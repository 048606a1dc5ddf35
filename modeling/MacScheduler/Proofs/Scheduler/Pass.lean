import MacScheduler.Proofs.Scheduler.Plan
import MacScheduler.Proofs.Subframe.Outcome

/-!
# A pass over an orderly roster

Every terminal sends what the plan has for it, so what is sent together is apart
and the roster stays orderly.  The grants repeat what was due: uplink always, and
downlink unless the control region has no place left.
-/

namespace MacScheduler

namespace Terminal

/-- `t'` is `t` after its part of a pass on a carrier, which sends what `newDl` and `newUl`
say. -/
structure Sends (cells : List CellParams) (now : Tti) (carrier : Nat)
    (newDl : Nat → RbgMask → Prop) (newUl : Nat → PrbInterval → Prop) (t t' : Terminal) : Prop where
  rnti_eq : t'.rnti = t.rnti
  steady : t'.Steady cells now
  links : ∀ l' ∈ t'.links, ∃ l ∈ t.links, l'.params = l.params ∧
    (∀ pid sent a, l'.dl.Carries pid sent a →
      l.dl.Carries pid sent a ∨ l.carrier = carrier ∧ sent = now.downlinkTx ∧ newDl pid a) ∧
    (∀ pid sent a, l'.ul.Carries pid sent a →
      l.ul.Carries pid sent a ∨ l.carrier = carrier ∧ sent = now.uplinkTx ∧ newUl pid a) ∧
    (l.carrier ≠ carrier → l'.ul = l.ul)
  quiet : ∀ l' ∈ t'.links, l'.carrier = carrier → l'.ul.Quiet now.uplinkTx

variable {cells : List CellParams} {now : Tti} {carrier : Nat} {newDl : Nat → RbgMask → Prop}
  {newUl : Nat → PrbInterval → Prop} {t t' t'' : Terminal}

theorem SendsDownlink.sends (h : t.SendsDownlink cells now carrier newDl t')
    (h' : t'.SendsUplink cells now carrier newUl t'')
    (hquiet : ∀ l ∈ t''.links, l.carrier = carrier → l.ul.Quiet now.uplinkTx) :
    t.Sends cells now carrier newDl newUl t'' where
  rnti_eq := h'.rnti_eq.trans h.rnti_eq
  steady := h'.steady
  links := by
    intro l'' hl''
    obtain ⟨l', hl', hparams', hdl', hother, hulBack⟩ := h'.links l'' hl''
    obtain ⟨l, hl, hparams, hul, hdlBack⟩ := h.links l' hl'
    have hcarrier : l'.carrier = l.carrier := congrArg CellParams.index hparams
    refine ⟨l, hl, hparams'.trans hparams, ?_, ?_, fun hne ↦ ?_⟩
    · rw [hdl']
      exact hdlBack
    · rw [← hul, ← hcarrier]
      exact hulBack
    · exact (hother (hcarrier ▸ hne)).trans hul
  quiet := hquiet

end Terminal

/-- The plan has a downlink entry for the terminal on this process and these groups. -/
def SubframePlan.HasDl (plan : SubframePlan) (rnti : Rnti) (pid : Nat) (mask : RbgMask) : Prop :=
  ∃ d ∈ plan.dl, d.rnti = rnti ∧ d.pid = pid ∧ d.mask = mask

def SubframePlan.HasUl (plan : SubframePlan) (rnti : Rnti) (pid : Nat) (interval : PrbInterval) :
    Prop :=
  ∃ u ∈ plan.ul, u.rnti = rnti ∧ u.pid = pid ∧ u.interval = interval

namespace Roster

variable {cells : List CellParams} {now : Tti} {served quiet : Nat → Prop} {r r' : Roster}
  {carrier : Nat} {p : CellParams}

/-- What is in flight after a pass was in flight before, or is sent by it. -/
theorem flies_back {α : Type} {tab : Link → HarqTable α} {tx : Tti} {new : Rnti → Nat → α → Prop}
    (h : ∀ t' ∈ r', ∃ t ∈ r, t'.rnti = t.rnti ∧ ∀ l' ∈ t'.links, ∃ l ∈ t.links,
      l'.params = l.params ∧ ∀ pid sent a, (tab l').Carries pid sent a →
        (tab l).Carries pid sent a ∨ l.carrier = carrier ∧ sent = tx ∧ new t.rnti pid a)
    (c : Nat) (f : Flight α) (hf : r'.Flies tab c f) :
    r.Flies tab c f ∨ c = carrier ∧ f.sent = tx ∧ new f.rnti f.pid f.alloc := by
  obtain ⟨t', ht', hrnti', l', hl', rfl, hcarries⟩ := hf
  obtain ⟨t, ht, hrnti, hlinks⟩ := h t' ht'
  obtain ⟨l, hl, hparams, hlink⟩ := hlinks l' hl'
  have hlc : l'.carrier = l.carrier := congrArg CellParams.index hparams
  have hrnti : t.rnti = f.rnti := hrnti.symm.trans hrnti'
  rcases hlink f.pid f.sent f.alloc hcarries with hold | ⟨hc, hsent, hnew⟩
  · exact .inl ⟨t, ht, hrnti, l, hl, hlc.symm, hold⟩
  · exact .inr ⟨hlc.trans hc, hsent, hrnti ▸ hnew⟩

section

variable {newDl : Rnti → Nat → RbgMask → Prop} {newUl : Rnti → Nat → PrbInterval → Prop}
  (hback : ∀ t' ∈ r', ∃ t ∈ r, t.Sends cells now carrier (newDl t.rnti) (newUl t.rnti) t')

include hback

theorem flies_dl_of_sends (c : Nat) (f : Flight RbgMask) (hf : r'.Flies Link.dl c f) :
    r.Flies Link.dl c f ∨ c = carrier ∧ f.sent = now.downlinkTx ∧ newDl f.rnti f.pid f.alloc := by
  refine flies_back (fun t' ht' ↦ ?_) c f hf
  obtain ⟨t, ht, hsends⟩ := hback t' ht'
  refine ⟨t, ht, hsends.rnti_eq, fun l' hl' ↦ ?_⟩
  obtain ⟨l, hl, hparams, hdlLink, -⟩ := hsends.links l' hl'
  exact ⟨l, hl, hparams, hdlLink⟩

theorem flies_ul_of_sends (c : Nat) (f : Flight PrbInterval) (hf : r'.Flies Link.ul c f) :
    r.Flies Link.ul c f ∨ c = carrier ∧ f.sent = now.uplinkTx ∧ newUl f.rnti f.pid f.alloc := by
  refine flies_back (fun t' ht' ↦ ?_) c f hf
  obtain ⟨t, ht, hsends⟩ := hback t' ht'
  refine ⟨t, ht, hsends.rnti_eq, fun l' hl' ↦ ?_⟩
  obtain ⟨l, hl, hparams, -, hulLink, -⟩ := hsends.links l' hl'
  exact ⟨l, hl, hparams, hulLink⟩

end

/-- A pass leaves nothing due on its own carrier, and changes no uplink table of another. -/
theorem quiet_of_sends (hquiet : ∀ c, quiet c → r.Quiet now c)
    (hback : ∀ t' ∈ r', ∃ t ∈ r, ∃ newDl newUl, t.Sends cells now carrier newDl newUl t') (c : Nat)
    (hc : c = carrier ∨ quiet c) : r'.Quiet now c := by
  intro t' ht' l' hl' hlc'
  obtain ⟨t, ht, _, _, hsends⟩ := hback t' ht'
  by_cases hce : c = carrier
  · exact hsends.quiet l' hl' (hlc'.trans hce)
  · obtain ⟨l, hl, hparams, -, -, hother⟩ := hsends.links l' hl'
    have hlc : l'.carrier = l.carrier := congrArg CellParams.index hparams
    rw [hother fun heq ↦ hce (hlc'.symm.trans (hlc.trans heq))]
    exact hquiet c (hc.resolve_left hce) t ht l hl (hlc.symm.trans hlc')

/-- The roster after a pass that sends what is apart. -/
theorem Orderly.of_sends (h : r.Orderly cells now now served quiet) (hcarrier : ¬served carrier)
    (newDl : Rnti → Nat → RbgMask → Prop) (newUl : Rnti → Nat → PrbInterval → Prop)
    (hp : cells[carrier]? = some p) (hrntis : (r'.map (·.rnti)).Nodup)
    (hback : ∀ t' ∈ r', ∃ t ∈ r, t.Sends cells now carrier (newDl t.rnti) (newUl t.rnti) t')
    (hdl : ∀ f g : Flight RbgMask, f.sent = g.sent → newDl f.rnti f.pid f.alloc →
      newDl g.rnti g.pid g.alloc → f = g ∨ f.rnti ≠ g.rnti ∧ f.alloc.overlaps g.alloc = false)
    (hul : ∀ f g : Flight PrbInterval, f.sent = g.sent → newUl f.rnti f.pid f.alloc →
      newUl g.rnti g.pid g.alloc → f = g ∨ f.rnti ≠ g.rnti ∧ f.alloc.overlaps g.alloc = false)
    (hinside : ∀ rnti pid a, newUl rnti pid a → a.isEmpty = false ∧ a.Within p.puschRegion) :
    r'.Orderly cells now now (fun c ↦ c = carrier ∨ served c) (fun c ↦ c = carrier ∨ quiet c) := by
  have hdlBack := flies_dl_of_sends hback
  have hulBack := flies_ul_of_sends hback
  refine ⟨hrntis, ?_, ?_, ?_, ?_, ?_, ?_, ?_⟩
  · intro t' ht'
    obtain ⟨t, -, hsends⟩ := hback t' ht'
    exact hsends.steady
  · exact Separate.send h.dl (h.dl_fresh carrier hcarrier) hdl hdlBack
  · exact Separate.send h.ul (h.ul_fresh carrier hcarrier) hul hulBack
  · intro c q hq f hf
    rcases hulBack c f hf with hold | ⟨rfl, -, hnew⟩
    · exact h.ul_inside c q hq f hold
    · obtain rfl := Option.some.inj (hp.symm.trans hq)
      exact hinside _ _ _ hnew
  · intro c hc f hf
    rcases hdlBack c f hf with hold | ⟨hnew, -⟩
    · exact h.dl_fresh c (fun hs ↦ hc (.inr hs)) f hold
    · exact (hc (.inl hnew)).elim
  · intro c hc f hf
    rcases hulBack c f hf with hold | ⟨hnew, -⟩
    · exact h.ul_fresh c (fun hs ↦ hc (.inr hs)) f hold
    · exact (hc (.inl hnew)).elim
  · exact quiet_of_sends h.quiet fun t' ht' ↦ by
      obtain ⟨t, ht, hsends⟩ := hback t' ht'
      exact ⟨t, ht, _, _, hsends⟩

end Roster

namespace CarrierPass

variable {cells : List CellParams} {now : Tti} {served quiet : Nat → Prop} {r : Roster}
  {carrier : Nat} {p : CellParams} {order : Direction → List Candidate → List Candidate}
  {t t' : Terminal}

/-! ## What each terminal sends -/

theorem sends_grantDl (h : t.Steady cells now) (carrier : Nat) (plans : List DlPlan) :
    t.SendsDownlink cells now carrier
      (fun pid a ↦ ∃ d ∈ plans, d.rnti = t.rnti ∧ d.pid = pid ∧ d.mask = a)
      (committed DlPlan.rnti (grantDl now.downlinkTx carrier) plans t) := by
  rcases committed_cases DlPlan.rnti (grantDl now.downlinkTx carrier) plans t with
    ⟨heq, -⟩ | ⟨d, hd, hrnti, heq⟩
  · rw [heq]
    exact .refl h _
  · rw [heq]
    apply ((t.grantDownlink_spec now.downlinkTx carrier d.pid d.mask d.dci).sends h).mono
    rintro pid mask ⟨rfl, rfl⟩
    exact ⟨d, hd, hrnti, rfl, rfl⟩

theorem sends_grantUl (h : t.Steady cells now) (carrier : Nat) (plans : List UlPlan) :
    t.SendsUplink cells now carrier
      (fun pid a ↦ ∃ u ∈ plans, u.rnti = t.rnti ∧ u.pid = pid ∧ u.interval = a)
      (committed UlPlan.rnti (grantUl now.uplinkTx carrier) plans t) := by
  rcases committed_cases UlPlan.rnti (grantUl now.uplinkTx carrier) plans t with
    ⟨heq, -⟩ | ⟨u, hu, hrnti, heq⟩
  · rw [heq]
    exact .refl h _
  · rw [heq]
    apply ((t.grantUplink_spec now.uplinkTx carrier u.pid u.interval u.dci).sends h).mono
    rintro pid interval ⟨rfl, rfl⟩
    exact ⟨u, hu, hrnti, rfl, rfl⟩

/-- Where every uplink retransmission that is due is planned, none is due after the pass. -/
theorem quiet_grantUl (h : t.Steady cells now) {plans : List UlPlan}
    (hnodup : (plans.map (·.rnti)).Nodup)
    (hplanned : ∀ l ∈ t.links, l.carrier = carrier → ∀ q ∈ l.ul.procs,
      q.hasPendingRetx now.uplinkTx = true →
      ∃ a, q.alloc = some a ∧ (⟨t.rnti, q.pid, a, none⟩ : UlPlan) ∈ plans) :
    ∀ l ∈ (committed UlPlan.rnti (grantUl now.uplinkTx carrier) plans t).links,
      l.carrier = carrier → l.ul.Quiet now.uplinkTx := by
  intro l' hl' hcarrier'
  rcases committed_cases UlPlan.rnti (grantUl now.uplinkTx carrier) plans t with
    ⟨heq, hnone⟩ | ⟨u, hu, hrnti, heq⟩
  · rw [heq] at hl'
    intro q hq
    by_contra hdue
    obtain ⟨a, -, hmem⟩ := hplanned l' hl' hcarrier' q hq (by simpa using hdue)
    exact hnone _ hmem rfl
  · -- the entry of the terminal is the retransmission that is due
    obtain ⟨l, hl, hparams, -⟩ := (sends_grantUl h carrier plans).links l' hl'
    have hlc : l'.carrier = l.carrier := congrArg CellParams.index hparams
    rw [heq, ← hcarrier', hlc] at hl'
    refine h.quiet_grantUplink hl u.dci (fun q hq hdue ↦ ?_) l' hl' hlc
    obtain ⟨a, halloc, hmem⟩ := hplanned l hl (hlc.symm.trans hcarrier') q hq hdue
    obtain rfl := List.inj_on_of_nodup_map hnodup hmem hu hrnti.symm
    exact ⟨rfl, halloc⟩

/-! ## The roster after a pass -/

def afterPass (now : Tti) (carrier : Nat) (plan : SubframePlan) (r : Roster) : Roster :=
  (r.map (committed DlPlan.rnti (grantDl now.downlinkTx carrier) plan.dl)).map
    (committed UlPlan.rnti (grantUl now.uplinkTx carrier) plan.ul)

theorem mem_afterPass {plan : SubframePlan} (ht' : t' ∈ afterPass now carrier plan r) :
    ∃ t ∈ r, t' = committed UlPlan.rnti (grantUl now.uplinkTx carrier) plan.ul
      (committed DlPlan.rnti (grantDl now.downlinkTx carrier) plan.dl t) := by
  obtain ⟨t₁, ht₁, rfl⟩ := List.mem_map.mp ht'
  obtain ⟨t, ht, rfl⟩ := List.mem_map.mp ht₁
  exact ⟨t, ht, rfl⟩

theorem apart_of_plan {π α : Type} {rnti : π → Rnti} {pid : π → Nat} {alloc : π → α}
    {overlaps : α → α → Bool} {plans : List π} (hrntis : (plans.map rnti).Nodup)
    (hcomm : ∀ a b, overlaps a b = overlaps b a)
    (hpairs : plans.Pairwise fun a b ↦ overlaps (alloc a) (alloc b) = false) (f g : Flight α)
    (hsent : f.sent = g.sent)
    (hf : ∃ d ∈ plans, rnti d = f.rnti ∧ pid d = f.pid ∧ alloc d = f.alloc)
    (hg : ∃ d ∈ plans, rnti d = g.rnti ∧ pid d = g.pid ∧ alloc d = g.alloc) :
    f = g ∨ f.rnti ≠ g.rnti ∧ overlaps f.alloc g.alloc = false := by
  obtain ⟨d, hd, hdr, hdp, hda⟩ := hf
  obtain ⟨e, he, her, hep, hea⟩ := hg
  by_cases hde : d = e
  · subst hde
    left
    cases f
    cases g
    simp_all
  · right
    have hsymm : Std.Symm fun a b : π ↦ overlaps (alloc a) (alloc b) = false :=
      ⟨fun a b hab ↦ (hcomm _ _).trans hab⟩
    rw [← hdr, ← her, ← hda, ← hea]
    exact ⟨fun heq ↦ hde (List.inj_on_of_nodup_map hrntis hd he heq), hpairs.forall hd he hde⟩

/-- Terminals send what the plan has for them. -/
theorem sends_afterPass (h : r.Orderly cells now now served quiet)
    (hcells : CellParams.Listed cells) (hp : cells[carrier]? = some p)
    (horder : ∀ dir cs, (order dir cs).Perm cs) {plan : SubframePlan}
    (hplan : SubframePlan.make p order (r.snapshots now carrier) = plan) :
    ∀ t' ∈ afterPass now carrier plan r, ∃ t ∈ r, t.Sends cells now carrier
      (plan.HasDl t.rnti) (plan.HasUl t.rnti) t' := by
  intro t' ht'
  obtain ⟨t, ht, rfl⟩ := mem_afterPass ht'
  refine ⟨t, ht, ?_⟩
  have hulRntis : (plan.ul.map (·.rnti)).Nodup :=
    hplan ▸ Roster.nodup_plan_ul h.rntis (hcells.nofPrb_le hp) horder now carrier
  have hdl := sends_grantDl (h.steady t ht) carrier plan.dl
  have hul := sends_grantUl hdl.steady carrier plan.ul
  rw [hdl.rnti_eq] at hul
  refine hdl.sends hul (quiet_grantUl hdl.steady hulRntis fun l' hl' hcarrier' q hq hdue ↦ ?_)
  -- the uplink tables are those from before the downlink grants
  obtain ⟨l, hl, hparams, hulEq, -⟩ := hdl.links l' hl'
  have hlc : l'.carrier = l.carrier := congrArg CellParams.index hparams
  rw [hulEq] at hq
  rw [hdl.rnti_eq, ← hplan]
  exact h.mem_plan_ul_of_due hcells hp order
    ⟨t, ht, rfl, l, hl, hlc.symm.trans hcarrier', hq, hdue⟩

theorem orderly_afterPass (h : r.Orderly cells now now served quiet)
    (hcells : CellParams.Listed cells) (hp : cells[carrier]? = some p)
    (horder : ∀ dir cs, (order dir cs).Perm cs) (hcarrier : ¬served carrier) :
    (afterPass now carrier (SubframePlan.make p order (r.snapshots now carrier)) r).Orderly cells
      now now (fun c ↦ c = carrier ∨ served c) (fun c ↦ c = carrier ∨ quiet c) := by
  have hprb := hcells.nofPrb_le hp
  have hcounted := h.counted hcells hp
  have hdlRntis := Roster.nodup_plan_dl h.rntis hprb horder now carrier
  have hulRntis := Roster.nodup_plan_ul h.rntis hprb horder now carrier
  generalize hplan : SubframePlan.make p order (r.snapshots now carrier) = plan
  rw [hplan] at hdlRntis hulRntis
  have hdlApart : plan.dl.Pairwise fun a b ↦ a.mask.overlaps b.mask = false :=
    hplan ▸ SubframePlan.make_dl_disjoint order _ hprb
  have hulApart : plan.ul.Pairwise fun a b ↦ a.interval.overlaps b.interval = false :=
    hplan ▸ SubframePlan.make_ul_disjoint order _ hprb hcounted
  have hsends := sends_afterPass h hcells hp horder hplan
  refine h.of_sends hcarrier plan.HasDl plan.HasUl hp ?_ hsends
    (apart_of_plan hdlRntis RbgMask.overlaps_comm hdlApart)
    (apart_of_plan hulRntis PrbInterval.overlaps_comm hulApart) ?_
  · rw [afterPass, rntis_map_committed (rnti_grantUl now.uplinkTx carrier),
      rntis_map_committed (rnti_grantDl now.downlinkTx carrier)]
    exact h.rntis
  · rintro rnti pid a ⟨u, hu, -, -, rfl⟩
    have hnonempty : ∀ s ∈ r.snapshots now carrier, ∀ q, s.ulRetx = some q →
        q.alloc.isEmpty = false := fun s hs q hq ↦ (h.ulRetx_inside hcells hp hs hq).1
    rw [← hplan] at hu
    exact ⟨PrbInterval.not_isEmpty_iff.mpr
        (SubframePlan.make_ul_nonempty order _ hprb hnonempty u hu),
      SubframePlan.make_ul_inside order _ hprb hcounted hnonempty u hu⟩

end CarrierPass

end MacScheduler
