import Mathlib.Data.List.Pairwise
import MacScheduler.Proofs.Grid.Prb
import MacScheduler.Proofs.Terminal.Send
import MacScheduler.Terminal.Roster

/-!
# Transmissions in flight

Seen from a carrier, the terminals of a roster have transmissions in flight, each
sent at one point of the clock on one allocation.  Those sent together are for
different terminals and share no resource, so what falls due together, one round
trip later, shares none either.
-/

namespace MacScheduler

/-- A transmission whose blocks are not resolved. -/
structure Flight (α : Type) where
  rnti : Rnti
  pid : Nat
  sent : Tti
  alloc : α

namespace Roster

variable {α : Type} {tab : Link → HarqTable α} {overlaps : α → α → Bool} {r r' : Roster}
  {carrier : Nat}

/-- A terminal of the roster has the transmission in flight on a carrier. -/
def Flies (tab : Link → HarqTable α) (r : Roster) (carrier : Nat) (f : Flight α) : Prop :=
  ∃ t ∈ r, t.rnti = f.rnti ∧
    ∃ l ∈ t.links, l.carrier = carrier ∧ (tab l).Carries f.pid f.sent f.alloc

/-- What was sent together on a carrier is for different terminals and shares no resource. -/
def Separate (tab : Link → HarqTable α) (overlaps : α → α → Bool) (r : Roster) (carrier : Nat) :
    Prop :=
  ∀ f g, r.Flies tab carrier f → r.Flies tab carrier g → f.sent = g.sent →
    f = g ∨ f.rnti ≠ g.rnti ∧ overlaps f.alloc g.alloc = false

/-- Every link of `r'` holds nothing, or what is left of a link of `r`. -/
def Fades (tab : Link → HarqTable α) (r r' : Roster) : Prop :=
  ∀ t' ∈ r', ∀ l' ∈ t'.links, (tab l').Blank ∨
    ∃ t ∈ r, t.rnti = t'.rnti ∧ ∃ l ∈ t.links, l.carrier = l'.carrier ∧ (tab l).Wanes (tab l')

theorem Fades.flies (h : r.Fades tab r') {f : Flight α} (hf : r'.Flies tab carrier f) :
    r.Flies tab carrier f := by
  obtain ⟨t', ht', hrnti', l', hl', hcarrier', hcarries⟩ := hf
  rcases h t' ht' l' hl' with hblank | ⟨t, ht, hrnti, l, hl, hcarrier, hwanes⟩
  · exact (hblank.not_carries hcarries).elim
  · exact ⟨t, ht, hrnti.trans hrnti', l, hl, hcarrier.trans hcarrier', hwanes.carries hcarries⟩

theorem Fades.separate (h : r.Fades tab r') (hs : r.Separate tab overlaps carrier) :
    r'.Separate tab overlaps carrier :=
  fun f g hf hg ↦ hs f g (h.flies hf) (h.flies hg)

/-- What is sent on a carrier where nothing was sent at this point yet stays apart, if it is
apart itself. -/
theorem Separate.send (hs : ∀ c, r.Separate tab overlaps c) {tx : Tti}
    (hfresh : ∀ f, r.Flies tab carrier f → f.sent ≠ tx) {new : Rnti → Nat → α → Prop}
    (hnew : ∀ f g : Flight α, f.sent = g.sent → new f.rnti f.pid f.alloc →
      new g.rnti g.pid g.alloc → f = g ∨ f.rnti ≠ g.rnti ∧ overlaps f.alloc g.alloc = false)
    (hback : ∀ c f, r'.Flies tab c f →
      r.Flies tab c f ∨ c = carrier ∧ f.sent = tx ∧ new f.rnti f.pid f.alloc) :
    ∀ c, r'.Separate tab overlaps c := by
  intro c f g hf hg hsent
  rcases hback c f hf with hf | ⟨rfl, hfsent, hf⟩
  · rcases hback c g hg with hg | ⟨rfl, hgsent, -⟩
    · exact hs c f g hf hg hsent
    · exact (hfresh f hf (hsent.trans hgsent)).elim
  · rcases hback c g hg with hg | ⟨-, -, hg⟩
    · exact (hfresh g hg (hsent.symm.trans hfsent)).elim
    · exact hnew f g hsent hf hg

/-! ## What is due -/

/-- A terminal of the roster has the retransmission of a process due at `tx` on a carrier. -/
def Due (tab : Link → HarqTable α) (r : Roster) (carrier : Nat) (tx : Tti) (rnti : Rnti)
    (p : HarqProcess α) : Prop :=
  ∃ t ∈ r, t.rnti = rnti ∧
    ∃ l ∈ t.links, l.carrier = carrier ∧ p ∈ (tab l).procs ∧ p.hasPendingRetx tx = true

def Keeps (tab : Link → HarqTable α) (r : Roster) (carrier roundTrip : Nat) (tx : Tti) : Prop :=
  ∀ t ∈ r, ∀ l ∈ t.links, l.carrier = carrier → (tab l).Steady roundTrip tx

variable {roundTrip : Nat} {tx : Tti}

theorem flies_of_busy {t : Terminal} (ht : t ∈ r) {l : Link} (hl : l ∈ t.links)
    (hsteady : (tab l).Steady roundTrip tx) {p : HarqProcess α} (hp : p ∈ (tab l).procs)
    (hbusy : p.isEmpty = false) :
    ∃ sent alloc, p.txTti = some sent ∧ r.Flies tab l.carrier ⟨t.rnti, p.pid, sent, alloc⟩ := by
  obtain ⟨sent, alloc, hsent, -, hcarries⟩ := hsteady.carries_of_busy hp hbusy
  exact ⟨sent, alloc, hsent, t, ht, rfl, l, hl, rfl, hcarries⟩

/-- What is due is a transmission in flight, sent one round trip ago. -/
theorem Keeps.flight (h : r.Keeps tab carrier roundTrip tx) (hr : roundTrip ≤ 16) {rnti : Rnti}
    {p : HarqProcess α} (hdue : r.Due tab carrier tx rnti p) :
    ∃ f : Flight α, r.Flies tab carrier f ∧ f.rnti = rnti ∧ f.pid = p.pid ∧
      p.alloc = some f.alloc ∧ tx = f.sent + roundTrip := by
  obtain ⟨t, ht, hrnti, l, hl, hcarrier, hp, hdue⟩ := hdue
  obtain ⟨sent, alloc, halloc, hcarries, hsent⟩ :=
    (h t ht l hl hcarrier).carries_of_due hr hp hdue
  exact ⟨⟨rnti, p.pid, sent, alloc⟩, ⟨t, ht, hrnti, l, hl, hcarrier, hcarries⟩, rfl, rfl, halloc,
    hsent⟩

/-- What falls due together was sent together, so it shares no resource. -/
theorem Keeps.due_apart (h : r.Keeps tab carrier roundTrip tx) (hr : roundTrip ≤ 16)
    (hs : r.Separate tab overlaps carrier) {rnti rnti' : Rnti} {p p' : HarqProcess α}
    (hdue : r.Due tab carrier tx rnti p) (hdue' : r.Due tab carrier tx rnti' p') :
    rnti = rnti' ∧ p.pid = p'.pid ∨
      rnti ≠ rnti' ∧ ∀ a b, p.alloc = some a → p'.alloc = some b → overlaps a b = false := by
  obtain ⟨f, hf, rfl, hpid, halloc, hsent⟩ := h.flight hr hdue
  obtain ⟨g, hg, rfl, hpid', halloc', hsent'⟩ := h.flight hr hdue'
  rcases hs f g hf hg (Tti.add_right_cancel (hsent.symm.trans hsent')) with rfl | ⟨hne, hover⟩
  · exact .inl ⟨rfl, hpid.symm.trans hpid'⟩
  · refine .inr ⟨hne, fun a b ha hb ↦ ?_⟩
    rw [Option.some.inj (ha.symm.trans halloc), Option.some.inj (hb.symm.trans halloc')]
    exact hover

/-- A steady terminal has at most one retransmission due on a carrier. -/
theorem Keeps.only_due (h : r.Keeps tab carrier roundTrip tx) (hr : roundTrip ≤ 16)
    (hs : r.Separate tab overlaps carrier) {t : Terminal} (ht : t ∈ r) {l : Link}
    (hl : l ∈ t.links) (hcarrier : l.carrier = carrier) {p : HarqProcess α} (hp : p ∈ (tab l).procs)
    (hdue : p.hasPendingRetx tx = true) :
    ∀ q ∈ (tab l).procs, q.hasPendingRetx tx = true → q.pid = p.pid := by
  intro q hq hqdue
  rcases h.due_apart hr hs ⟨t, ht, rfl, l, hl, hcarrier, hq, hqdue⟩
    ⟨t, ht, rfl, l, hl, hcarrier, hp, hdue⟩ with ⟨-, hpid⟩ | ⟨hne, -⟩
  · exact hpid
  · exact (hne rfl).elim

/-! ## Rosters between transmissions -/

/-- `r'` is `r` at the same point of the clock, with terminals changed, added or removed and
nothing sent. -/
structure Eased (cells : List CellParams) (now : Tti) (r r' : Roster) : Prop where
  rntis : (r'.map (·.rnti)).Nodup
  back : ∀ t' ∈ r', (t'.Steady cells now ∧ ∀ l ∈ t'.links, l.Blank) ∨
    ∃ t ∈ r, t.Eases cells now t'

/-- `r'` is `r` after the boundary `d` subframes later. -/
structure Passed (cells : List CellParams) (now : Tti) (d : Nat) (r r' : Roster) : Prop where
  rntis : (r'.map (·.rnti)).Nodup
  back : ∀ t' ∈ r', ∃ t ∈ r, t.Passes cells now d t'

section

variable {cells : List CellParams} {now : Tti} {d : Nat}

namespace Eased

theorem steady (h : r.Eased cells now r') : ∀ t ∈ r', t.Steady cells now := by
  intro t' ht'
  rcases h.back t' ht' with ⟨hsteady, -⟩ | ⟨t, -, hease⟩
  · exact hsteady
  · exact hease.steady

theorem links (h : r.Eased cells now r') : ∀ t' ∈ r', ∀ l' ∈ t'.links, l'.Blank ∨
    ∃ t ∈ r, t.rnti = t'.rnti ∧ ∃ l ∈ t.links, l.Eases now l' := by
  intro t' ht' l' hl'
  rcases h.back t' ht' with ⟨-, hblank⟩ | ⟨t, ht, hease⟩
  · exact .inl (hblank l' hl')
  · rcases hease.links l' hl' with hblank | ⟨l, hl, hll'⟩
    · exact .inl hblank
    · exact .inr ⟨t, ht, hease.rnti_eq.symm, l, hl, hll'⟩

theorem fades_dl (h : r.Eased cells now r') : r.Fades Link.dl r' := by
  intro t' ht' l' hl'
  rcases h.links t' ht' l' hl' with hblank | ⟨t, ht, hrnti, l, hl, hease⟩
  · exact .inl hblank.1
  · exact .inr ⟨t, ht, hrnti, l, hl, hease.wanes.carrier_eq.symm, hease.wanes.dl⟩

theorem fades_ul (h : r.Eased cells now r') : r.Fades Link.ul r' := by
  intro t' ht' l' hl'
  rcases h.links t' ht' l' hl' with hblank | ⟨t, ht, hrnti, l, hl, hease⟩
  · exact .inl hblank.2
  · exact .inr ⟨t, ht, hrnti, l, hl, hease.wanes.carrier_eq.symm, hease.wanes.ul⟩

end Eased

namespace Passed

theorem steady (h : r.Passed cells now d r') : ∀ t ∈ r', t.Steady cells (now + d) := by
  intro t' ht'
  obtain ⟨t, -, hpass⟩ := h.back t' ht'
  exact hpass.steady

theorem links (h : r.Passed cells now d r') : ∀ t' ∈ r', ∀ l' ∈ t'.links,
    ∃ t ∈ r, t.rnti = t'.rnti ∧ ∃ l ∈ t.links,
      l.Wanes l' ∧ (d = 0 → l.ul.Quiet now.uplinkTx → l'.ul.Quiet now.uplinkTx) := by
  intro t' ht' l' hl'
  obtain ⟨t, ht, hpass⟩ := h.back t' ht'
  exact ⟨t, ht, hpass.rnti_eq.symm, hpass.links l' hl'⟩

theorem fades_dl (h : r.Passed cells now d r') : r.Fades Link.dl r' := by
  intro t' ht' l' hl'
  obtain ⟨t, ht, hrnti, l, hl, hwanes, -⟩ := h.links t' ht' l' hl'
  exact .inr ⟨t, ht, hrnti, l, hl, hwanes.carrier_eq.symm, hwanes.dl⟩

theorem fades_ul (h : r.Passed cells now d r') : r.Fades Link.ul r' := by
  intro t' ht' l' hl'
  obtain ⟨t, ht, hrnti, l, hl, hwanes, -⟩ := h.links t' ht' l' hl'
  exact .inr ⟨t, ht, hrnti, l, hl, hwanes.carrier_eq.symm, hwanes.ul⟩

end Passed

end

/-! ## Rosters between and within rounds -/

/-- No uplink retransmission is due on a carrier at reception point `now`. -/
def Quiet (r : Roster) (now : Tti) (carrier : Nat) : Prop :=
  ∀ t ∈ r, ∀ l ∈ t.links, l.carrier = carrier → l.ul.Quiet now.uplinkTx

/-- The roster kept pace up to reception point `now`, while the carriers in `served` have
been granted already at reception point `next`: what is in flight on a carrier is apart,
nothing is sent at `next` by the other carriers yet, and nothing is due any more on those
in `quiet`. -/
structure Orderly (cells : List CellParams) (now next : Tti) (served quiet : Nat → Prop)
    (r : Roster) : Prop where
  rntis : (r.map (·.rnti)).Nodup
  steady : ∀ t ∈ r, t.Steady cells now
  dl : ∀ c, r.Separate Link.dl RbgMask.overlaps c
  ul : ∀ c, r.Separate Link.ul PrbInterval.overlaps c
  ul_inside : ∀ (c : Nat) (p : CellParams), cells[c]? = some p → ∀ f, r.Flies Link.ul c f →
    f.alloc.isEmpty = false ∧ f.alloc.Within p.puschRegion
  dl_fresh : ∀ c, ¬served c → ∀ f, r.Flies Link.dl c f → f.sent ≠ next.downlinkTx
  ul_fresh : ∀ c, ¬served c → ∀ f, r.Flies Link.ul c f → f.sent ≠ next.uplinkTx
  quiet : ∀ c, quiet c → r.Quiet now c

variable {cells : List CellParams} {now next : Tti} {served quiet : Nat → Prop}

namespace Orderly

theorem nil (cells : List CellParams) (now next : Tti) (served quiet : Nat → Prop) :
    Orderly cells now next served quiet [] := by
  refine ⟨List.nodup_nil, by simp, ?_, ?_, ?_, ?_, ?_, ?_⟩ <;>
    simp [Separate, Flies, Roster.Quiet]

theorem of_fades {now' : Tti} {quiet' : Nat → Prop} (h : r.Orderly cells now next served quiet)
    (hrntis : (r'.map (·.rnti)).Nodup) (hsteady : ∀ t ∈ r', t.Steady cells now')
    (hdl : r.Fades Link.dl r') (hul : r.Fades Link.ul r')
    (hquiet : ∀ c, quiet' c → r'.Quiet now' c) :
    r'.Orderly cells now' next served quiet' where
  rntis := hrntis
  steady := hsteady
  dl := fun c ↦ hdl.separate (h.dl c)
  ul := fun c ↦ hul.separate (h.ul c)
  ul_inside := fun c p hp f hf ↦ h.ul_inside c p hp f (hul.flies hf)
  dl_fresh := fun c hc f hf ↦ h.dl_fresh c hc f (hdl.flies hf)
  ul_fresh := fun c hc f hf ↦ h.ul_fresh c hc f (hul.flies hf)
  quiet := hquiet

theorem of_eased (h : r.Orderly cells now next served quiet) (he : r.Eased cells now r') :
    r'.Orderly cells now next served quiet := by
  apply h.of_fades he.rntis he.steady he.fades_dl he.fades_ul
  intro c hc t' ht' l' hl' hcarrier
  rcases he.links t' ht' l' hl' with hblank | ⟨t, ht, -, l, hl, hease⟩
  · exact hblank.2.quiet now.uplinkTx
  · exact hease.quiet (h.quiet c hc t ht l hl (hease.wanes.carrier_eq.symm.trans hcarrier))

theorem of_passed {d : Nat} (h : r.Orderly cells now next served quiet)
    (hp : r.Passed cells now d r') :
    r'.Orderly cells (now + d) next served fun c ↦ d = 0 ∧ quiet c := by
  apply h.of_fades hp.rntis hp.steady hp.fades_dl hp.fades_ul
  rintro c ⟨rfl, hc⟩ t' ht' l' hl' hcarrier
  obtain ⟨t, ht, -, l, hl, hwanes, hquiet⟩ := hp.links t' ht' l' hl'
  rw [Tti.add_zero]
  exact hquiet rfl (h.quiet c hc t ht l hl (hwanes.carrier_eq.symm.trans hcarrier))

theorem keeps_dl (h : r.Orderly cells now next served quiet) {p : CellParams}
    (hp : cells[carrier]? = some p) :
    r.Keeps Link.dl carrier p.harq.roundTrip now.downlinkTx := by
  intro t ht l hl hcarrier
  have hparams := (h.steady t ht).params l hl
  rw [hcarrier, hp] at hparams
  exact Option.some.inj hparams ▸ ((h.steady t ht).links l hl).dl

theorem keeps_ul (h : r.Orderly cells now next served quiet) {p : CellParams}
    (hp : cells[carrier]? = some p) :
    r.Keeps Link.ul carrier p.harq.roundTrip now.uplinkTx := by
  intro t ht l hl hcarrier
  have hparams := (h.steady t ht).params l hl
  rw [hcarrier, hp] at hparams
  exact Option.some.inj hparams ▸ ((h.steady t ht).links l hl).ul

end Orderly

end Roster

end MacScheduler
