import MacScheduler.Proofs.Harq.Schemes
import MacScheduler.Proofs.Terminal.Change
import MacScheduler.Proofs.Terminal.Command

/-!
# Well-formed terminals

The links of a terminal stand in the order of its configured carriers, each at its
own position.  Reports, answers, grants and boundaries leave every link in its
place and under the limits it was created with, and no scheme in its tables ever
exceeds those limits.
-/

namespace MacScheduler

namespace Link

/-- What is always true of the tables of a link. -/
structure Formed (l : Link) : Prop where
  dl : l.dl.Sound
  ul : l.ul.Sound
  dlShaped : l.dl.Shaped slotsPerProcess
  ulShaped : l.ul.Shaped 1
  dlWithin : l.dl.Within l.mcsCapDl
  ulWithin : l.ul.Within l.mcsCapUl

/-- The caps on what a link may be granted. -/
structure Limits where
  aggrLevel : Nat
  mcsDl : Nat
  mcsUl : Nat
deriving DecidableEq

def limits (l : Link) : Limits := ⟨l.maxAggrLevel, l.mcsCapDl, l.mcsCapUl⟩

/-- `l'` is `l` some time later, in its place and under its limits. -/
structure Lives (l l' : Link) : Prop where
  position_eq : l'.position = l.position
  params_eq : l'.params = l.params
  limits_eq : l'.limits = l.limits
  formed : l.Formed → l'.Formed

namespace Lives

variable {l l' l'' : Link}

theorem refl (l : Link) : l.Lives l := ⟨rfl, rfl, rfl, fun h ↦ h⟩

theorem trans (h : l.Lives l') (h' : l'.Lives l'') : l.Lives l'' :=
  ⟨h'.position_eq.trans h.position_eq, h'.params_eq.trans h.params_eq,
    h'.limits_eq.trans h.limits_eq, fun hf ↦ h'.formed (h.formed hf)⟩

theorem carrier_eq (h : l.Lives l') : l'.carrier = l.carrier := by
  rw [carrier, carrier, h.params_eq]

theorem record (m : Terminal.Measure) (received : Tti) (l : Link) :
    l.Lives (m.record received l) := by
  cases m <;>
    exact ⟨rfl, rfl, rfl, fun h ↦
      ⟨h.dl, h.ul, h.dlShaped, h.ulShaped, h.dlWithin, h.ulWithin⟩⟩

theorem setAckDl (l : Link) (pid tb : Nat) (ack : Bool) :
    l.Lives { l with dl := (l.dl.setAck pid tb ack).2 } :=
  ⟨rfl, rfl, rfl, fun h ↦
    ⟨h.dl.setAck pid tb ack, h.ul, h.dlShaped.setAck pid tb ack, h.ulShaped,
      h.dlWithin.setAck pid tb ack, h.ulWithin⟩⟩

theorem setAckUl (l : Link) (pid tb : Nat) (ack : Bool) :
    l.Lives { l with ul := (l.ul.setAck pid tb ack).2 } :=
  ⟨rfl, rfl, rfl, fun h ↦
    ⟨h.dl, h.ul.setAck pid tb ack, h.dlShaped, h.ulShaped.setAck pid tb ack, h.dlWithin,
      h.ulWithin.setAck pid tb ack⟩⟩

theorem startDl {pid : Nat} {p : HarqProcess RbgMask} (hp : l.dl.get? pid = some p) (t : Tti)
    {sizes : List (Nat × Nat)} (hsizes : ∀ size ∈ sizes, size.2 ≤ l.mcsCapDl) (mask : RbgMask)
    (buffers : List (List ByteArray)) :
    l.Lives { l with dl := l.dl.put pid (p.start t sizes mask).2, buffers } where
  position_eq := rfl
  params_eq := rfl
  limits_eq := rfl
  formed h :=
    { ul := h.ul
      ulShaped := h.ulShaped
      ulWithin := h.ulWithin
      dl := h.dl.put ((h.dl.of_get? hp).1.start t sizes mask) (h.dl.of_get? hp).2
      dlShaped := h.dlShaped.put pid ((p.length_start t sizes mask).trans (h.dlShaped.of_get? hp))
      dlWithin := h.dlWithin.put pid ((h.dlWithin.of_get? hp).start t hsizes mask) }

theorem resendDl {pid : Nat} {p : HarqProcess RbgMask} (hp : l.dl.get? pid = some p) (t : Tti)
    (mask : RbgMask) : l.Lives { l with dl := l.dl.put pid (p.resend t mask).2 } where
  position_eq := rfl
  params_eq := rfl
  limits_eq := rfl
  formed h :=
    { ul := h.ul
      ulShaped := h.ulShaped
      ulWithin := h.ulWithin
      dl := h.dl.put ((h.dl.of_get? hp).1.resend t mask) (h.dl.of_get? hp).2
      dlShaped := h.dlShaped.put pid ((p.length_resend t mask).trans (h.dlShaped.of_get? hp))
      dlWithin := h.dlWithin.put pid ((h.dlWithin.of_get? hp).resend t mask) }

theorem startUl {pid : Nat} {p : HarqProcess PrbInterval} (hp : l.ul.get? pid = some p) (t : Tti)
    {size : Nat × Nat} (hsize : size.2 ≤ l.mcsCapUl) (interval : PrbInterval) :
    l.Lives { l with ul := l.ul.put pid (p.start t [size] interval).2 } where
  position_eq := rfl
  params_eq := rfl
  limits_eq := rfl
  formed h :=
    { dl := h.dl
      dlShaped := h.dlShaped
      dlWithin := h.dlWithin
      ul := h.ul.put ((h.ul.of_get? hp).1.start t [size] interval) (h.ul.of_get? hp).2
      ulShaped := h.ulShaped.put pid
        ((p.length_start t [size] interval).trans (h.ulShaped.of_get? hp))
      ulWithin := h.ulWithin.put pid
        ((h.ulWithin.of_get? hp).start t (by simpa using hsize) interval) }

theorem resendUl {pid : Nat} {p : HarqProcess PrbInterval} (hp : l.ul.get? pid = some p) (t : Tti)
    (interval : PrbInterval) :
    l.Lives { l with ul := l.ul.put pid (p.resend t interval).2 } where
  position_eq := rfl
  params_eq := rfl
  limits_eq := rfl
  formed h :=
    { dl := h.dl
      dlShaped := h.dlShaped
      dlWithin := h.dlWithin
      ul := h.ul.put ((h.ul.of_get? hp).1.resend t interval) (h.ul.of_get? hp).2
      ulShaped := h.ulShaped.put pid ((p.length_resend t interval).trans (h.ulShaped.of_get? hp))
      ulWithin := h.ulWithin.put pid ((h.ulWithin.of_get? hp).resend t interval) }

theorem withBuffers (l : Link) (buffers : List (List ByteArray)) : l.Lives { l with buffers } :=
  ⟨rfl, rfl, rfl, fun h ↦ ⟨h.dl, h.ul, h.dlShaped, h.ulShaped, h.dlWithin, h.ulWithin⟩⟩

theorem of_change {uses : PrbInterval → Prop} (h : l.Change uses l') : l.Lives l' := by
  cases h with
  | same => exact .refl l
  | reported m received => exact .record m received l
  | answeredDl _ pid tb ack => exact .setAckDl l pid tb ack
  | answeredUl _ pid tb ack => exact .setAckUl l pid tb ack
  | edited _ buffers => exact .withBuffers l buffers
  | startedDl _ hp t hsizes mask buffers => exact .startDl hp t hsizes mask buffers
  | resentDl _ hp t mask => exact .resendDl hp t mask
  | startedUl _ hp t hsize => exact .startUl hp t hsize _
  | resentUl _ hp t => exact .resendUl hp t _

theorem withState (l : Link) (state : Activation) : l.Lives { l with state } :=
  ⟨rfl, rfl, rfl, fun h ↦ ⟨h.dl, h.ul, h.dlShaped, h.ulShaped, h.dlWithin, h.ulWithin⟩⟩

theorem resetHarq (l : Link) : l.Lives l.resetHarq :=
  ⟨rfl, rfl, rfl, fun h ↦
    ⟨h.dl.reset, h.ul.reset, h.dlShaped.reset, h.ulShaped.reset, .reset l.dl, .reset l.ul⟩⟩

theorem commanded (ceQueued : Bool) (commands : List Bool) (l : Link) :
    l.Lives (l.commanded ceQueued commands) := by
  have hcomplete : l.Lives (Terminal.completeTransition ceQueued l) := by
    unfold Terminal.completeTransition
    split
    · exact .refl l
    · split
      · exact .withState l _
      · exact (resetHarq l).trans (.withState _ _)
      · exact .refl l
      · exact .refl l
  exact hcomplete.trans (.withState _ _)

theorem newTti (l : Link) (now : Tti) : l.Lives (l.newTti now).2 :=
  ⟨rfl, rfl, rfl, fun h ↦
    ⟨(h.dl.advance now.downlinkTx).takeDropped, (h.ul.advance now.uplinkTx).takeDropped,
      (h.dlShaped.advance now.downlinkTx).takeDropped,
      (h.ulShaped.advance now.uplinkTx).takeDropped,
      h.dlWithin.advance now.downlinkTx, h.ulWithin.advance now.uplinkTx⟩⟩

end Lives

theorem formed_create (rnti : Rnti) (position : Nat) (params : CellParams) (active : Bool)
    (maxAggrLevel : Nat) (maxMcsDl maxMcsUl : Option Nat) :
    (create rnti position params active maxAggrLevel maxMcsDl maxMcsUl).Formed :=
  ⟨.empty _ _ _, .empty _ _ _, .empty _ _ rfl, .empty _ _ rfl, .empty _ _ _, .empty _ _ _⟩

end Link

namespace Terminal

variable {cells : List CellParams} {t t' t'' : Terminal}

/-- The links stand in the order of the configured carriers, each on a carrier of its own. -/
structure Formed (cells : List CellParams) (t : Terminal) : Prop where
  carriers_eq : t.links.map (·.carrier) = t.config.carriers.map (·.index)
  nodup : (t.links.map (·.carrier)).Nodup
  position_eq : ∀ (i : Nat) (l : Link), t.links[i]? = some l → l.position = i
  params : ∀ l ∈ t.links, cells[l.carrier]? = some l.params
  links : ∀ l ∈ t.links, l.Formed

/-- `t'` is `t` some time later, without another configuration in between. -/
structure Lives (t t' : Terminal) : Prop where
  config_eq : ∃ bearers, t'.config = { t.config with bearers }
  links : List.Forall₂ Link.Lives t.links t'.links

namespace Lives

theorem of_links (hconfig : t'.config = t.config) (h : List.Forall₂ Link.Lives t.links t'.links) :
    t.Lives t' := ⟨⟨t.config.bearers, hconfig⟩, h⟩

theorem of_changes (h : t.Changes (fun _ ↦ True) t') : t.Lives t' :=
  ⟨h.config_eq, h.links.imp fun _ _ hchange ↦ .of_change hchange⟩

theorem refl (t : Terminal) : t.Lives t := of_changes (.refl t)

theorem newTti (t : Terminal) (now : Tti) (pools : PucchPools) :
    t.Lives (t.newTti now pools).1 := by
  by_cases hlast : t.lastTti = some now
  · rw [newTti_of_last hlast]
    exact .refl t
  · have hconfig : (t.newTti now pools).1.config = t.config := by
      rw [Terminal.newTti, if_neg hlast]
      rfl
    exact .of_links hconfig (forall₂_of_getElem? (getElem?_newTti hlast pools) fun i l ↦
      (Link.Lives.commanded _ _ l).trans (.newTti _ now))

end Lives

namespace Formed

theorem of_lives (h : t.Formed cells) (hlives : t.Lives t') : t'.Formed cells := by
  obtain ⟨bearers, hconfig⟩ := hlives.config_eq
  have hcarriers : t'.links.map (·.carrier) = t.links.map (·.carrier) :=
    map_eq_of_forall₂ hlives.links fun _ _ hl ↦ hl.carrier_eq
  refine ⟨?_, hcarriers ▸ h.nodup, ?_, ?_, ?_⟩
  · rw [hcarriers, hconfig]
    exact h.carriers_eq
  · intro i l' hl'
    obtain ⟨l, hl, hll⟩ := getElem?_of_forall₂ hlives.links hl'
    exact hll.position_eq.trans (h.position_eq i l hl)
  · intro l' hl'
    obtain ⟨l, hl, hll⟩ := exists_mem_of_forall₂ hlives.links hl'
    rw [hll.carrier_eq, hll.params_eq]
    exact h.params l hl
  · intro l' hl'
    obtain ⟨l, hl, hll⟩ := exists_mem_of_forall₂ hlives.links hl'
    exact hll.formed (h.links l hl)

/-- A carrier is found by its link, whatever the order of the links. -/
theorem link?_eq_some_iff (h : t.Formed cells) {carrier : Nat} {l : Link} :
    t.link? carrier = some l ↔ l ∈ t.links ∧ l.carrier = carrier :=
  ⟨of_link?, fun ⟨hl, hcarrier⟩ ↦ hcarrier ▸ link?_of_mem h.nodup hl⟩

end Formed

end Terminal

end MacScheduler
