import MacScheduler.Proofs.Subframe.Hold
import MacScheduler.Proofs.Terminal.Change
import MacScheduler.Proofs.Terminal.Command
import MacScheduler.Proofs.Terminal.Snapshot

/-!
# Terminals whose resources are counts

A terminal asks for what it was granted before, and for places in the control region of
its carrier.  As long as every uplink grant ends within the counts, so does all that its
snapshots name: no sum over it wraps around.
-/

namespace MacScheduler

namespace Link

/-- The uplink blocks in flight end within the counts, and the control region is of a size
that cells may have. -/
structure Counted (l : Link) : Prop where
  sound : l.ul.Sound
  uses : l.ul.Uses PrbInterval.Counted
  nofCce_le : l.params.nofCce ≤ 88

namespace Counted

variable {l l' : Link}

theorem of_change (h : l.Counted) (hchange : l.Change PrbInterval.Counted l') : l'.Counted := by
  cases hchange with
  | same => exact h
  | reported m => cases m <;> exact ⟨h.sound, h.uses, h.nofCce_le⟩
  | answeredUl _ pid tb ack =>
      exact ⟨h.sound.setAck pid tb ack, h.uses.of_wanes (.setAck h.sound pid tb ack), h.nofCce_le⟩
  | startedUl _ hp t _ hcounted =>
      have hproc := h.sound.of_get? hp
      exact ⟨h.sound.put (hproc.1.start t _ _) hproc.2, h.uses.put _ rfl hcounted, h.nofCce_le⟩
  | resentUl _ hp t hcounted =>
      have hproc := h.sound.of_get? hp
      exact ⟨h.sound.put (hproc.1.resend t _) hproc.2, h.uses.put _ rfl hcounted, h.nofCce_le⟩
  | answeredDl | edited | startedDl | resentDl => exact ⟨h.sound, h.uses, h.nofCce_le⟩

theorem resetHarq (h : l.Counted) : l.resetHarq.Counted :=
  ⟨h.sound.reset, h.uses.of_wanes (.reset l.ul), h.nofCce_le⟩

theorem commanded (h : l.Counted) (ceQueued : Bool) (commands : List Bool) :
    (l.commanded ceQueued commands).Counted := by
  have hcomplete : (Terminal.completeTransition ceQueued l).Counted := by
    unfold Terminal.completeTransition
    split
    · exact h
    · split
      · exact ⟨h.sound, h.uses, h.nofCce_le⟩
      · exact ⟨h.resetHarq.sound, h.resetHarq.uses, h.nofCce_le⟩
      · exact h
      · exact h
  exact ⟨hcomplete.sound, hcomplete.uses, hcomplete.nofCce_le⟩

theorem newTti (h : l.Counted) (now : Tti) : (l.newTti now).2.Counted :=
  ⟨(h.sound.advance now.uplinkTx).takeDropped,
    (h.uses.of_wanes (.advance h.sound now.uplinkTx)).of_wanes (.takeDropped _), h.nofCce_le⟩

end Counted

theorem counted_create (rnti : Rnti) (position : Nat) {params : CellParams}
    (hparams : params.cell.violations = []) (active : Bool) (maxAggrLevel : Nat)
    (maxMcsDl maxMcsUl : Option Nat) :
    (create rnti position params active maxAggrLevel maxMcsDl maxMcsUl).Counted :=
  ⟨.empty _ _ _, (HarqTable.Blank.empty _ _ _).uses, CellParams.nofCce_le hparams⟩

end Link

namespace Terminal

variable {cells : List CellParams} {t t' : Terminal}

def Counted (t : Terminal) : Prop := ∀ l ∈ t.links, l.Counted

namespace Counted

theorem of_changes (h : t.Counted) (hchanges : t.Changes PrbInterval.Counted t') :
    t'.Counted := by
  intro l' hl'
  obtain ⟨l, hl, hchange⟩ := exists_mem_of_forall₂ hchanges.links hl'
  exact (h l hl).of_change hchange

theorem newTti (h : t.Counted) (now : Tti) (pools : PucchPools) :
    (t.newTti now pools).1.Counted := by
  by_cases hlast : t.lastTti = some now
  · rwa [newTti_of_last hlast]
  · intro l' hl'
    obtain ⟨i, hi⟩ := List.mem_iff_getElem?.mp hl'
    rw [getElem?_newTti hlast, Option.map_eq_some_iff] at hi
    obtain ⟨l, hl, rfl⟩ := hi
    exact ((h l (List.mem_of_getElem? hl)).commanded _ _).newTti now

/-- A configuration keeps links or creates them. -/
theorem apply (h : t.Counted) (hcells : ∀ p ∈ cells, p.cell.violations = [])
    (c : TerminalConfig) (pools : PucchPools) : (t.apply cells c pools).2.1.Counted := by
  obtain ⟨-, -, hlinks⟩ := t.apply_links cells c pools
  generalize (t.apply cells c pools).2.1 = t' at hlinks
  rcases hlinks with hnil | hplace
  · simp [Counted, hnil]
  · intro l hl
    obtain ⟨position, cc, hl⟩ := exists_placeLink_of_mem hplace hl
    rcases placeLink_cases hl with ⟨hlink, -⟩ | ⟨params, hparams, rfl, -⟩
    · exact h l (of_link? hlink).1
    · exact Link.counted_create _ _ (hcells params (List.mem_of_getElem? hparams)) _ _ _ _

theorem setConfig (h : t.Counted) (hcells : ∀ p ∈ cells, p.cell.violations = [])
    (c : TerminalConfig) (pools : PucchPools) : (t.setConfig c cells pools).2.1.Counted := by
  unfold Terminal.setConfig
  cases c.check cells.length with
  | error e => exact h
  | ok _ => exact h.apply hcells c pools

theorem of_create (hcells : ∀ p ∈ cells, p.cell.violations = []) {rnti : Rnti}
    {c : TerminalConfig} {pools pools' : PucchPools}
    (h : create rnti c cells pools = (.ok t, pools')) : t.Counted := by
  unfold create at h
  cases hc : c.check cells.length with
  | error e => simp [hc] at h
  | ok _ =>
      simp only [hc] at h
      have happlied := apply (t := { rnti, config := { c with carriers := [] } })
        (by simp [Counted]) hcells c pools
      generalize Terminal.apply _ cells c pools = out at h happlied
      obtain ⟨r, t', pools''⟩ := out
      cases r with
      | error e => cases h
      | ok _ =>
          cases h
          exact happlied

/-- What a counted terminal asks for ends within the counts. -/
theorem of_snapshot? (h : t.Counted) {now : Tti} {carrier : Nat} {s : Snapshot}
    (hs : t.snapshot? now carrier = some s) : s.Counted := by
  obtain ⟨l, hl, rfl⟩ := Option.map_eq_some_iff.mp hs
  have hcounted := h l (of_link? hl).1
  refine ⟨fun _ first hfirst ↦ ?_, fun q hq ↦ ?_⟩
  · exact Link.counted_of_mem_dciCandidates hcounted.nofCce_le hfirst
  · dsimp only at hq
    split at hq
    · exact hcounted.uses.of_retxRequest? hcounted.sound hq
    · cases hq

end Counted

end Terminal

end MacScheduler
