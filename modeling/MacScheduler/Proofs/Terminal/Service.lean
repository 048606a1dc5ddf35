import MacScheduler.Proofs.Terminal.Standing

/-!
# Carriers in and out of service

The primary carrier of a terminal is always active, and a carrier that is idle or
still being activated holds no block.  New blocks are sent on active carriers only, and
blocks are sent again only where they may still be in flight.
-/

namespace MacScheduler

namespace Activation

/-- Commands never end the wait for a control element. -/
theorem of_obeyAll (state : Activation) (commands : List Bool) :
    (state.obeyAll commands = .active → state = .active) ∧
      (state.obeyAll commands = .idle ∨ state.obeyAll commands = .activating →
        state = .idle ∨ state = .activating) := by
  induction commands generalizing state with
  | nil => exact ⟨fun h ↦ h, fun h ↦ h⟩
  | cons activate commands ih =>
      obtain ⟨hactive, hoff⟩ := ih (state.obey activate)
      refine ⟨fun h ↦ ?_, fun h ↦ ?_⟩
      · have := hactive h
        revert this
        cases activate <;> cases state <;> simp [obey]
      · have := hoff h
        revert this
        cases activate <;> cases state <;> simp [obey]

end Activation

namespace Link

variable {l l' : Link}

theorem allowsRetx_eq_false_iff :
    l.allowsRetx = false ↔ l.state = .idle ∨ l.state = .activating := by
  unfold allowsRetx
  cases l.state <;> simp

theorem blank_of_change {uses : PrbInterval → Prop} (h : l.Change uses l') (hformed : l.Formed)
    (hoff : l.allowsRetx = false → l.Blank) : l'.allowsRetx = false → l'.Blank := by
  cases h with
  | same => exact hoff
  | reported m received => cases m <;> exact hoff
  | edited => exact hoff
  | answeredDl _ pid tb ack =>
      exact fun ho ↦ ⟨(hoff ho).1.of_wanes (.setAck hformed.dl pid tb ack), (hoff ho).2⟩
  | answeredUl _ pid tb ack =>
      exact fun ho ↦ ⟨(hoff ho).1, (hoff ho).2.of_wanes (.setAck hformed.ul pid tb ack)⟩
  | startedDl hactive | startedUl hactive =>
      intro ho
      have hallows : l.allowsRetx = false := ho
      simp [allowsRetx, of_decide_eq_true hactive] at hallows
  | resentDl hallows | resentUl hallows =>
      intro ho
      have hfalse : l.allowsRetx = false := ho
      rw [hallows] at hfalse
      cases hfalse

theorem blank_commanded (hoff : l.allowsRetx = false → l.Blank) (ceQueued : Bool)
    (commands : List Bool) (ho : (l.commanded ceQueued commands).allowsRetx = false) :
    (l.commanded ceQueued commands).Blank := by
  rw [allowsRetx_eq_false_iff, state_commanded] at ho
  have hended := (Activation.of_obeyAll _ commands).2 ho
  have htables : (l.commanded ceQueued commands).Blank =
      (Terminal.completeTransition ceQueued l).Blank := rfl
  rw [htables]
  have hidle := allowsRetx_eq_false_iff (l := l)
  revert hended
  unfold Activation.ended Terminal.completeTransition
  cases ceQueued with
  | true => exact fun h ↦ hoff (hidle.mpr h)
  | false =>
      cases hstate : l.state with
      | idle => exact fun _ ↦ hoff (hidle.mpr (.inl hstate))
      | deactivating => exact fun _ ↦ ⟨.reset l.dl, .reset l.ul⟩
      | activating => simp
      | active => simp

theorem blank_newTti (hformed : l.Formed) (h : l.Blank) (now : Tti) : (l.newTti now).2.Blank :=
  ⟨(h.1.of_wanes (.advance hformed.dl now.downlinkTx)).of_wanes (.takeDropped _),
    (h.2.of_wanes (.advance hformed.ul now.uplinkTx)).of_wanes (.takeDropped _)⟩

end Link

namespace Terminal

variable {cells : List CellParams} {t t' : Terminal}

/-- The primary carrier is in service, no command concerns it, and carriers out of service hold
no blocks. -/
structure InOrder (t : Terminal) : Prop where
  primary : ∀ l ∈ t.links, l.position = 0 → l.state = .active
  off : ∀ l ∈ t.links, l.allowsRetx = false → l.Blank
  commands : ∀ command ∈ t.commands, command.1 ≠ 0

namespace InOrder

theorem of_changes (h : t.InOrder) (hformed : t.Formed cells)
    (hchanges : t.Changes (fun _ ↦ True) t') (hcommands : ∀ command ∈ t'.commands, command.1 ≠ 0) :
    t'.InOrder where
  primary := by
    intro l' hl' hposition
    obtain ⟨l, hl, hchange⟩ := exists_mem_of_forall₂ hchanges.links hl'
    obtain ⟨-, hpos, hstate⟩ : l'.carrier = l.carrier ∧ l'.position = l.position ∧
        l'.state = l.state := by simpa [Link.standing] using standing_of_change hchange
    rw [hstate]
    exact h.primary l hl (hpos ▸ hposition)
  off := by
    intro l' hl'
    obtain ⟨l, hl, hchange⟩ := exists_mem_of_forall₂ hchanges.links hl'
    exact Link.blank_of_change hchange (hformed.links l hl) (h.off l hl)
  commands := hcommands

theorem perform (h : t.InOrder) (hformed : t.Formed cells) (action : Action) :
    (t.perform action).2.InOrder := by
  apply h.of_changes hformed (.perform t action)
  intro command hcommand
  rw [commands_perform] at hcommand
  rcases List.mem_append.mp hcommand with hcommand | hcommand
  · exact h.commands command hcommand
  · cases action with
    | requestActivation k activate =>
        simp only [queuedBy] at hcommand
        split at hcommand
        · rw [List.mem_singleton.mp hcommand]
          exact Nat.succ_ne_zero _
        · cases hcommand
    | _ => cases hcommand

theorem newTti (h : t.InOrder) (hformed : t.Formed cells) {now : Tti}
    (hnow : t.lastTti ≠ some now) (pools : PucchPools) : (t.newTti now pools).1.InOrder := by
  have hback : ∀ l' ∈ (t.newTti now pools).1.links, ∃ l ∈ t.links,
      l' = ((l.commanded t.ceQueued (commandsAt l.position t.commands)).newTti now).2 := by
    intro l' hl'
    obtain ⟨i, hi⟩ := List.mem_iff_getElem?.mp hl'
    rw [getElem?_newTti hnow] at hi
    obtain ⟨l, hl, rfl⟩ := Option.map_eq_some_iff.mp hi
    obtain rfl := hformed.position_eq i l hl
    exact ⟨l, List.mem_of_getElem? hl, rfl⟩
  refine ⟨?_, ?_, by simp [commands_newTti hnow]⟩
  · intro l' hl' hposition
    obtain ⟨l, hl, rfl⟩ := hback l' hl'
    have hzero : l.position = 0 :=
      ((Link.Lives.commanded t.ceQueued _ l).trans (.newTti _ now)).position_eq ▸ hposition
    have hnone : commandsAt l.position t.commands = [] :=
      commandsAt_eq_nil fun command hcommand ↦ hzero ▸ h.commands command hcommand
    change (l.commanded t.ceQueued (commandsAt l.position t.commands)).state = .active
    rw [Link.state_commanded, hnone, h.primary l hl hzero]
    cases t.ceQueued <;> rfl
  · intro l' hl' ho
    obtain ⟨l, hl, rfl⟩ := hback l' hl'
    have hblank := Link.blank_commanded (h.off l hl) t.ceQueued
      (commandsAt l.position t.commands) ho
    exact Link.blank_newTti ((Link.Lives.commanded t.ceQueued _ l).formed (hformed.links l hl))
      hblank now

theorem setConfig (h : t.InOrder) (hformed : t.Formed cells) (c : TerminalConfig)
    (pools : PucchPools) : (t.setConfig c cells pools).2.1.InOrder := by
  rcases hformed.setConfig_cases c pools with ⟨_, -, heq⟩ | ⟨hc, -, hr⟩
  · rw [heq]
    exact h
  · have hcommands : (t.setConfig c cells pools).2.1.commands =
        t.commands ++ (t.placeLinks cells c 0 c.carriers).2 := by
      rw [Terminal.setConfig, hc, commands_apply]
    refine ⟨?_, ?_, ?_⟩
    · intro l' hl' hposition
      obtain ⟨i, hi⟩ := List.mem_iff_getElem?.mp hl'
      cases hr.links i l' hi with
      | kept hl => exact h.primary l' (List.mem_of_getElem? hl) hposition
      | fresh =>
          obtain rfl : i = 0 := hposition
          rfl
    · intro l' hl'
      obtain ⟨i, hi⟩ := List.mem_iff_getElem?.mp hl'
      cases hr.links i l' hi with
      | kept hl => exact h.off l' (List.mem_of_getElem? hl)
      | fresh => exact fun _ ↦ Link.blank_create _ _ _ _ _ _ _
    · intro command hcommand
      rw [hcommands] at hcommand
      rcases List.mem_append.mp hcommand with hcommand | hcommand
      · exact h.commands command hcommand
      · exact (of_mem_placeLinks t c hcommand).2

theorem step (h : t.InOrder) (hformed : t.Formed cells) (e : Event) :
    (t.step cells e).InOrder := by
  cases e with
  | act action => exact h.perform hformed action
  | withdrawRequest => exact h.of_changes hformed (.of_same_links rfl rfl) h.commands
  | configure c pools => exact h.setConfig hformed c pools
  | boundary now pools =>
      by_cases hnow : t.lastTti = some now
      · rw [Terminal.step, newTti_of_last hnow]
        exact h
      · exact h.newTti hformed hnow pools
  | grantDownlink tx carrier pid mask dci =>
      apply h.of_changes hformed (.grantDownlink t tx carrier pid mask dci)
      rw [commands_grantDownlink]
      exact h.commands
  | grantUplink tx carrier pid interval dci =>
      apply h.of_changes hformed (.grantUplink t tx carrier pid trivial dci)
      rw [commands_grantUplink]
      exact h.commands

theorem run (h : t.InOrder) (hformed : t.Formed cells) (hcells : CellParams.Numbered cells)
    (es : List Event) : (t.run cells es).InOrder := by
  induction es generalizing t with
  | nil => exact h
  | cons e es ih => exact ih (h.step hformed e) (hformed.step hcells e)

theorem blank (rnti : Rnti) (c : TerminalConfig) : (Terminal.blank rnti c).InOrder :=
  ⟨by simp [Terminal.blank], by simp [Terminal.blank], by simp [Terminal.blank]⟩

end InOrder

/-! ## Grants -/

section Grants

variable {tx : Tti} {carrier pid : Nat}

/-- New blocks need an active carrier, and repeated ones a carrier that allows them. -/
theorem link?_of_grantDownlink {mask : RbgMask} {dci : DciLocation} {g : DlGrant}
    (hg : (t.grantDownlink tx carrier pid mask dci).1 = .ok g) :
    ∃ l, t.link? carrier = some l ∧
      if g.isRetx then l.state = .active ∨ l.state = .deactivating else l.state = .active := by
  have hspec := t.grantDownlink_spec tx carrier pid mask dci
  generalize t.grantDownlink tx carrier pid mask dci = out at hspec hg
  cases hspec with
  | refused => cases hg
  | @resent l p _ g' _ hl hallows _ hdue _ _ _ htbs =>
      obtain rfl : g' = g := Except.ok.inj hg
      refine ⟨l, hl, ?_⟩
      have hretx : g'.isRetx = true := by
        obtain ⟨b, hb⟩ := List.exists_mem_of_ne_nil _ (HarqProcess.grants_resend_ne_nil hdue mask)
        exact List.any_eq_true.mpr ⟨b, htbs ▸ hb, HarqProcess.isRetx_of_mem_resend hb⟩
      rw [if_pos hretx]
      simpa [Link.allowsRetx] using hallows
  | started hl hactive _ _ _ _ htbs =>
      obtain rfl := Except.ok.inj hg
      refine ⟨_, hl, ?_⟩
      have hactive := of_decide_eq_true hactive
      split
      · exact .inl hactive
      · exact hactive

theorem link?_of_grantUplink {interval : PrbInterval} {dci : Option DciLocation} {g : UlGrant}
    (hg : (t.grantUplink tx carrier pid interval dci).1 = .ok g) :
    ∃ l, t.link? carrier = some l ∧
      if g.tb.isRetx then l.state = .active ∨ l.state = .deactivating else l.state = .active := by
  have hspec := t.grantUplink_spec tx carrier pid interval dci
  generalize t.grantUplink tx carrier pid interval dci = out at hspec hg
  cases hspec with
  | refused => cases hg
  | @resent l p _ r _ hl hallows _ hdue _ _ _ htb =>
      obtain rfl : r = .ok g := hg
      refine ⟨l, hl, ?_⟩
      rw [if_pos (HarqProcess.isRetx_of_mem_resend (Link.mem_of_lastGrant htb.symm))]
      simpa [Link.allowsRetx] using hallows
  | started hl hactive =>
      refine ⟨_, hl, ?_⟩
      have hactive := of_decide_eq_true hactive
      split
      · exact .inl hactive
      · exact hactive

end Grants

end Terminal

end MacScheduler
