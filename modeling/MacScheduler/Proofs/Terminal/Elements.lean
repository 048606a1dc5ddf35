import MacScheduler.Proofs.Buffer.Elements
import MacScheduler.Proofs.Terminal.Standing

/-!
# Control elements of a terminal

A boundary that starts a transition queues an element that names the secondary carriers
which are active or about to be.  Elements leave the queue in downlink grants only, in
the order queued.
-/

namespace MacScheduler.Terminal

variable {cells : List CellParams} {t : Terminal} {carrier : Nat}

/-! ## The element that a boundary queues -/

theorem testBit_foldl_activationBitmap (links : List Link) (bitmap i : Nat) :
    (links.foldl (fun bitmap l ↦
      if 0 < l.position ∧ (l.state = .active ∨ l.state = .activating) then
        bitmap ||| 1 <<< min l.position 7
      else bitmap) bitmap).testBit i =
      (bitmap.testBit i || links.any fun l ↦
        decide (0 < l.position) && l.state.isUp && decide (min l.position 7 = i)) := by
  induction links generalizing bitmap with
  | nil => simp
  | cons l links ih =>
      rw [List.foldl_cons, ih, List.any_cons, ← Bool.or_assoc]
      congr 1
      by_cases hup : 0 < l.position ∧ (l.state = .active ∨ l.state = .activating)
      · have hstate : l.state.isUp = true := by simpa [Activation.isUp] using hup.2
        rw [if_pos hup, Nat.testBit_or, Nat.one_shiftLeft, Nat.testBit_two_pow, hstate,
          decide_eq_true hup.1, Bool.true_and, Bool.true_and]
      · have hdown : (decide (0 < l.position) && l.state.isUp) = false := by
          simpa [Activation.isUp, ← not_or] using hup
        rw [if_neg hup, hdown, Bool.false_and, Bool.or_false]

/-- The element names the secondary carriers that are active or about to be. -/
theorem testBit_activationBitmap (links : List Link) (i : Nat) :
    (activationBitmap links).testBit i = links.any fun l ↦
      decide (0 < l.position) && l.state.isUp && decide (min l.position 7 = i) := by
  have hfold := testBit_foldl_activationBitmap links 0 i
  rwa [Nat.zero_testBit, Bool.false_or] at hfold

theorem runCommands_of_unchanged {links : List Link} {commands : List (Nat × Bool)}
    (h : (runCommands links commands).1 = false) : (runCommands links commands).2 = links := by
  induction commands with
  | nil => rfl
  | cons command commands ih =>
      obtain ⟨position, activate⟩ := command
      rw [runCommands] at h ⊢
      cases hstart : (links[position]?).bind (startTransition activate) with
      | none =>
          rw [hstart] at h
          exact ih h
      | some l =>
          rw [hstart] at h
          cases h

theorem ces_newTti {now : Tti} (hnow : t.lastTti ≠ some now) (pools : PucchPools) :
    (t.newTti now pools).1.channels.ces = t.channels.ces ++
      if (runCommands (t.links.map (completeTransition t.ceQueued)) t.commands).1 then
        [.scellActivation (activationBitmap t.commandedLinks)] else [] := by
  rw [newTti, if_neg hnow]
  simp only [advanceLinks_eq]
  refine (Channels.ces_foldl_recordFailure _ _ _).trans ?_
  unfold commandedLinks ceQueued
  cases (runCommands (t.links.map (completeTransition (t.channels.ces.any
    MacCe.isScellActivation))) t.commands).1 with
  | true => rfl
  | false => exact (List.append_nil _).symm

/-- A boundary that takes a secondary carrier into activation queues an element with its bit. -/
theorem Formed.exists_ce_of_activating (h : t.Formed cells) {now : Tti}
    (hnow : t.lastTti ≠ some now) (pools : PucchPools) {l : Link}
    (hl : t.link? carrier = some l) (hposition : l.position ≠ 0) (hbefore : l.state ≠ .activating)
    (hafter : (l.commanded t.ceQueued (commandsAt l.position t.commands)).state = .activating) :
    ∃ bitmap, .scellActivation bitmap ∈ (t.newTti now pools).1.channels.ces ∧
      bitmap.testBit (min l.position 7) = true := by
  obtain ⟨i, hi⟩ := List.mem_iff_getElem?.mp (of_link? hl).1
  obtain rfl := h.position_eq i l hi
  have hget := getElem?_commandedLinks t l.position
  rw [hi, Option.map_some] at hget
  have hchanged :
      (runCommands (t.links.map (completeTransition t.ceQueued)) t.commands).1 = true := by
    by_contra hsame
    have hlinks : t.commandedLinks = t.links.map (completeTransition t.ceQueued) :=
      runCommands_of_unchanged (Bool.not_eq_true _ ▸ hsame)
    rw [hlinks, List.getElem?_map, hi, Option.map_some] at hget
    rw [← Option.some.inj hget] at hafter
    revert hafter
    unfold completeTransition
    cases t.ceQueued <;> cases hstate : l.state <;> simp_all
  refine ⟨activationBitmap t.commandedLinks, ?_, ?_⟩
  · rw [ces_newTti hnow, if_pos hchanged]
    exact List.mem_append_right _ List.mem_cons_self
  · rw [testBit_activationBitmap]
    have hpos := (Link.Lives.commanded t.ceQueued (commandsAt l.position t.commands) l).position_eq
    refine List.any_eq_true.mpr ⟨_, List.mem_of_getElem? hget, ?_⟩
    simp [hafter, hpos, Activation.isUp, Nat.pos_of_ne_zero hposition]

/-! ## Elements wait in order -/

/-- An event is a downlink grant that carries a control element. -/
def Emits (t : Terminal) (ce : MacCe) : Event → Prop
  | .grantDownlink tx carrier pid mask dci =>
      ∃ g, (t.grantDownlink tx carrier pid mask dci).1 = .ok g ∧ .ce ce ∈ g.pdus
  | _ => False

theorem ces_grantDownlink (t : Terminal) (tx : Tti) (carrier pid : Nat) (mask : RbgMask)
    (dci : DciLocation) :
    ∃ sent, sent ++ (t.grantDownlink tx carrier pid mask dci).2.channels.ces = t.channels.ces ∧
      ∀ ce ∈ sent, ∃ g, (t.grantDownlink tx carrier pid mask dci).1 = .ok g ∧
        .ce ce ∈ g.pdus := by
  unfold grantDownlink
  cases t.link? carrier with
  | none => exact ⟨[], rfl, by simp⟩
  | some l =>
      dsimp only
      split
      · rcases l.resendDownlink tx pid mask with ⟨e | tbs, l'⟩
        · exact ⟨[], rfl, by simp⟩
        · exact ⟨[], rfl, by simp⟩
      · rcases l.startDownlink tx pid mask t.downlinkPending with ⟨e | tbs, l'⟩
        · exact ⟨[], rfl, by simp⟩
        · obtain ⟨sent, pdus, hpdus, hces⟩ := t.channels.exists_fill (grantedBytes tbs)
          refine ⟨sent, hces, fun ce hce ↦ ?_⟩
          refine ⟨_, rfl, ?_⟩
          have hmem : DlPdu.ce ce ∈ (t.channels.fill (grantedBytes tbs)).1 :=
            hpdus ▸ List.mem_append_left pdus (List.mem_map_of_mem hce)
          exact hmem

theorem ces_grantUplink (t : Terminal) (tx : Tti) (carrier pid : Nat) (interval : PrbInterval)
    (dci : Option DciLocation) :
    (t.grantUplink tx carrier pid interval dci).2.channels.ces = t.channels.ces := by
  unfold grantUplink
  cases t.link? carrier with
  | none => rfl
  | some l =>
      dsimp only
      split
      · rcases l.resendUplink tx pid interval with ⟨e | tb, l'⟩ <;> rfl
      · rcases l.startUplink tx pid interval t.uplinkPending with ⟨e | tb, l'⟩ <;> rfl

theorem exists_ces_perform (t : Terminal) (action : Action) :
    ∃ pushed, (t.perform action).2.channels.ces = t.channels.ces ++ pushed := by
  cases action with
  | configureBearer lcid b =>
      have hces := t.channels.ces_configure lcid b
      simp only [perform, configureBearer]
      split <;> rename_i heq <;> rw [heq] at hces <;> exact ⟨[], by simpa using hces⟩
  | removeBearer lcid =>
      have hces := t.channels.ces_remove lcid
      simp only [perform, removeBearer]
      split <;> rename_i heq <;> rw [heq] at hces <;> exact ⟨[], by simpa using hces⟩
  | requestActivation carrier activate =>
      simp only [perform, requestActivation]
      split <;> exact ⟨[], (List.append_nil _).symm⟩
  | reportDownlink lcid fresh repeated =>
      rw [perform, taken_snd]
      exact ⟨[], (t.channels.ces_reportDownlink lcid fresh repeated).trans
        (List.append_nil _).symm⟩
  | reportUplink lcg bytes =>
      rw [perform, taken_snd]
      exact ⟨[], (t.channels.ces_reportUplink lcg bytes).trans (List.append_nil _).symm⟩
  | pushCe ce => exact ⟨[ce], rfl⟩
  | reportHeadroom | requestUplink => exact ⟨[], (List.append_nil _).symm⟩
  | reportChannel received carrier m =>
      simp only [perform, reportChannel, updateLink]
      split <;> exact ⟨[], (List.append_nil _).symm⟩
  | acknowledgeDownlink received carrier tb ack =>
      simp only [perform, acknowledgeDownlink]
      repeat' split
      all_goals exact ⟨[], (List.append_nil _).symm⟩
  | acknowledgeUplink received carrier ack =>
      simp only [perform, acknowledgeUplink]
      repeat' split
      all_goals exact ⟨[], (List.append_nil _).symm⟩
  | raisePower dir | lowerPower dir => cases dir <;> exact ⟨[], (List.append_nil _).symm⟩
  | editBuffer carrier pid tb edit =>
      simp only [perform]
      rcases t.editBuffer_cases carrier pid tb edit with heq | ⟨l, buffers, -, heq⟩ <;> rw [heq] <;>
        exact ⟨[], (List.append_nil _).symm⟩

theorem ces_removeStale (bearers : Bearers) (c : Channels) (lcids : List Nat) :
    (removeStale bearers c lcids).2.ces = c.ces := by
  induction lcids generalizing c with
  | nil => rfl
  | cons lcid lcids ih =>
      have hces := c.ces_remove lcid
      rw [removeStale]
      split
      · rcases hremove : c.remove lcid with ⟨e | _, c'⟩ <;> rw [hremove] at hces
        · exact hces
        · exact (ih c').trans hces
      · exact ih c

theorem ces_configureAll (c : Channels) (bearers : Bearers) :
    (configureAll c bearers).2.ces = c.ces := by
  induction bearers generalizing c with
  | nil => rfl
  | cons entry bearers ih =>
      obtain ⟨lcid, b⟩ := entry
      have hces := c.ces_configure lcid b
      rw [configureAll]
      rcases hconfigure : c.configure lcid b with ⟨e | _, c'⟩ <;> rw [hconfigure] at hces
      · exact hces
      · exact (ih c').trans hces

theorem ces_applyBearers (c : Channels) (bearers : Bearers) :
    (applyBearers c bearers).2.ces = c.ces := by
  have hces := ces_removeStale bearers c (List.range nofLcids)
  unfold applyBearers
  rcases hstale : removeStale bearers c (List.range nofLcids) with ⟨e | _, c'⟩ <;>
    rw [hstale] at hces
  · exact hces
  · exact (ces_configureAll c' bearers).trans hces

theorem ces_apply (t : Terminal) (c : TerminalConfig) (pools : PucchPools) :
    (t.apply cells c pools).2.1.channels.ces = t.channels.ces := by
  have hces := ces_applyBearers t.channels c.bearers
  unfold apply
  rcases t.placeLinks cells c 0 c.carriers with ⟨e | links, commands⟩
  · rfl
  · dsimp only
    rcases hbearers : applyBearers t.channels c.bearers with ⟨e | _, channels⟩ <;>
      rw [hbearers] at hces <;> exact hces

/-- Elements leave the queue from its front, in downlink grants, and join it at its end. -/
theorem exists_ces_step (cells : List CellParams) (t : Terminal) (e : Event) :
    ∃ sent left pushed, t.channels.ces = sent ++ left ∧
      (t.step cells e).channels.ces = left ++ pushed ∧ ∀ ce ∈ sent, t.Emits ce e := by
  cases e with
  | act action =>
      obtain ⟨pushed, hpushed⟩ := exists_ces_perform t action
      exact ⟨[], _, pushed, rfl, hpushed, by simp⟩
  | withdrawRequest => exact ⟨[], _, [], rfl, (List.append_nil _).symm, by simp⟩
  | configure c pools =>
      refine ⟨[], _, [], rfl, ?_, by simp⟩
      rw [List.append_nil, step, setConfig]
      split
      · rfl
      · exact t.ces_apply c pools
  | boundary now pools =>
      by_cases hnow : t.lastTti = some now
      · rw [step, newTti_of_last hnow]
        exact ⟨[], _, [], rfl, (List.append_nil _).symm, by simp⟩
      · exact ⟨[], _, _, rfl, ces_newTti hnow pools, by simp⟩
  | grantDownlink tx carrier pid mask dci =>
      obtain ⟨sent, hces, hsent⟩ := t.ces_grantDownlink tx carrier pid mask dci
      exact ⟨sent, _, [], hces.symm, (List.append_nil _).symm, hsent⟩
  | grantUplink tx carrier pid interval dci =>
      refine ⟨[], _, [], rfl, ?_, by simp⟩
      rw [List.append_nil]
      exact t.ces_grantUplink tx carrier pid interval dci

end MacScheduler.Terminal
