import MacScheduler.Proofs.Terminal.Activation

/-!
# Where a carrier stands

The activation of a carrier changes at boundaries only.  Between boundaries its
commands are queued, by requests and by configurations: a request always queues its
command, while a configuration compares what it asks for with the present activation
and queues nothing where the two agree.
-/

namespace MacScheduler

namespace Activation

/-- Active, or about to be. -/
def isUp (state : Activation) : Bool := decide (state = .active) || decide (state = .activating)

/-- The activation once a boundary has ended the transition, which waits while an element is
queued. -/
def ended (ceQueued : Bool) (state : Activation) : Activation :=
  if ceQueued then state
  else
    match state with
    | .activating => .active
    | .deactivating => .idle
    | .idle | .active => state

end Activation

/-- What a configuration asks for on a secondary carrier. -/
def TerminalConfig.secondary? (c : TerminalConfig) (carrier : Nat) : Option Bool :=
  (c.carriers.tail.find? fun cc ↦ decide (cc.index = carrier)).map (·.active)

theorem TerminalConfig.secondary?_of_getElem? {c : TerminalConfig}
    (hnodup : (c.carriers.map (·.index)).Nodup) {i : Nat} (hi : i ≠ 0) {cc : CarrierConfig}
    (hcc : c.carriers[i]? = some cc) : c.secondary? cc.index = some cc.active := by
  have hmem : cc ∈ c.carriers.tail := by
    refine List.mem_iff_getElem?.mpr ⟨i - 1, ?_⟩
    rw [List.getElem?_tail, Nat.sub_add_cancel (Nat.pos_of_ne_zero hi), hcc]
  unfold secondary?
  cases hfind : c.carriers.tail.find? fun k ↦ decide (k.index = cc.index) with
  | none => simpa using List.find?_eq_none.mp hfind cc hmem
  | some k =>
      have hk : k ∈ c.carriers.tail := List.mem_of_find?_eq_some hfind
      have hindex : k.index = cc.index := by simpa using List.find?_some hfind
      rw [List.inj_on_of_nodup_map hnodup (List.mem_of_mem_tail hk)
        (List.mem_of_mem_tail hmem) hindex, Option.map_some]

namespace Link

theorem state_commanded (ceQueued : Bool) (commands : List Bool) (l : Link) :
    (l.commanded ceQueued commands).state = (l.state.ended ceQueued).obeyAll commands := by
  have hcomplete : (Terminal.completeTransition ceQueued l).state = l.state.ended ceQueued := by
    unfold Terminal.completeTransition Activation.ended
    cases ceQueued <;> cases hstate : l.state <;> simp [hstate]
  rw [← hcomplete]
  rfl

/-- What places a link and its activation. -/
def standing (l : Link) : Nat × Nat × Activation := (l.carrier, l.position, l.state)

end Link

namespace Terminal

variable {cells : List CellParams} {c : TerminalConfig} {t t' : Terminal} {carrier : Nat}

/-- A secondary carrier's position, its activation and the commands queued for the position. -/
structure Stance where
  position : Nat
  state : Activation
  queued : List Bool
deriving DecidableEq

def stance? (t : Terminal) (carrier : Nat) : Option Stance :=
  ((t.link? carrier).filter fun l ↦ decide (l.position ≠ 0)).map fun l ↦
    ⟨l.position, l.state, commandsAt l.position t.commands⟩

theorem stance?_eq_some_iff {s : Stance} :
    t.stance? carrier = some s ↔ ∃ l, t.link? carrier = some l ∧ l.position ≠ 0 ∧
      s = ⟨l.position, l.state, commandsAt l.position t.commands⟩ := by
  unfold stance?
  rw [Option.map_eq_some_iff]
  constructor
  · rintro ⟨l, hl, rfl⟩
    obtain ⟨hl, hposition⟩ := Option.filter_eq_some_iff.mp hl
    exact ⟨l, hl, by simpa using hposition, rfl⟩
  · rintro ⟨l, hl, hposition, rfl⟩
    exact ⟨l, Option.filter_eq_some_iff.mpr ⟨hl, by simpa using hposition⟩, rfl⟩

/-! ## Actions and grants -/

theorem standing_of_change {uses : PrbInterval → Prop} {l l' : Link} (h : l.Change uses l') :
    l'.standing = l.standing := by
  cases h with
  | reported m received => cases m <;> rfl
  | _ => rfl

theorem Changes.map_standing (h : t.Changes (fun _ ↦ True) t') :
    t'.links.map Link.standing = t.links.map Link.standing :=
  map_eq_of_forall₂ h.links fun _ _ hchange ↦ standing_of_change hchange

theorem commands_perform (t : Terminal) (action : Action) :
    (t.perform action).2.commands = t.commands ++ t.queuedBy action :=
  congrArg Terminal.commands (perform_withCommands t t.commands action)

theorem commands_grantDownlink (t : Terminal) (tx : Tti) (carrier pid : Nat) (mask : RbgMask)
    (dci : DciLocation) : (t.grantDownlink tx carrier pid mask dci).2.commands = t.commands :=
  (congrArg Terminal.commands
    (grantDownlink_withCommands t t.commands tx carrier pid mask dci) :)

theorem commands_grantUplink (t : Terminal) (tx : Tti) (carrier pid : Nat)
    (interval : PrbInterval) (dci : Option DciLocation) :
    (t.grantUplink tx carrier pid interval dci).2.commands = t.commands :=
  (congrArg Terminal.commands
    (grantUplink_withCommands t t.commands tx carrier pid interval dci) :)

theorem commands_apply (t : Terminal) (cells : List CellParams) (c : TerminalConfig)
    (pools : PucchPools) :
    (t.apply cells c pools).2.1.commands =
      t.commands ++ (t.placeLinks cells c 0 c.carriers).2 :=
  congrArg Terminal.commands (apply_withCommands t t.commands c pools)

theorem commands_newTti {now : Tti} (hnow : t.lastTti ≠ some now) (pools : PucchPools) :
    (t.newTti now pools).1.commands = [] := by
  rw [newTti, if_neg hnow]
  rfl

/-- Only boundaries and configurations change where links stand. -/
theorem map_standing_step (t : Terminal) {e : Event} (hconfigure : e.isConfigure = false)
    (hpasses : e.passes t.lastTti = false) :
    (t.step cells e).links.map Link.standing = t.links.map Link.standing := by
  cases e with
  | act action => exact (Changes.perform t action).map_standing
  | withdrawRequest => rfl
  | configure => cases hconfigure
  | boundary now pools => rw [step, newTti_of_last (by simpa [Event.passes] using hpasses)]
  | grantDownlink tx carrier pid mask dci =>
      exact (Changes.grantDownlink t tx carrier pid mask dci).map_standing
  | grantUplink tx carrier pid interval dci =>
      exact (Changes.grantUplink t tx carrier pid trivial dci).map_standing

/-! ## Configurations -/

theorem placeCommand_eq (position : Nat) (active : Bool) (state : Activation) :
    placeCommand position active state =
      if position = 0 ∨ state.obey active = state then [] else [(position, active)] := by
  unfold placeCommand
  by_cases hposition : position = 0
  · simp [hposition]
  · cases active <;> cases state <;> simp [hposition, Activation.obey]

/-- Placing carriers from a position on queues commands for these positions only, and none
for the primary carrier. -/
theorem of_mem_placeLinks (t : Terminal) (c : TerminalConfig) {position : Nat}
    {carriers : List CarrierConfig} {command : Nat × Bool}
    (h : command ∈ (t.placeLinks cells c position carriers).2) :
    position ≤ command.1 ∧ command.1 ≠ 0 := by
  induction carriers generalizing position with
  | nil => cases h
  | cons cc carriers ih =>
      rw [placeLinks] at h
      cases hplace : placeLink t cells c position cc with
      | error e => simp [hplace] at h
      | ok l =>
          simp only [hplace, placeCommand_eq] at h
          rcases List.mem_append.mp h with h | h
          · split at h
            · cases h
            · rename_i hqueues
              obtain rfl := List.mem_singleton.mp h
              exact ⟨Nat.le_refl position, fun hzero ↦ hqueues (.inl hzero)⟩
          · obtain ⟨hle, hne⟩ := ih h
            exact ⟨by omega, hne⟩

theorem commandsAt_eq_nil {position : Nat} {commands : List (Nat × Bool)}
    (h : ∀ command ∈ commands, command.1 ≠ position) : commandsAt position commands = [] := by
  unfold commandsAt
  rw [List.filter_eq_nil_iff.mpr fun command hcommand ↦ by simpa using h command hcommand,
    List.map_nil]

/-- A configuration queues its command for a carrier where that changes the activation. -/
theorem commandsAt_placeLinks {carriers : List CarrierConfig} {position : Nat} {links : List Link}
    (hplace : (t.placeLinks cells c position carriers).1 = .ok links) {i : Nat}
    {cc : CarrierConfig} (hcc : carriers[i]? = some cc) {l : Link} (hl : links[i]? = some l) :
    commandsAt (position + i) (t.placeLinks cells c position carriers).2 =
      if position + i = 0 ∨ l.state.obey cc.active = l.state then [] else [cc.active] := by
  induction carriers generalizing position links i with
  | nil => simp at hcc
  | cons cc' carriers ih =>
      rw [placeLinks] at hplace ⊢
      cases hlink : placeLink t cells c position cc' with
      | error e => simp [hlink] at hplace
      | ok l' =>
          simp only [hlink] at hplace ⊢
          cases hrest : (t.placeLinks cells c (position + 1) carriers).1 with
          | error e => simp [hrest, Except.map] at hplace
          | ok rest =>
              rw [hrest] at hplace
              obtain rfl : l' :: rest = links := Except.ok.inj hplace
              rw [commandsAt_append]
              cases i with
              | zero =>
                  obtain rfl : cc' = cc := by simpa using hcc
                  obtain rfl : l' = l := by simpa using hl
                  have hlater : commandsAt position
                      (t.placeLinks cells c (position + 1) carriers).2 = [] :=
                    commandsAt_eq_nil fun command hcommand ↦ by
                      have := of_mem_placeLinks t c hcommand
                      omega
                  rw [Nat.add_zero, hlater, List.append_nil, placeCommand_eq]
                  split
                  · rfl
                  · exact commandsAt_cons_self position cc'.active []
              | succ i =>
                  have hshift : position + (i + 1) = position + 1 + i := by omega
                  have hearlier : commandsAt (position + (i + 1))
                      (placeCommand position cc'.active l'.state) = [] :=
                    commandsAt_eq_nil fun command hcommand ↦ by
                      rw [placeCommand_eq] at hcommand
                      split at hcommand
                      · cases hcommand
                      · rw [List.mem_singleton.mp hcommand]
                        simp
                  rw [hearlier, List.nil_append, hshift]
                  exact ih hrest (by simpa using hcc) (by simpa using hl)

/-- Where a secondary carrier stands after a configuration, its commands are those left at the
position and the one that the configuration adds. -/
theorem Formed.of_stance?_apply (h : t.Formed cells) (hcells : CellParams.Numbered cells)
    (hc : c.check cells.length = .ok ()) {pools : PucchPools} {s : Stance}
    (hs : (t.apply cells c pools).2.1.stance? carrier = some s) :
    ∃ active, c.secondary? carrier = some active ∧
      s.queued = commandsAt s.position t.commands ++
        if s.state.obey active = s.state then [] else [active] := by
  obtain ⟨-, hr⟩ := h.apply hc pools
  obtain ⟨-, -, hlinks⟩ := t.apply_links cells c pools
  have hcommands := t.commands_apply cells c pools
  generalize (t.apply cells c pools).2.1 = t' at hs hr hlinks hcommands
  have hnodup := (of_check hc).1
  have hformed := hr.formed h hcells hnodup
  obtain ⟨l, hl, hposition, rfl⟩ := stance?_eq_some_iff.mp hs
  obtain ⟨hmem, rfl⟩ := of_link? hl
  obtain ⟨i, hi⟩ := List.mem_iff_getElem?.mp hmem
  obtain rfl := hformed.position_eq i l hi
  have hindex : (c.carriers.map (·.index))[l.position]? = some l.carrier := by
    rw [← hr.config_eq, ← hformed.carriers_eq, List.getElem?_map, hi, Option.map_some]
  rw [List.getElem?_map, Option.map_eq_some_iff] at hindex
  obtain ⟨cc, hcc, hindex⟩ := hindex
  refine ⟨cc.active, hindex ▸ TerminalConfig.secondary?_of_getElem? hnodup hposition hcc, ?_⟩
  have hplace : (t.placeLinks cells c 0 c.carriers).1 = .ok t'.links :=
    hlinks.resolve_left fun hnil ↦ by simp [hnil] at hmem
  have hqueued := commandsAt_placeLinks hplace hcc hi
  rw [Nat.zero_add] at hqueued
  dsimp only
  rw [hcommands, commandsAt_append, hqueued]
  simp only [hposition, false_or]

/-! ## What an event tells a carrier -/

/-- What an event that is accepted asks for on a secondary carrier. -/
def tells? (cells : List CellParams) (t : Terminal) (carrier : Nat) : Event → Option Bool
  | .act (.requestActivation k activate) =>
      if k = carrier ∧ (t.requestActivation k activate).1 = .ok () then some activate else none
  | .configure c pools =>
      if (t.setConfig c cells pools).1 = .ok () then c.secondary? carrier else none
  | _ => none

theorem map_standing_link? (h : t'.links.map Link.standing = t.links.map Link.standing)
    (carrier : Nat) :
    (t'.link? carrier).map Link.standing = (t.link? carrier).map Link.standing := by
  have hfind : ∀ u : Terminal, (u.link? carrier).map Link.standing =
      (u.links.map Link.standing).find? fun standing ↦ decide (standing.1 = carrier) := fun u ↦ by
    rw [List.find?_map]
    rfl
  rw [hfind, hfind, h]

theorem stance?_of_same_standing (h : t'.links.map Link.standing = t.links.map Link.standing)
    (carrier : Nat) :
    t'.stance? carrier =
      (t.stance? carrier).map fun s ↦ { s with queued := commandsAt s.position t'.commands } := by
  have hlink := map_standing_link? h carrier
  unfold stance?
  cases hl : t.link? carrier with
  | none =>
      rw [hl, Option.map_none, Option.map_eq_none_iff] at hlink
      rw [hlink]
      rfl
  | some l =>
      rw [hl, Option.map_some, Option.map_eq_some_iff] at hlink
      obtain ⟨l', hl', hstanding⟩ := hlink
      obtain ⟨-, hposition, hstate⟩ : l'.carrier = l.carrier ∧ l'.position = l.position ∧
          l'.state = l.state := by simpa [Link.standing] using hstanding
      rw [hl']
      by_cases hzero : l.position = 0 <;> simp [Option.filter, hposition, hstate, hzero]

theorem queuedBy_requestActivation (t : Terminal) (k : Nat) (activate : Bool) :
    t.queuedBy (.requestActivation k activate) =
      if (t.requestActivation k activate).1 = .ok () then
        [((t.config.position? k).getD 0, activate)] else [] := by
  rcases hposition : t.config.position? k with _ | _ | position <;>
    simp [queuedBy, requestActivation, hposition]

/-- A request queues its command for the carrier that it names, and for no other. -/
theorem Formed.commandsAt_queuedBy (h : t.Formed cells) {s : Stance}
    (hs : t.stance? carrier = some s) (action : Action) :
    commandsAt s.position (t.queuedBy action) =
      (t.tells? cells carrier (.act action)).toList := by
  obtain ⟨l, hl, -, rfl⟩ := stance?_eq_some_iff.mp hs
  have hposition := h.position?_of_link? hl
  cases action with
  | requestActivation k activate =>
      rw [queuedBy_requestActivation, tells?]
      by_cases hok : (t.requestActivation k activate).1 = .ok ()
      · by_cases hk : k = carrier
        · subst hk
          rw [if_pos hok, if_pos ⟨rfl, hok⟩, hposition]
          exact commandsAt_cons_self l.position activate []
        · rw [if_pos hok, if_neg fun hand ↦ hk hand.1]
          cases hother : t.config.position? k with
          | none => simp [requestActivation, hother] at hok
          | some j =>
              -- another carrier stands at another position
              have hne : j ≠ l.position := by
                rintro rfl
                obtain ⟨cc, hcc, hindex⟩ := TerminalConfig.of_position? hother
                obtain ⟨cc', hcc', hindex'⟩ := TerminalConfig.of_position? hposition
                rw [hcc] at hcc'
                obtain rfl := Option.some.inj hcc'
                exact hk (hindex.symm.trans hindex')
              exact commandsAt_cons_of_ne hne activate []
      · rw [if_neg hok, if_neg fun hand ↦ hok hand.2]
        rfl
  | _ => rfl

/-- Between boundaries and configurations a carrier stays where it stands, and its queue takes
what it is told. -/
theorem Formed.stance?_step (h : t.Formed cells) {e : Event} (hconfigure : e.isConfigure = false)
    (hpasses : e.passes t.lastTti = false) (carrier : Nat) :
    (t.step cells e).stance? carrier = (t.stance? carrier).map fun s ↦
      { s with queued := s.queued ++ (t.tells? cells carrier e).toList } := by
  rw [stance?_of_same_standing (t.map_standing_step hconfigure hpasses) carrier]
  cases hs : t.stance? carrier with
  | none => rfl
  | some s =>
      obtain ⟨l, -, -, rfl⟩ := stance?_eq_some_iff.mp hs
      rw [Option.map_some, Option.map_some]
      cases e with
      | act action =>
          rw [Terminal.step, commands_perform, commandsAt_append, h.commandsAt_queuedBy hs action]
      | withdrawRequest => simp [Terminal.step, Terminal.withdrawRequest, tells?]
      | configure => cases hconfigure
      | boundary now pools =>
          rw [Terminal.step, newTti_of_last (by simpa [Event.passes] using hpasses)]
          simp [tells?]
      | grantDownlink tx k pid mask dci =>
          rw [Terminal.step, commands_grantDownlink]
          simp [tells?]
      | grantUplink tx k pid interval dci =>
          rw [Terminal.step, commands_grantUplink]
          simp [tells?]

/-- A boundary ends a transition and then carries out the commands queued. -/
theorem Formed.stance?_newTti (h : t.Formed cells) {now : Tti} (hnow : t.lastTti ≠ some now)
    (pools : PucchPools) (carrier : Nat) :
    (t.newTti now pools).1.stance? carrier = (t.stance? carrier).map fun s ↦
      ⟨s.position, (s.state.ended t.ceQueued).obeyAll s.queued, []⟩ := by
  unfold stance?
  rw [h.link?_newTti hnow, commands_newTti hnow]
  cases t.link? carrier with
  | none => rfl
  | some l =>
      have hposition := ((Link.Lives.commanded t.ceQueued
        (commandsAt l.position t.commands) l).trans (.newTti _ now)).position_eq
      have hstate : ((l.commanded t.ceQueued (commandsAt l.position t.commands)).newTti
          now).2.state = _ :=
        Link.state_commanded t.ceQueued (commandsAt l.position t.commands) l
      rw [Option.map_some]
      generalize ((l.commanded t.ceQueued (commandsAt l.position t.commands)).newTti now).2 = l'
        at hposition hstate
      by_cases hzero : l.position = 0 <;>
        simp [Option.filter, commandsAt_eq_nil, hposition, hzero, hstate]

/-- A configuration that is accepted tells every secondary carrier that it keeps or adds. -/
theorem Formed.of_stance?_setConfig (h : t.Formed cells) (hcells : CellParams.Numbered cells)
    {pools : PucchPools} (hok : (t.setConfig c cells pools).1 = .ok ()) {s : Stance}
    (hs : (t.setConfig c cells pools).2.1.stance? carrier = some s) :
    ∃ active, t.tells? cells carrier (.configure c pools) = some active ∧
      s.queued = commandsAt s.position t.commands ++
        if s.state.obey active = s.state then [] else [active] := by
  have htells : t.tells? cells carrier (.configure c pools) = c.secondary? carrier := if_pos hok
  rw [htells]
  unfold Terminal.setConfig at hok hs
  cases hc : c.check cells.length with
  | error e => simp [hc] at hok
  | ok _ =>
      simp only [hc] at hs
      exact h.of_stance?_apply hcells hc hs

end Terminal

end MacScheduler
