import MacScheduler.Proofs.Terminal.Standing

/-!
# The last thing a carrier was told

Requests and configurations tell a secondary carrier whether to be active.  A command
queued last is carried out last, but it leaves a carrier alone that is on its way out
of service; and a configuration that finds the carrier as it wants it queues nothing,
whatever older commands still wait.  In these two cases the carrier ends otherwise than
it was told last, and in no other.
-/

namespace MacScheduler

namespace Activation

theorem isUp_ended (ceQueued : Bool) (state : Activation) :
    (state.ended ceQueued).isUp = state.isUp := by
  cases ceQueued <;> cases state <;> rfl

/-- Only an activation that meets a carrier being deactivated is lost. -/
theorem isUp_obey (state : Activation) (activate : Bool) :
    (state.obey activate).isUp = (activate && decide (state ≠ .deactivating)) := by
  cases activate <;> cases state <;> rfl

theorem active_iff_isUp {state : Activation} (h : state = .idle ∨ state = .active) :
    state = .active ↔ state.isUp = true := by
  rcases h with rfl | rfl <;> decide

end Activation

namespace Terminal

variable {cells : List CellParams} {t : Terminal} {carrier : Nat}

/-- No event of a run tells a carrier anything. -/
def untold (cells : List CellParams) (carrier : Nat) : Terminal → List Event → Bool
  | _, [] => true
  | t, e :: es =>
      (t.tells? cells carrier e).isNone && untold cells carrier (t.step cells e) es

/-- The activation in which the next boundary of a run finds a carrier, its transition ended;
the present one when no boundary comes. -/
def found? (cells : List CellParams) (carrier : Nat) : Terminal → List Event → Option Activation
  | t, [] => t.state? carrier
  | t, e :: es =>
      if e.passes t.lastTti then (t.state? carrier).map (·.ended t.ceQueued)
      else found? cells carrier (t.step cells e) es

theorem state?_of_stance? {s : Stance} (hs : t.stance? carrier = some s) :
    t.state? carrier = some s.state := by
  obtain ⟨l, hl, -, rfl⟩ := stance?_eq_some_iff.mp hs
  rw [state?, hl, Option.map_some]

/-- Where a carrier stands that an event told nothing. -/
theorem Formed.of_stance?_untold (h : t.Formed cells) (hcells : CellParams.Numbered cells)
    {e : Event} (htells : t.tells? cells carrier e = none) {s' : Stance}
    (hs' : (t.step cells e).stance? carrier = some s') :
    ∃ s, t.stance? carrier = some s ∧
      s' = if e.passes t.lastTti then
          ⟨s.position, (s.state.ended t.ceQueued).obeyAll s.queued, []⟩ else s := by
  cases hpasses : e.passes t.lastTti with
  | true =>
      cases e with
      | boundary now pools =>
          have hnow : t.lastTti ≠ some now := by simpa [Event.passes] using hpasses
          rw [Terminal.step, h.stance?_newTti hnow] at hs'
          obtain ⟨s, hs, rfl⟩ := Option.map_eq_some_iff.mp hs'
          exact ⟨s, hs, rfl⟩
      | _ => cases hpasses
  | false =>
      cases hconfigure : e.isConfigure with
      | false =>
          rw [h.stance?_step hconfigure hpasses, htells] at hs'
          obtain ⟨s, hs, rfl⟩ := Option.map_eq_some_iff.mp hs'
          exact ⟨s, hs, by simp⟩
      | true =>
          cases e with
          | configure c pools =>
              rcases h.setConfig_cases c pools with ⟨_, -, heq⟩ | ⟨-, hok, -⟩
              · rw [Terminal.step, heq] at hs'
                exact ⟨s', hs', rfl⟩
              · -- a configuration that keeps the carrier tells it something
                obtain ⟨active, htold, -⟩ := h.of_stance?_setConfig hcells hok hs'
                rw [htells] at htold
                cases htold
          | _ => cases hconfigure

/-- A carrier that is told nothing more ends where the next boundary takes it. -/
theorem Formed.of_stance?_run (h : t.Formed cells) (hcells : CellParams.Numbered cells)
    {es : List Event} (hes : untold cells carrier t es = true) {s' : Stance}
    (hs' : (t.run cells es).stance? carrier = some s') :
    ∃ s, t.stance? carrier = some s ∧ s'.position = s.position ∧
      (s' = s ∧ found? cells carrier t es = some s.state ∨
        ∃ ceQueued, found? cells carrier t es = some (s.state.ended ceQueued) ∧
          s'.state.isUp = ((s.state.ended ceQueued).obeyAll s.queued).isUp) := by
  induction es generalizing t with
  | nil => exact ⟨s', hs', rfl, .inl ⟨rfl, state?_of_stance? hs'⟩⟩
  | cons e es ih =>
      obtain ⟨htells, hes⟩ := Bool.and_eq_true_iff.mp hes
      obtain ⟨s₁, hs₁, hposition, hend⟩ := ih (h.step hcells e) hes hs'
      obtain ⟨s, hs, heq⟩ :=
        h.of_stance?_untold hcells (Option.isNone_iff_eq_none.mp htells) hs₁
      rw [found?]
      cases hpasses : e.passes t.lastTti with
      | true =>
          rw [hpasses, if_pos rfl] at heq
          refine ⟨s, hs, by rw [hposition, heq], .inr ⟨t.ceQueued, ?_, ?_⟩⟩
          · rw [if_pos rfl, state?_of_stance? hs, Option.map_some]
          · -- the queue is empty from here on
            rcases hend with ⟨rfl, -⟩ | ⟨ceQueued, -, hup⟩
            · rw [heq]
            · rw [hup, heq]
              exact Activation.isUp_ended ceQueued _
      | false =>
          rw [hpasses, if_neg Bool.false_ne_true] at heq
          rw [if_neg Bool.false_ne_true]
          exact ⟨s, hs, heq ▸ hposition, heq ▸ hend⟩

/-- What a carrier is told joins its queue, unless it comes from a configuration that finds the
carrier as it wants it. -/
theorem Formed.queued_of_tells (h : t.Formed cells) (hcells : CellParams.Numbered cells)
    {e : Event} {activate : Bool} (htells : t.tells? cells carrier e = some activate) {s : Stance}
    (hs : (t.step cells e).stance? carrier = some s) :
    s.queued = commandsAt s.position t.commands ++ [activate] ∨
      s.queued = commandsAt s.position t.commands ∧ e.isConfigure = true ∧
        s.state.obey activate = s.state := by
  cases e with
  | act action =>
      rw [h.stance?_step rfl rfl, htells] at hs
      obtain ⟨s₀, hs₀, rfl⟩ := Option.map_eq_some_iff.mp hs
      obtain ⟨l, -, -, rfl⟩ := stance?_eq_some_iff.mp hs₀
      exact .inl rfl
  | configure c pools =>
      have hok : (t.setConfig c cells pools).1 = .ok () := by
        by_contra hne
        rw [tells?, if_neg hne] at htells
        cases htells
      obtain ⟨active, htold, hqueued⟩ := h.of_stance?_setConfig hcells hok hs
      obtain rfl := Option.some.inj (htells.symm.trans htold)
      split at hqueued
      · rename_i hobeys
        exact .inr ⟨hqueued.trans (List.append_nil _), rfl, hobeys⟩
      · exact .inl hqueued
  | withdrawRequest => cases htells
  | boundary => cases htells
  | grantDownlink => cases htells
  | grantUplink => cases htells

/-- A secondary carrier at rest without commands pending is active as it was told last, save in
two cases.  A command to activate is lost when the boundary finds the carrier deactivating,
after the older commands of the position.  And a configuration that queues no command gives way
to the older ones. -/
theorem active_iff_told (config : Config) {rnti : Rnti} {c : TerminalConfig}
    {pools pools' : PucchPools} {t₀ : Terminal}
    (h : create rnti c (CellParams.all config) pools = (.ok t₀, pools'))
    {es before after : List Event} {e : Event}
    (hes : .configure c pools :: es = before ++ e :: after) {carrier : Nat} {activate : Bool}
    (htells : ((blank rnti c).run (CellParams.all config) before).tells? (CellParams.all config)
      carrier e = some activate)
    (hafter : untold (CellParams.all config) carrier
      (((blank rnti c).run (CellParams.all config) before).step (CellParams.all config) e)
      after = true)
    {s : Stance} (hs : (t₀.run (CellParams.all config) es).stance? carrier = some s)
    (hpending : s.queued = []) (hrest : s.state = .idle ∨ s.state = .active) :
    let cells := CellParams.all config
    let t := (blank rnti c).run cells before
    let older := commandsAt s.position t.commands
    let told := commandsAt s.position (t.step cells e).commands
    ∃ met, (found? cells carrier (t.step cells e) after).map (·.obeyAll older) = some met ∧
      (told = older ++ [activate] ∧
          ((s.state = .active ↔ activate = true) ↔ (activate = true → met ≠ .deactivating)) ∨
        told = older ∧ e.isConfigure = true ∧
          ((s.state = .active ↔ activate = true) ↔ met.isUp = activate)) := by
  intro cells t older told
  have hcells : CellParams.Numbered cells := CellParams.numbered_all config
  have ht : t.Formed cells := (formed_blank rnti c).run hcells before
  have hrun : t₀.run cells es = (t.step cells e).run cells after := by
    have hall := congrArg ((blank rnti c).run cells) hes
    rw [run_append, run, step_blank_of_create h] at hall
    exact hall
  rw [hrun] at hs
  obtain ⟨s₁, hs₁, hposition, hend⟩ := (ht.step hcells e).of_stance?_run hcells hafter hs
  have htold : told = s₁.queued := by
    obtain ⟨l, -, -, rfl⟩ := stance?_eq_some_iff.mp hs₁
    exact congrArg (commandsAt · (t.step cells e).commands) hposition
  have holder : older = commandsAt s₁.position t.commands :=
    congrArg (commandsAt · t.commands) hposition
  -- with or without a boundary, the carrier went where its queue took it
  obtain ⟨met, hmet, hup⟩ : ∃ met, found? cells carrier (t.step cells e) after = some met ∧
      s.state.isUp = (met.obeyAll told).isUp := by
    rw [htold]
    rcases hend with ⟨rfl, hfound⟩ | ⟨ceQueued, hfound, hup⟩
    · exact ⟨_, hfound, by rw [hpending]; rfl⟩
    · exact ⟨_, hfound, hup⟩
  refine ⟨met.obeyAll older, by rw [hmet, Option.map_some], ?_⟩
  have hactive := Activation.active_iff_isUp hrest
  rcases ht.queued_of_tells hcells htells hs₁ with hqueued | ⟨hqueued, hconfigure, -⟩
  · left
    rw [← htold, ← holder] at hqueued
    refine ⟨hqueued, ?_⟩
    rw [hqueued, Activation.obeyAll, List.foldl_append] at hup
    have hlast : s.state.isUp = ((met.obeyAll older).obey activate).isUp := hup
    rw [Activation.isUp_obey] at hlast
    rw [hactive, hlast]
    cases activate <;> simp
  · right
    rw [← htold, ← holder] at hqueued
    refine ⟨hqueued, hconfigure, ?_⟩
    rw [hactive, hup, hqueued]
    exact Bool.eq_iff_iff.symm

def boundaryAt (n : Nat) : Event := .boundary (Tti.ofNat n) (unusedPools threeCells)

/-- A downlink grant on the primary carrier that takes every control element out of the queue. -/
def drainAt (n : Nat) : Event :=
  .grantDownlink (Tti.ofNat n).downlinkTx 0 (n % 8) (.ofList 13 [0]) ⟨0, 0⟩

/-- A carrier is told to be active and comes to be. -/
def switchedOn (carrier : Nat) : List Event :=
  [boundaryAt 10, .act (.requestActivation carrier true), boundaryAt 11, drainAt 12,
    boundaryAt 12]

theorem active_switchedOn :
    let cells := CellParams.all threeCells
    (bothIdle.run cells (switchedOn 1)).stance? 1 = some ⟨1, .active, []⟩ ∧
      ∃ met, (found? cells 1 (bothIdle.run cells ((switchedOn 1).take 2))
          ((switchedOn 1).drop 2)).map (·.obeyAll []) = some met ∧ met ≠ .deactivating := by
  intro cells
  let first := Event.configure (idleCarriers [1, 2]) (unusedPools threeCells)
  let on := Event.act (.requestActivation 1 true)
  let t := (blank ⟨70⟩ (idleCarriers [1, 2])).run cells [first, boundaryAt 10]
  have hcreate : create ⟨70⟩ (idleCarriers [1, 2]) cells (unusedPools threeCells) =
      (.ok bothIdle, (create ⟨70⟩ (idleCarriers [1, 2]) cells (unusedPools threeCells)).2) := rfl
  have hevents : first :: switchedOn 1 =
      [first, boundaryAt 10] ++ on :: (switchedOn 1).drop 2 := rfl
  have htells : t.tells? cells 1 on = some true := by decide +kernel
  have huntold : untold cells 1 (t.step cells on) ((switchedOn 1).drop 2) = true := by
    decide +kernel
  have hactive : (bothIdle.run cells (switchedOn 1)).stance? 1 = some ⟨1, .active, []⟩ := by
    decide +kernel
  obtain ⟨met, hmet, ⟨-, hprevails⟩ | ⟨hsame, -⟩⟩ :=
    active_iff_told threeCells hcreate hevents htells huntold hactive rfl (.inr rfl)
  · exact ⟨hactive, met, hmet, hprevails.mp (by simp) rfl⟩
  · revert hsame
    decide +kernel

/-- Carrier 2 is being deactivated when both secondary carriers are told to be active. -/
def toldOn : List Event :=
  switchedOn 2 ++ [.act (.requestActivation 2 false), boundaryAt 13,
    .act (.requestActivation 1 true), .act (.requestActivation 2 true)]

/-- A configuration asks for carrier 2 only; then carrier 1 ends active, and carrier 2 idle. -/
theorem rests_against_last_told :
    let cells := CellParams.all threeCells
    let c := { idleCarriers [1, 2] with carriers := [⟨0, true⟩, ⟨1, false⟩, ⟨2, true⟩] }
    let last := Event.configure c (unusedPools threeCells)
    let after := [boundaryAt 14, drainAt 15, boundaryAt 15]
    let t := bothIdle.run cells toldOn
    let u := bothIdle.run cells (toldOn ++ last :: after)
    (t.tells? cells 1 last = some false ∧ untold cells 1 (t.step cells last) after = true ∧
        u.stance? 1 = some ⟨1, .active, []⟩) ∧
      t.tells? cells 2 last = some true ∧ untold cells 2 (t.step cells last) after = true ∧
      u.stance? 2 = some ⟨2, .idle, []⟩ := by
  refine ⟨⟨?_, ?_, ?_⟩, ?_, ?_, ?_⟩ <;> decide +kernel

end Terminal

end MacScheduler
