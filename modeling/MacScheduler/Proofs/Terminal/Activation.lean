import MacScheduler.Proofs.Terminal.Run

/-!
# Activation commands and reconfigurations

A command is queued for the position at which its carrier stood when it was given.
Nothing reads the queue before the next boundary, so two runs that differ in one
command agree up to there; at the boundary the command acts on whichever carrier
stands at the position by then, and on no other.
-/

namespace MacScheduler

namespace Terminal

variable {cells : List CellParams} {t : Terminal}

/-- The terminal with other commands queued. -/
def withCommands (t : Terminal) (commands : List (Nat × Bool)) : Terminal := { t with commands }

/-! ## Nothing reads the queue between boundaries -/

section Unread

variable (t) (q : List (Nat × Bool))

theorem placeLinks_withCommands (c : TerminalConfig) (position : Nat)
    (carriers : List CarrierConfig) :
    (t.withCommands q).placeLinks cells c position carriers =
      t.placeLinks cells c position carriers := by
  induction carriers generalizing position with
  | nil => rfl
  | cons cc carriers ih =>
      have hplace : placeLink (t.withCommands q) cells c position cc =
          placeLink t cells c position cc := rfl
      rw [placeLinks, placeLinks, hplace, ih]

theorem apply_withCommands (c : TerminalConfig) (pools : PucchPools) :
    ((t.withCommands q).apply cells c pools).2.1 =
      (t.apply cells c pools).2.1.withCommands
        (q ++ (t.placeLinks cells c 0 c.carriers).2) := by
  unfold apply
  rw [placeLinks_withCommands]
  rcases t.placeLinks cells c 0 c.carriers with ⟨e | links, commands⟩
  · rfl
  · have hchannels : (t.withCommands q).channels = t.channels := rfl
    dsimp only
    rw [hchannels]
    rcases applyBearers t.channels c.bearers with ⟨e | _, channels⟩ <;> rfl

theorem grantDownlink_withCommands (tx : Tti) (carrier pid : Nat) (mask : RbgMask)
    (dci : DciLocation) :
    ((t.withCommands q).grantDownlink tx carrier pid mask dci).2 =
      (t.grantDownlink tx carrier pid mask dci).2.withCommands q := by
  have hlink : (t.withCommands q).link? carrier = t.link? carrier := rfl
  have hpending : (t.withCommands q).downlinkPending = t.downlinkPending := rfl
  unfold grantDownlink
  rw [hlink, hpending]
  cases t.link? carrier with
  | none => rfl
  | some l =>
      dsimp only
      split
      · rcases l.resendDownlink tx pid mask with ⟨e | tbs, l'⟩ <;> rfl
      · rcases l.startDownlink tx pid mask t.downlinkPending with ⟨e | tbs, l'⟩ <;> rfl

theorem grantUplink_withCommands (tx : Tti) (carrier pid : Nat) (interval : PrbInterval)
    (dci : Option DciLocation) :
    ((t.withCommands q).grantUplink tx carrier pid interval dci).2 =
      (t.grantUplink tx carrier pid interval dci).2.withCommands q := by
  have hlink : (t.withCommands q).link? carrier = t.link? carrier := rfl
  have hpending : (t.withCommands q).uplinkPending = t.uplinkPending := rfl
  unfold grantUplink
  rw [hlink, hpending]
  cases t.link? carrier with
  | none => rfl
  | some l =>
      dsimp only
      split
      · rcases l.resendUplink tx pid interval with ⟨e | tb, l'⟩ <;> rfl
      · rcases l.startUplink tx pid interval t.uplinkPending with ⟨e | tb, l'⟩ <;> rfl

theorem acknowledgeDownlink_withCommands (received : Tti) (carrier tb : Nat) (ack : Bool) :
    ((t.withCommands q).acknowledgeDownlink received carrier tb ack).2 =
      (t.acknowledgeDownlink received carrier tb ack).2.withCommands q := by
  have hlink : (t.withCommands q).link? carrier = t.link? carrier := rfl
  unfold acknowledgeDownlink
  rw [hlink]
  cases t.link? carrier with
  | none => rfl
  | some l =>
      dsimp only
      cases l.dl.sentAt? received.acknowledgedTx <;> rfl

theorem acknowledgeUplink_withCommands (received : Tti) (carrier : Nat) (ack : Bool) :
    ((t.withCommands q).acknowledgeUplink received carrier ack).2 =
      (t.acknowledgeUplink received carrier ack).2.withCommands q := by
  have hlink : (t.withCommands q).link? carrier = t.link? carrier := rfl
  unfold acknowledgeUplink
  rw [hlink]
  cases t.link? carrier with
  | none => rfl
  | some l =>
      dsimp only
      cases l.ul.sentAt? received <;> rfl

theorem updateLink_withCommands (carrier : Nat) (f : Link → Link) :
    ((t.withCommands q).updateLink carrier f).2 = (t.updateLink carrier f).2.withCommands q := by
  have hlink : (t.withCommands q).link? carrier = t.link? carrier := rfl
  unfold updateLink
  rw [hlink]
  cases t.link? carrier <;> rfl

theorem editBuffer_withCommands (carrier pid tb : Nat) (edit : ByteArray → ByteArray) :
    ((t.withCommands q).editBuffer carrier pid tb edit).2 =
      (t.editBuffer carrier pid tb edit).2.withCommands q := by
  have hlink : (t.withCommands q).link? carrier = t.link? carrier := rfl
  unfold editBuffer
  rw [hlink]
  cases t.link? carrier <;> rfl

/-- The commands that an action queues. -/
def queuedBy (t : Terminal) : Action → List (Nat × Bool)
  | .requestActivation carrier activate =>
      match t.config.position? carrier with
      | some (position + 1) => [(position + 1, activate)]
      | _ => []
  | _ => []

theorem perform_withCommands (action : Action) :
    ((t.withCommands q).perform action).2 =
      (t.perform action).2.withCommands (q ++ t.queuedBy action) := by
  have hchannels : (t.withCommands q).channels = t.channels := rfl
  have hconfig : (t.withCommands q).config = t.config := rfl
  cases action with
  | requestActivation carrier activate =>
      simp only [perform, requestActivation, queuedBy, hconfig]
      rcases t.config.position? carrier with _ | _ | position
      · rw [List.append_nil]
      · rw [List.append_nil]
      · rfl
  | configureBearer lcid b =>
      simp only [perform, configureBearer, queuedBy, List.append_nil, hchannels]
      rcases t.channels.configure lcid b with ⟨e | _, channels⟩ <;> rfl
  | removeBearer lcid =>
      simp only [perform, removeBearer, queuedBy, List.append_nil, hchannels]
      rcases t.channels.remove lcid with ⟨e | _, channels⟩ <;> rfl
  | reportDownlink lcid fresh repeated =>
      simp only [perform, taken_snd, queuedBy, List.append_nil]
      rfl
  | reportUplink lcg bytes =>
      simp only [perform, taken_snd, queuedBy, List.append_nil]
      rfl
  | reportChannel received carrier m =>
      simp only [queuedBy, List.append_nil]
      exact updateLink_withCommands t q carrier (m.record received)
  | acknowledgeDownlink received carrier tb ack =>
      simp only [queuedBy, List.append_nil]
      exact acknowledgeDownlink_withCommands t q received carrier tb ack
  | acknowledgeUplink received carrier ack =>
      simp only [queuedBy, List.append_nil]
      exact acknowledgeUplink_withCommands t q received carrier ack
  | pushCe | reportHeadroom | requestUplink =>
      simp only [queuedBy, List.append_nil]
      rfl
  | raisePower dir | lowerPower dir =>
      simp only [queuedBy, List.append_nil]
      cases dir <;> rfl
  | editBuffer carrier pid tb edit =>
      simp only [queuedBy, List.append_nil]
      exact editBuffer_withCommands t q carrier pid tb edit

end Unread

/-- Whether an event is a boundary at another point than `last`. -/
def Event.passes (last : Option Tti) : Event → Bool
  | .boundary now _ => decide (last ≠ some now)
  | _ => false

/-- Whether a terminal meets no boundary that takes it to another point. -/
def staysPut (cells : List CellParams) : Terminal → List Event → Bool
  | _, [] => true
  | t, e :: es => !e.passes t.lastTti && staysPut cells (t.step cells e) es

theorem exists_step_withCommands (t : Terminal) {e : Event} (he : e.passes t.lastTti = false) :
    ∃ added, ∀ q, (t.withCommands q).step cells e =
      (t.step cells e).withCommands (q ++ added) := by
  cases e with
  | act action => exact ⟨t.queuedBy action, fun q ↦ perform_withCommands t q action⟩
  | withdrawRequest => exact ⟨[], fun q ↦ by rw [List.append_nil]; rfl⟩
  | configure c pools =>
      simp only [step, setConfig]
      cases c.check cells.length with
      | error e => exact ⟨[], fun q ↦ by rw [List.append_nil]⟩
      | ok _ => exact ⟨_, fun q ↦ apply_withCommands t q c pools⟩
  | boundary now pools =>
      have hlast : t.lastTti = some now := by simpa [Event.passes] using he
      refine ⟨[], fun q ↦ ?_⟩
      have hlast' : (t.withCommands q).lastTti = some now := hlast
      rw [List.append_nil, step, step, newTti_of_last hlast, newTti_of_last hlast']
  | grantDownlink tx carrier pid mask dci =>
      refine ⟨[], fun q ↦ ?_⟩
      rw [List.append_nil]
      exact grantDownlink_withCommands t q tx carrier pid mask dci
  | grantUplink tx carrier pid interval dci =>
      refine ⟨[], fun q ↦ ?_⟩
      rw [List.append_nil]
      exact grantUplink_withCommands t q tx carrier pid interval dci

/-- Up to the next boundary, the queue is all that tells two runs apart. -/
theorem exists_run_withCommands (t : Terminal) {es : List Event}
    (hes : staysPut cells t es = true) :
    ∃ added, ∀ q, (t.withCommands q).run cells es =
      (t.run cells es).withCommands (q ++ added) := by
  induction es generalizing t with
  | nil => exact ⟨[], fun q ↦ by rw [List.append_nil]; rfl⟩
  | cons e es ih =>
      obtain ⟨he, hes⟩ := Bool.and_eq_true_iff.mp hes
      have hpasses : e.passes t.lastTti = false := by simpa using he
      obtain ⟨added, hadded⟩ := exists_step_withCommands t hpasses
      obtain ⟨rest, hrest⟩ := ih (t.step cells e) hes
      refine ⟨added ++ rest, fun q ↦ ?_⟩
      rw [run, run, hadded, hrest, List.append_assoc]

/-- Up to the next boundary, a request leaves one command more in the queue and nothing
else. -/
theorem exists_run_requestActivation {carrier position : Nat}
    (hposition : t.config.position? carrier = some (position + 1)) (activate : Bool)
    {es : List Event} (hes : staysPut cells t es = true) :
    (t.requestActivation carrier activate).1 = .ok () ∧
      ∃ added, (t.run cells es).commands = t.commands ++ added ∧
        (t.requestActivation carrier activate).2.run cells es =
          (t.run cells es).withCommands (t.commands ++ [(position + 1, activate)] ++ added) := by
  have hrequest : t.requestActivation carrier activate =
      (.ok (), t.withCommands (t.commands ++ [(position + 1, activate)])) := by
    rw [requestActivation, hposition]
    rfl
  obtain ⟨added, hadded⟩ := exists_run_withCommands t hes
  rw [hrequest]
  exact ⟨rfl, added, congrArg Terminal.commands (hadded t.commands), hadded _⟩

/-! ## The boundary -/

def state? (t : Terminal) (carrier : Nat) : Option Activation := (t.link? carrier).map (·.state)

/-- A boundary takes the link of a carrier to the new point, with the commands of its position
carried out. -/
theorem Formed.link?_newTti (h : t.Formed cells) {now : Tti} (hnow : t.lastTti ≠ some now)
    (pools : PucchPools) (carrier : Nat) :
    (t.newTti now pools).1.link? carrier =
      (t.link? carrier).map fun l ↦
        ((l.commanded t.ceQueued (commandsAt l.position t.commands)).newTti now).2 := by
  have hafter : (t.newTti now pools).1.Formed cells := h.of_lives (.newTti t now pools)
  have hcarrier : ∀ (l : Link) commands,
      ((l.commanded t.ceQueued commands).newTti now).2.carrier = l.carrier := fun l commands ↦
    ((Link.Lives.commanded _ commands l).trans (.newTti _ now)).carrier_eq
  cases hl : t.link? carrier with
  | some l =>
      obtain ⟨hmem, hlc⟩ := of_link? hl
      obtain ⟨i, hi⟩ := List.mem_iff_getElem?.mp hmem
      obtain rfl := h.position_eq i l hi
      have hnew := getElem?_newTti hnow pools l.position
      rw [hi, Option.map_some] at hnew
      exact hafter.link?_eq_some_iff.mpr
        ⟨List.mem_of_getElem? hnew, (hcarrier l _).trans hlc⟩
  | none =>
      cases hnew : (t.newTti now pools).1.link? carrier with
      | none => rfl
      | some l' =>
          obtain ⟨hmem, hlc⟩ := of_link? hnew
          obtain ⟨i, hi⟩ := List.mem_iff_getElem?.mp hmem
          rw [getElem?_newTti hnow] at hi
          obtain ⟨l, hli, rfl⟩ := Option.map_eq_some_iff.mp hi
          have hlink := h.link?_eq_some_iff.mpr
            ⟨List.mem_of_getElem? hli, (hcarrier l _).symm.trans hlc⟩
          rw [hl] at hlink
          cases hlink

/-- A boundary carries out the commands of the position at which a carrier stands. -/
theorem Formed.state?_newTti (h : t.Formed cells) {now : Tti} (hnow : t.lastTti ≠ some now)
    (pools : PucchPools) (carrier : Nat) :
    (t.newTti now pools).1.state? carrier =
      (t.link? carrier).map fun l ↦
        (l.commanded t.ceQueued (commandsAt l.position t.commands)).state := by
  rw [state?, h.link?_newTti hnow pools carrier, Option.map_map]
  rfl

theorem Formed.position?_of_link? (h : t.Formed cells) {carrier : Nat} {l : Link}
    (hl : t.link? carrier = some l) : t.config.position? carrier = some l.position := by
  obtain ⟨hmem, hcarrier⟩ := of_link? hl
  obtain ⟨i, hi⟩ := List.mem_iff_getElem?.mp hmem
  obtain rfl := h.position_eq i l hi
  rw [TerminalConfig.position?_eq_some_iff (h.carriers_eq ▸ h.nodup), ← h.carriers_eq,
    List.getElem?_map, hi, Option.map_some, hcarrier]

theorem Formed.withCommands (h : t.Formed cells) (q : List (Nat × Bool)) :
    (t.withCommands q).Formed cells :=
  ⟨h.carriers_eq, h.nodup, h.position_eq, h.params, h.links⟩

/-- One command among others is seen at its own position only. -/
theorem commandsAt_insert (i position : Nat) (activate : Bool) (xs ys : List (Nat × Bool)) :
    commandsAt i (xs ++ [(position, activate)] ++ ys) =
      if i = position then commandsAt position xs ++ activate :: commandsAt position ys
      else commandsAt i (xs ++ ys) := by
  rw [List.append_assoc, List.singleton_append, commandsAt_append]
  split
  · rename_i hi
    rw [hi, commandsAt_cons_self]
  · rename_i hi
    rw [commandsAt_cons_of_ne (Ne.symm hi), commandsAt_append]

/-- Queues that agree but at one position lead every carrier to the same activation exactly
when they do so for the one that stands there. -/
theorem Formed.forall_state?_iff (h : t.Formed cells) {now : Tti} (hnow : t.lastTti ≠ some now)
    (pools : PucchPools) {position : Nat} {q : List (Nat × Bool)}
    (hq : ∀ i, i ≠ position → commandsAt i q = commandsAt i t.commands) (carrier : Nat) :
    (∀ d, d ≠ carrier ∨ t.config.position? carrier = none →
      ((t.withCommands q).newTti now pools).1.state? d = (t.newTti now pools).1.state? d) ↔
    ∀ l ∈ t.links, l.position = position → l.carrier ≠ carrier →
      (l.commanded t.ceQueued (commandsAt position q)).state =
        (l.commanded t.ceQueued (commandsAt position t.commands)).state := by
  have hstate := h.state?_newTti hnow pools
  have hstate' : ∀ d, ((t.withCommands q).newTti now pools).1.state? d =
      (t.link? d).map fun l ↦ (l.commanded t.ceQueued (commandsAt l.position q)).state :=
    (h.withCommands q).state?_newTti hnow pools
  constructor
  · rintro hsame l hl rfl hne
    have hd := hsame l.carrier (.inl hne)
    rw [hstate, hstate', h.link?_eq_some_iff.mpr ⟨hl, rfl⟩] at hd
    exact Option.some.inj hd
  · intro hall d hd
    rw [hstate, hstate']
    cases hl : t.link? d with
    | none => rfl
    | some l =>
        refine congrArg some ?_
        dsimp only
        by_cases hposition : l.position = position
        · obtain ⟨hmem, rfl⟩ := of_link? hl
          rw [hposition]
          rcases hd with hne | hnone
          · exact hall l hmem hposition hne
          · -- a carrier that has gone has no link
            refine hall l hmem hposition fun hc ↦ ?_
            rw [← hc, h.position?_of_link? hl] at hnone
            cases hnone
        · rw [hq _ hposition]

/-- A command for a secondary carrier is queued for the position at which the carrier
stands now.  At the next boundary it acts on the carrier that stands there by then; so it
reaches another carrier exactly when one stands there whose activation it changes. -/
theorem command_reaches_position (config : Config) {rnti : Rnti} {c : TerminalConfig}
    {pools pools' : PucchPools} {t₀ : Terminal}
    (h : create rnti c (CellParams.all config) pools = (.ok t₀, pools')) (es₀ es : List Event)
    {carrier position : Nat}
    (hposition : (t₀.run (CellParams.all config) es₀).config.position? carrier =
      some (position + 1))
    (hes : staysPut (CellParams.all config) (t₀.run (CellParams.all config) es₀) es = true)
    {now : Tti}
    (hnow : ((t₀.run (CellParams.all config) es₀).run (CellParams.all config) es).lastTti ≠
      some now) (activate : Bool) (later : PucchPools) :
    let cells := CellParams.all config
    let t := t₀.run cells es₀
    let u := t.run cells es
    let told := ((t.requestActivation carrier activate).2.run cells es).newTti now later
    let untold := u.newTti now later
    let before := commandsAt (position + 1) t.commands
    let after := commandsAt (position + 1) (u.commands.drop t.commands.length)
    (t.requestActivation carrier activate).1 = .ok () ∧
      (∀ d l, u.link? d = some l →
        untold.1.state? d = some (l.commanded u.ceQueued (commandsAt l.position u.commands)).state ∧
        told.1.state? d = some (l.commanded u.ceQueued
          (if l.position = position + 1 then before ++ activate :: after
            else commandsAt l.position u.commands)).state) ∧
      ((∀ d, d ≠ carrier ∨ u.config.position? carrier = none →
          told.1.state? d = untold.1.state? d) ↔
        ∀ l ∈ u.links, l.position = position + 1 → l.carrier ≠ carrier →
          (l.commanded u.ceQueued (before ++ activate :: after)).state =
            (l.commanded u.ceQueued (before ++ after)).state) := by
  intro cells t u told untold before after
  have hcells := CellParams.numbered_all config
  have hu : u.Formed cells := ((Formed.of_create hcells h).run hcells es₀).run hcells es
  obtain ⟨hok, added, hcommands, hrun⟩ :=
    exists_run_requestActivation hposition activate hes
  let q := t.commands ++ [(position + 1, activate)] ++ added
  have htold : told = (u.withCommands q).newTti now later := congrArg (newTti · now later) hrun
  have hafter : after = commandsAt (position + 1) added := by
    change commandsAt _ (u.commands.drop t.commands.length) = _
    rw [hcommands, List.drop_left]
  have huntoldAt : commandsAt (position + 1) u.commands = before ++ after := by
    rw [hcommands, commandsAt_append, hafter]
  have htoldAt : ∀ i, commandsAt i q =
      if i = position + 1 then before ++ activate :: after else commandsAt i u.commands := by
    intro i
    rw [commandsAt_insert, hafter, hcommands]
  have hsame := hu.forall_state?_iff hnow later
    (fun i hi ↦ (htoldAt i).trans (if_neg hi)) carrier
  rw [huntoldAt, (htoldAt _).trans (if_pos rfl), ← htold] at hsame
  refine ⟨hok, fun d l hl ↦ ⟨?_, ?_⟩, hsame⟩
  · have hstate := hu.state?_newTti hnow later d
    rw [hl] at hstate
    exact hstate
  · have hstate := (hu.withCommands q).state?_newTti hnow later d
    rw [show (u.withCommands q).link? d = some l from hl, Option.map_some] at hstate
    rw [htold, ← htoldAt]
    exact hstate

def threeCells : Config := { cells := [{}, {}, {}] }

/-- A primary carrier and idle secondary ones. -/
def idleCarriers (secondary : List Nat) : TerminalConfig :=
  { carriers := ⟨0, true⟩ :: secondary.map (⟨·, false⟩), bearers := [(3, ⟨.both, 5, 1⟩)] }

def bothIdle : Terminal := created threeCells ⟨70⟩ (idleCarriers [1, 2])

def firstBoundary : List Event := [.boundary (Tti.ofNat 10) (unusedPools threeCells)]

/-- Only the secondary carriers given stay configured. -/
def keeping (secondary : List Nat) : List Event :=
  [.configure (idleCarriers secondary) (unusedPools threeCells)]

def onlyKeeping (secondary : List Nat) : Terminal :=
  let cells := CellParams.all threeCells
  (((bothIdle.run cells firstBoundary).run cells (keeping secondary)).newTti
    (Tti.ofNat 11) (unusedPools threeCells)).1

def activatedThenKeeping (secondary : List Nat) : Terminal :=
  let cells := CellParams.all threeCells
  let t := (bothIdle.run cells firstBoundary).requestActivation 1 true
  ((t.2.run cells (keeping secondary)).newTti (Tti.ofNat 11) (unusedPools threeCells)).1

theorem command_reaches_its_carrier :
    let cells := CellParams.all threeCells
    let t := bothIdle.run cells firstBoundary
    create ⟨70⟩ (idleCarriers [1, 2]) cells (unusedPools threeCells) = (.ok bothIdle,
        (create ⟨70⟩ (idleCarriers [1, 2]) cells (unusedPools threeCells)).2) ∧
      t.config.position? 1 = some 1 ∧ staysPut cells t (keeping [1]) = true ∧
      (t.run cells (keeping [1])).lastTti ≠ some (Tti.ofNat 11) ∧
      (activatedThenKeeping [1]).state? 1 = some .activating ∧
      ∀ d, d ≠ 1 → (activatedThenKeeping [1]).state? d = (onlyKeeping [1]).state? d := by
  intro cells t
  have hcreate : create ⟨70⟩ (idleCarriers [1, 2]) cells (unusedPools threeCells) =
      (.ok bothIdle, (create ⟨70⟩ (idleCarriers [1, 2]) cells (unusedPools threeCells)).2) := rfl
  have hposition : t.config.position? 1 = some 1 := by decide +kernel
  have hstays : staysPut cells t (keeping [1]) = true := by decide +kernel
  have hnow : (t.run cells (keeping [1])).lastTti ≠ some (Tti.ofNat 11) := by decide +kernel
  obtain ⟨-, -, hsame⟩ := command_reaches_position threeCells hcreate firstBoundary
    (keeping [1]) hposition hstays hnow true (unusedPools threeCells)
  exact ⟨hcreate, hposition, hstays, hnow, by decide +kernel,
    fun d hd ↦ hsame.mpr (by decide +kernel) d (.inl hd)⟩

/-- Carrier 2 moves up to the position for which the command of carrier 1 was queued. -/
theorem command_reaches_another_carrier :
    create ⟨70⟩ (idleCarriers [1, 2]) (CellParams.all threeCells) (unusedPools threeCells) =
        (.ok bothIdle, (create ⟨70⟩ (idleCarriers [1, 2]) (CellParams.all threeCells)
          (unusedPools threeCells)).2) ∧
      (onlyKeeping [2]).config.position? 1 = none ∧
      (onlyKeeping [2]).state? 2 = some .idle ∧
      (activatedThenKeeping [2]).state? 2 = some .activating := by
  refine ⟨rfl, ?_, ?_, ?_⟩ <;> decide +kernel

end Terminal

end MacScheduler
