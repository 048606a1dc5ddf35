import Mathlib.Data.List.Induction
import MacScheduler.Proofs.Terminal.Elements
import MacScheduler.Proofs.Terminal.Obedience
import MacScheduler.Proofs.Terminal.Service

/-!
# Carriers that become active

A carrier enters activation at a boundary, which queues a control element with the
carrier's bit, and becomes active at a later one that finds no such element queued.
Elements leave the queue in downlink grants only, so between the two boundaries a grant
has told the terminal.
-/

namespace MacScheduler

theorem Activation.of_ended {ceQueued : Bool} {state : Activation}
    (h : state.ended ceQueued = .active) :
    state = .active ∨ state = .activating ∧ ceQueued = false := by
  cases ceQueued <;> cases state <;> simp_all [Activation.ended]

namespace Terminal

variable {cells : List CellParams} {t t₀ : Terminal} {carrier bit : Nat}

/-- How a carrier came to its activation: nothing happened to it, a boundary took it there, or
a configuration placed it afresh. -/
theorem Formed.of_link?_step (h : t.Formed cells) {e : Event} {l' : Link}
    (hl' : (t.step cells e).link? carrier = some l') :
    (∃ l, t.link? carrier = some l ∧ l'.position = l.position ∧ l'.state = l.state) ∨
      (∃ l now pools, t.link? carrier = some l ∧ l'.position = l.position ∧
        e = .boundary now pools ∧ t.lastTti ≠ some now ∧
        l'.state = (l.commanded t.ceQueued (commandsAt l.position t.commands)).state) ∨
      l'.state = if l'.position = 0 then .active else .idle := by
  cases hconfigure : e.isConfigure with
  | true =>
      cases e with
      | configure c pools =>
          rcases h.setConfig_cases c pools with ⟨_, -, heq⟩ | ⟨hc, -, hr⟩
          · rw [Terminal.step, heq] at hl'
            exact .inl ⟨l', hl', rfl, rfl⟩
          · obtain ⟨hmem, rfl⟩ := of_link? hl'
            obtain ⟨i, hi⟩ := List.mem_iff_getElem?.mp hmem
            cases hr.links i l' hi with
            | kept hl =>
                exact .inl ⟨l', h.link?_eq_some_iff.mpr ⟨List.mem_of_getElem? hl, rfl⟩, rfl, rfl⟩
            | fresh => exact .inr (.inr (by simp [freshLink, Link.create]))
      | _ => cases hconfigure
  | false =>
      cases hpasses : e.passes t.lastTti with
      | true =>
          cases e with
          | boundary now pools =>
              have hnow : t.lastTti ≠ some now := by simpa [Event.passes] using hpasses
              rw [Terminal.step, h.link?_newTti hnow] at hl'
              obtain ⟨l, hl, rfl⟩ := Option.map_eq_some_iff.mp hl'
              have hposition := ((Link.Lives.commanded t.ceQueued
                (commandsAt l.position t.commands) l).trans (.newTti _ now)).position_eq
              exact .inr (.inl ⟨l, now, pools, hl, hposition, rfl, hnow, rfl⟩)
          | _ => cases hpasses
      | false =>
          have hsame : (Terminal.step cells t e).links.map Link.standing =
              t.links.map Link.standing := t.map_standing_step hconfigure hpasses
          have hlink := map_standing_link? hsame carrier
          rw [hl', Option.map_some] at hlink
          obtain ⟨l, hl, hstanding⟩ := Option.map_eq_some_iff.mp hlink.symm
          obtain ⟨-, hposition, hstate⟩ : l.carrier = l'.carrier ∧ l.position = l'.position ∧
              l.state = l'.state := by simpa [Link.standing] using hstanding
          exact .inl ⟨l, hl, hposition.symm, hstate.symm⟩

/-! ## What a run emits -/

/-- A run emits an activation element that has the bit. -/
def EmitsIn (cells : List CellParams) (bit : Nat) : Terminal → List Event → Prop
  | _, [] => False
  | t, e :: es =>
      (∃ bitmap, t.Emits (.scellActivation bitmap) e ∧ bitmap.testBit bit = true) ∨
        EmitsIn cells bit (t.step cells e) es

/-- The carrier is being activated all along a run. -/
def StaysActivating (cells : List CellParams) (carrier : Nat) : Terminal → List Event → Prop
  | t, [] => t.state? carrier = some .activating
  | t, e :: es =>
      t.state? carrier = some .activating ∧ StaysActivating cells carrier (t.step cells e) es

theorem emitsIn_concat (t : Terminal) (es : List Event) (e : Event) :
    EmitsIn cells bit t (es ++ [e]) ↔ EmitsIn cells bit t es ∨
      ∃ bitmap, (t.run cells es).Emits (.scellActivation bitmap) e ∧
        bitmap.testBit bit = true := by
  induction es generalizing t with
  | nil => simp [EmitsIn, run]
  | cons e' es ih => rw [List.cons_append, EmitsIn, EmitsIn, ih, run, or_assoc]

theorem staysActivating_concat (t : Terminal) (es : List Event) (e : Event) :
    StaysActivating cells carrier t (es ++ [e]) ↔ StaysActivating cells carrier t es ∧
      (t.run cells (es ++ [e])).state? carrier = some .activating := by
  induction es generalizing t with
  | nil => rfl
  | cons e' es ih =>
      rw [List.cons_append, StaysActivating, StaysActivating, ih, run, and_assoc]

/-- An element with the bit waits in the queue. -/
def Queues (t : Terminal) (bit : Nat) : Prop :=
  ∃ bitmap, .scellActivation bitmap ∈ t.channels.ces ∧ bitmap.testBit bit = true

theorem Queues.step (h : t.Queues bit) (cells : List CellParams) (e : Event) :
    (t.step cells e).Queues bit ∨
      ∃ bitmap, t.Emits (.scellActivation bitmap) e ∧ bitmap.testBit bit = true := by
  obtain ⟨bitmap, hmem, hbit⟩ := h
  obtain ⟨sent, left, pushed, hces, hces', hsent⟩ := t.exists_ces_step cells e
  rw [hces] at hmem
  rcases List.mem_append.mp hmem with hmem | hmem
  · exact .inr ⟨bitmap, hsent _ hmem, hbit⟩
  · exact .inl ⟨bitmap, hces' ▸ List.mem_append_left pushed hmem, hbit⟩

/-- What holds of the events since a carrier entered activation, where it has stayed. -/
def SinceActivating (cells : List CellParams) (t₀ : Terminal) (carrier : Nat)
    (P : Terminal → List Event → Prop) (es : List Event) : Prop :=
  ∃ before enter since, es = before ++ enter :: since ∧
    (t₀.run cells before).state? carrier ≠ some .activating ∧
    StaysActivating cells carrier (t₀.run cells (before ++ [enter])) since ∧
    P (t₀.run cells (before ++ [enter])) since

/-- A downlink grant has carried an element with the bit since the carrier entered activation. -/
def Announced (cells : List CellParams) (t₀ : Terminal) (carrier bit : Nat) : List Event → Prop :=
  SinceActivating cells t₀ carrier (EmitsIn cells bit)

/-- An element with the bit has been sent since the carrier entered activation, or it waits. -/
def Awaited (cells : List CellParams) (t₀ : Terminal) (carrier bit : Nat) : List Event → Prop :=
  SinceActivating cells t₀ carrier fun t es ↦ EmitsIn cells bit t es ∨ (t.run cells es).Queues bit

theorem run_concat (cells : List CellParams) (t : Terminal) (es : List Event) (e : Event) :
    t.run cells (es ++ [e]) = (t.run cells es).step cells e := by
  rw [run_append]
  rfl

theorem Awaited.concat {es : List Event} (h : Awaited cells t₀ carrier bit es) {e : Event}
    (hstate : (t₀.run cells (es ++ [e])).state? carrier = some .activating) :
    Awaited cells t₀ carrier bit (es ++ [e]) := by
  obtain ⟨before, enter, since, rfl, hbefore, hstays, htold⟩ := h
  have hrun : ∀ es', (t₀.run cells (before ++ [enter])).run cells es' =
      t₀.run cells (before ++ enter :: es') := fun es' ↦ by
    rw [← run_append, List.append_assoc, List.singleton_append]
  refine ⟨before, enter, since ++ [e], by simp, hbefore, ?_, ?_⟩
  · refine (staysActivating_concat _ since e).mpr ⟨hstays, ?_⟩
    rw [hrun]
    simpa using hstate
  · rcases htold with hsent | hqueues
    · exact .inl ((emitsIn_concat _ since e).mpr (.inl hsent))
    · have hlast := run_concat cells (t₀.run cells (before ++ [enter])) since e
      rw [hlast]
      rcases hqueues.step cells e with hqueues | hemits
      · exact .inr hqueues
      · exact .inl ((emitsIn_concat _ since e).mpr (.inr hemits))

/-- The boundary that takes a carrier into activation queues its element. -/
theorem Awaited.enter {es : List Event} {e : Event}
    (hbefore : (t₀.run cells es).state? carrier ≠ some .activating)
    (hafter : (t₀.run cells (es ++ [e])).state? carrier = some .activating)
    (hqueues : (t₀.run cells (es ++ [e])).Queues bit) :
    Awaited cells t₀ carrier bit (es ++ [e]) :=
  ⟨es, e, [], rfl, hbefore, hafter, .inr hqueues⟩

theorem state?_of_link? {l : Link} (hl : t.link? carrier = some l) :
    t.state? carrier = some l.state := by
  rw [state?, hl, Option.map_some]

/-- While a secondary carrier is being activated, its element has been sent or waits. -/
theorem Formed.awaited (h : t₀.Formed cells) (hcells : CellParams.Numbered cells)
    (hnone : ∀ l ∈ t₀.links, l.state ≠ .activating) (es : List Event) {l : Link}
    (hl : (t₀.run cells es).link? carrier = some l) (hposition : l.position ≠ 0)
    (hstate : l.state = .activating) :
    Awaited cells t₀ carrier (min l.position 7) es := by
  induction es using List.reverseRecOn generalizing l with
  | nil => exact absurd hstate (hnone l (of_link? hl).1)
  | append_singleton es e ih =>
      have hafter := (state?_of_link? hl).trans (congrArg some hstate)
      have hu := h.run hcells es
      rw [run_concat] at hl
      rcases hu.of_link?_step hl with ⟨k, hk, hpos, hsame⟩ |
        ⟨k, now, pools, hk, hpos, rfl, hnow, hcommanded⟩ | hfresh
      · rw [hpos] at hposition ⊢
        exact (ih hk hposition (hsame.symm.trans hstate)).concat hafter
      · rw [hpos] at hposition ⊢
        by_cases hbefore : k.state = .activating
        · exact (ih hk hposition hbefore).concat hafter
        · refine .enter ?_ hafter ?_
          · rw [state?_of_link? hk]
            exact fun heq ↦ hbefore (Option.some.inj heq)
          · rw [run_concat]
            exact hu.exists_ce_of_activating hnow pools hk hposition hbefore
              (hcommanded.symm.trans hstate)
      · rw [if_neg hposition, hstate] at hfresh
        cases hfresh

/-- A secondary carrier becomes active only when it has been announced. -/
theorem Formed.announced (h : t₀.Formed cells) (hcells : CellParams.Numbered cells)
    (hnone : ∀ l ∈ t₀.links, l.state ≠ .activating) (es : List Event) (e : Event) {l : Link}
    (hl : (t₀.run cells (es ++ [e])).link? carrier = some l) (hposition : l.position ≠ 0)
    (hactive : l.state = .active)
    (hbefore : (t₀.run cells es).state? carrier ≠ some .active) :
    Announced cells t₀ carrier (min l.position 7) es := by
  have hu := h.run hcells es
  rw [run_concat] at hl
  rcases hu.of_link?_step hl with ⟨k, hk, -, hsame⟩ | ⟨k, now, pools, hk, hpos, -, -, hcommanded⟩ |
    hfresh
  · rw [state?_of_link? hk, ← hsame, hactive] at hbefore
    exact absurd rfl hbefore
  · rw [hactive, Link.state_commanded] at hcommanded
    have hended := (Activation.of_obeyAll _ _).1 hcommanded.symm
    rcases Activation.of_ended hended with hk' | ⟨hk', hqueue⟩
    · rw [state?_of_link? hk, hk'] at hbefore
      exact absurd rfl hbefore
    · rw [hpos] at hposition ⊢
      obtain ⟨before, enter, since, hes, hb, hstays, hsent | hqueues⟩ :=
        h.awaited hcells hnone es hk hposition hk'
      · exact ⟨before, enter, since, hes, hb, hstays, hsent⟩
      · -- nothing of the kind is queued when the transition ends
        obtain ⟨bitmap, hmem, -⟩ := hqueues
        rw [← run_append, List.append_assoc, List.singleton_append, ← hes] at hmem
        have hany : (t₀.run cells es).ceQueued = true :=
          List.any_eq_true.mpr ⟨_, hmem, rfl⟩
        rw [hqueue] at hany
        cases hany
  · rw [if_neg hposition, hactive] at hfresh
    cases hfresh

/-! ## Every run -/

theorem carriers_ne_nil_of_check {c : TerminalConfig} {nofCells : Nat}
    (h : c.check nofCells = .ok ()) : c.carriers ≠ [] := by
  intro hnil
  rw [TerminalConfig.check, if_pos hnil] at h
  cases h

theorem Reconfigured.links_ne_nil {c : TerminalConfig} {t' : Terminal}
    (hr : Reconfigured cells c t t') (hc : c.check cells.length = .ok ()) : t'.links ≠ [] := by
  rw [ne_eq, ← List.length_eq_zero_iff, hr.length_eq, List.length_eq_zero_iff]
  exact carriers_ne_nil_of_check hc

theorem Formed.links_ne_nil_step (h : t.Formed cells) (hne : t.links ≠ []) (e : Event) :
    (Terminal.step cells t e).links ≠ [] := by
  cases hconfigure : e.isConfigure with
  | false =>
      have hlength : t.links.length = (Terminal.step cells t e).links.length :=
        (lives_step t hconfigure).links.length_eq
      rwa [ne_eq, ← List.length_eq_zero_iff, ← hlength, List.length_eq_zero_iff]
  | true =>
      cases e with
      | configure c pools =>
          rcases h.setConfig_cases c pools with ⟨_, -, heq⟩ | ⟨hc, -, hr⟩
          · rw [Terminal.step, heq]
            exact hne
          · exact hr.links_ne_nil hc
      | _ => cases hconfigure

theorem Formed.links_ne_nil_run (h : t.Formed cells) (hcells : CellParams.Numbered cells)
    (hne : t.links ≠ []) (es : List Event) : (t.run cells es).links ≠ [] := by
  induction es generalizing t with
  | nil => exact hne
  | cons e es ih => exact ih (h.step hcells e) (h.links_ne_nil_step hne e)

/-- In every state that a terminal reaches, its primary carrier is active and its carriers out
of service hold no blocks; new blocks go out on active carriers only, and repeated ones on
carriers that are active or being deactivated; and a secondary carrier that becomes active has
been announced in a downlink grant since it entered activation. -/
theorem carriers_kept_in_order (config : Config) {rnti : Rnti} {c : TerminalConfig}
    {pools pools' : PucchPools} {t₀ : Terminal}
    (h : create rnti c (CellParams.all config) pools = (.ok t₀, pools')) (es : List Event) :
    let cells := CellParams.all config
    let t := t₀.run cells es
    (∃ l, t.links[0]? = some l ∧ l.position = 0 ∧ l.state = .active) ∧
      (∀ l ∈ t.links, l.state = .idle ∨ l.state = .activating → l.Blank) ∧
      (∀ tx carrier pid mask dci g, (t.grantDownlink tx carrier pid mask dci).1 = .ok g →
        ∃ l, t.link? carrier = some l ∧
          if g.isRetx then l.state = .active ∨ l.state = .deactivating else l.state = .active) ∧
      (∀ tx carrier pid interval dci g, (t.grantUplink tx carrier pid interval dci).1 = .ok g →
        ∃ l, t.link? carrier = some l ∧
          if g.tb.isRetx then l.state = .active ∨ l.state = .deactivating
          else l.state = .active) ∧
      ∀ e carrier l, (t.step cells e).link? carrier = some l → l.position ≠ 0 →
        l.state = .active → t.state? carrier ≠ some .active →
        Announced cells t₀ carrier (min l.position 7) es := by
  intro cells t
  have hcells : CellParams.Numbered cells := CellParams.numbered_all config
  obtain ⟨hc, hr⟩ := of_create h
  have ht₀ : t₀.Formed cells := .of_create hcells h
  have ht : t.Formed cells := ht₀.run hcells es
  have horder : t.InOrder := by
    have hblank : ((blank rnti c).step cells (.configure c pools)).InOrder :=
      (InOrder.blank rnti c).step (formed_blank rnti c) _
    rw [step_blank_of_create h] at hblank
    exact hblank.run ht₀ hcells es
  have hnone : ∀ l ∈ t₀.links, l.state ≠ .activating := by
    intro l hl
    obtain ⟨i, hi⟩ := List.mem_iff_getElem?.mp hl
    cases hr.links i l hi with
    | kept hl => cases hl
    | fresh =>
        simp only [freshLink, Link.create]
        split <;> simp
  have hne := ht₀.links_ne_nil_run hcells (hr.links_ne_nil hc) es
  obtain ⟨l, hl⟩ : ∃ l, t.links[0]? = some l :=
    ⟨_, List.getElem?_eq_getElem (List.length_pos_iff.mpr hne)⟩
  have hposition := ht.position_eq 0 l hl
  refine ⟨⟨l, hl, hposition, horder.primary l (List.mem_of_getElem? hl) hposition⟩,
    fun l hl ho ↦ horder.off l hl (Link.allowsRetx_eq_false_iff.mpr ho),
    fun _ _ _ _ _ _ hg ↦ link?_of_grantDownlink hg,
    fun _ _ _ _ _ _ hg ↦ link?_of_grantUplink hg, fun e carrier l hl hpos hactive hbefore ↦ ?_⟩
  refine ht₀.announced hcells hnone es e ?_ hpos hactive hbefore
  rw [run_concat]
  exact hl

theorem announced_switchedOn :
    let cells := CellParams.all threeCells
    let es := (switchedOn 1).dropLast
    let t := bothIdle.run cells es
    t.state? 1 = some .activating ∧ (t.step cells (boundaryAt 12)).state? 1 = some .active ∧
      Announced cells bothIdle 1 1 es := by
  intro cells es t
  have hcreate : create ⟨70⟩ (idleCarriers [1, 2]) cells (unusedPools threeCells) =
      (.ok bothIdle, (create ⟨70⟩ (idleCarriers [1, 2]) cells (unusedPools threeCells)).2) := rfl
  have hbefore : t.state? 1 = some .activating := by decide +kernel
  have hafter : (t.step cells (boundaryAt 12)).stance? 1 = some ⟨1, .active, []⟩ := by
    decide +kernel
  obtain ⟨l, hl, hposition, hstance⟩ := stance?_eq_some_iff.mp hafter
  obtain ⟨hpos, hactive, -⟩ := Stance.mk.inj hstance
  obtain ⟨-, -, -, -, hannounced⟩ := carriers_kept_in_order threeCells hcreate es
  have hinactive : t.state? 1 ≠ some .active := by
    rw [hbefore]
    decide
  have hdone := hannounced (boundaryAt 12) 1 l hl hposition hactive.symm hinactive
  rw [← hpos] at hdone
  exact ⟨hbefore, state?_of_stance? hafter, hdone⟩

end Terminal

end MacScheduler
