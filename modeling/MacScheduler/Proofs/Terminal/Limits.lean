import MacScheduler.Proofs.Terminal.Run

/-!
# Limits of a configuration

A link takes its limits from the configuration that created it and keeps them for
life.  A configuration that keeps a link therefore changes its limits in name only,
while fresh links obey it.  Once every link applies the limits of the present
configuration, no grant exceeds them until the next one.
-/

namespace MacScheduler

/-- The limits that a configuration sets on a carrier. -/
def TerminalConfig.limits (c : TerminalConfig) (cell : CellConfig) : Link.Limits where
  aggrLevel := min c.maxAggrLevel MacScheduler.maxAggrLevel
  mcsDl := min (c.maxMcsDl.getD cell.maxMcsDl) cell.maxMcsDl
  mcsUl := min (c.maxMcsUl.getD cell.maxMcsUl) cell.maxMcsUl

def Link.Applies (c : TerminalConfig) (l : Link) : Prop := l.limits = c.limits l.params.cell

instance (c : TerminalConfig) (l : Link) : Decidable (l.Applies c) :=
  inferInstanceAs (Decidable (_ = _))

namespace Terminal

variable {cells : List CellParams} {t t' : Terminal} {c : TerminalConfig}

def Applies (t : Terminal) : Prop := ∀ l ∈ t.links, l.Applies t.config

theorem Applies.of_lives (h : t.Applies) (hlives : t.Lives t') : t'.Applies := by
  obtain ⟨bearers, hconfig⟩ := hlives.config_eq
  intro l' hl'
  obtain ⟨i, hi⟩ := List.mem_iff_getElem?.mp hl'
  obtain ⟨l, hl, hll⟩ := getElem?_of_forall₂ hlives.links hi
  have happlies := h l (List.mem_of_getElem? hl)
  rw [Link.Applies, hll.limits_eq, hll.params_eq, hconfig]
  exact happlies

/-- Until the next configuration the links apply the limits of this one. -/
theorem Applies.run (h : t.Applies) {es : List Event} (hes : ∀ e ∈ es, e.isConfigure = false) :
    (t.run cells es).Applies ∧ ∃ bearers, (t.run cells es).config = { t.config with bearers } := by
  induction es generalizing t with
  | nil => exact ⟨h, t.config.bearers, rfl⟩
  | cons e es ih =>
      have hlives : t.Lives (t.step cells e) := lives_step t (hes e List.mem_cons_self)
      obtain ⟨happlies, bearers, hconfig⟩ :=
        ih (h.of_lives hlives) fun e' he' ↦ hes e' (List.mem_cons_of_mem e he')
      obtain ⟨bearers', hconfig'⟩ := hlives.config_eq
      exact ⟨happlies, bearers, by rw [Terminal.run, hconfig, hconfig']⟩

/-- What the terminal may be granted now lies within the limits of its configuration. -/
structure WithinLimits (cells : List CellParams) (t : Terminal) : Prop where
  downlink : ∀ tx carrier pid mask dci g,
    (t.grantDownlink tx carrier pid mask dci).1 = .ok g →
      ∃ params, cells[carrier]? = some params ∧
        ∀ b ∈ g.tbs, b.mcs ≤ (t.config.limits params.cell).mcsDl
  uplink : ∀ tx carrier pid interval dci g,
    (t.grantUplink tx carrier pid interval dci).1 = .ok g →
      ∃ params, cells[carrier]? = some params ∧ g.tb.mcs ≤ (t.config.limits params.cell).mcsUl
  level : ∀ now carrier s, t.snapshot? now carrier = some s →
    ∃ params, cells[carrier]? = some params ∧
      s.aggrLevel ≤ (t.config.limits params.cell).aggrLevel

theorem Formed.params_of_link? (h : t.Formed cells) {carrier : Nat} {l : Link}
    (hl : t.link? carrier = some l) : cells[carrier]? = some l.params := by
  obtain ⟨hmem, hcarrier⟩ := of_link? hl
  exact hcarrier ▸ h.params l hmem

theorem Applies.withinLimits (happlies : t.Applies) (h : t.Formed cells) :
    t.WithinLimits cells where
  downlink := by
    intro tx carrier pid mask dci g hg
    have hspec := t.grantDownlink_spec tx carrier pid mask dci
    generalize t.grantDownlink tx carrier pid mask dci = out at hspec hg
    cases hspec with
    | refused => cases hg
    | @resent l p _ _ _ hl _ hp _ _ _ _ htbs =>
        obtain rfl := Except.ok.inj hg
        have hmem := (of_link? hl).1
        refine ⟨l.params, h.params_of_link? hl, fun b hb ↦ ?_⟩
        rw [← happlies l hmem]
        exact ((h.links l hmem).dlWithin.of_get? hp).mcs_of_mem_resend (htbs ▸ hb)
    | @started l p _ _ _ _ hl _ hp _ hsizes _ htbs =>
        obtain rfl := Except.ok.inj hg
        have hmem := (of_link? hl).1
        refine ⟨l.params, h.params_of_link? hl, fun b hb ↦ ?_⟩
        rw [← happlies l hmem]
        exact HarqProcess.mcs_of_mem_start hsizes (htbs ▸ hb)
  uplink := by
    intro tx carrier pid interval dci g hg
    have hspec := t.grantUplink_spec tx carrier pid interval dci
    generalize t.grantUplink tx carrier pid interval dci = out at hspec hg
    cases hspec with
    | refused => cases hg
    | @resent l p _ r _ hl _ hp _ _ _ _ htb =>
        obtain rfl : r = .ok g := hg
        have hmem := (of_link? hl).1
        refine ⟨l.params, h.params_of_link? hl, ?_⟩
        rw [← happlies l hmem]
        exact ((h.links l hmem).ulWithin.of_get? hp).mcs_of_mem_resend
          (Link.mem_of_lastGrant htb.symm)
    | @started l p size r _ hl _ hp _ hsize _ htb =>
        obtain rfl : r = .ok g := hg
        have hmem := (of_link? hl).1
        have hsizes : ∀ s ∈ [size], s.2 ≤ l.mcsCapUl := by simpa using hsize
        refine ⟨l.params, h.params_of_link? hl, ?_⟩
        rw [← happlies l hmem]
        exact HarqProcess.mcs_of_mem_start hsizes (Link.mem_of_lastGrant htb.symm)
  level := by
    intro now carrier s hs
    obtain ⟨l, hl, rfl⟩ := Option.map_eq_some_iff.mp hs
    refine ⟨l.params, h.params_of_link? hl, ?_⟩
    rw [← happlies l (of_link? hl).1]
    exact l.aggrLevel_le

/-! ## Configurations -/

theorem applies_freshLink (t : Terminal) (c : TerminalConfig) (i : Nat) (params : CellParams) :
    (t.freshLink c i params).Applies c := by
  have hmin : min (min c.maxAggrLevel maxAggrLevel) maxAggrLevel =
      min c.maxAggrLevel maxAggrLevel := by omega
  change Link.Limits.mk (min (min c.maxAggrLevel maxAggrLevel) maxAggrLevel) _ _ = _
  rw [hmin]
  rfl

/-- A configuration is applied by the links it creates, and by those it keeps if they
applied it before. -/
theorem Reconfigured.applies_iff (hr : Reconfigured cells c t t') (h : t.Formed cells) :
    (∀ l ∈ t'.links, l.Applies c) ↔ ∀ l ∈ t.links, c.Keeps l → l.Applies c := by
  constructor
  · intro hall l hl hkeeps
    obtain ⟨i, hi⟩ := List.mem_iff_getElem?.mp hl
    exact hall l (List.mem_of_getElem? (hr.getElem?_of_keeps h hi hkeeps))
  · intro hkept l' hl'
    obtain ⟨i, hi⟩ := List.mem_iff_getElem?.mp hl'
    cases hr.links i l' hi with
    | kept hl hkeeps => exact hkept l' (List.mem_of_getElem? hl) hkeeps
    | fresh => exact applies_freshLink t c i _

theorem applies_of_create {rnti : Rnti} {pools pools' : PucchPools}
    (h : create rnti c cells pools = (.ok t, pools')) : t.config = c ∧ t.Applies := by
  have hr := (of_create h).2
  refine ⟨hr.config_eq, fun l hl ↦ ?_⟩
  rw [hr.config_eq]
  exact (hr.applies_iff (formed_blank rnti c)).mpr (by simp [blank]) l hl

/-- A checked configuration is reported at once.  Its limits are those of a terminal
created with it exactly when every link it keeps applied them before, and then nothing is
granted beyond them until the next configuration. -/
theorem limits_after_configuration (config : Config) {rnti : Rnti} {c₀ c : TerminalConfig}
    {pools pools' : PucchPools} {t₀ : Terminal}
    (h : create rnti c₀ (CellParams.all config) pools = (.ok t₀, pools')) (es : List Event)
    (hc : c.check (CellParams.all config).length = .ok ()) (later : PucchPools) :
    let cells := CellParams.all config
    let t := t₀.run cells es
    let t' := (t.setConfig c cells later).2.1
    (t.setConfig c cells later).1 = .ok () ∧ t'.config = c ∧
      t'.links.map (·.carrier) = c.carriers.map (·.index) ∧
      (∀ rnti pools pools' fresh, create rnti c cells pools = (.ok fresh, pools') →
        ∀ l ∈ fresh.links, l.Applies c) ∧
      ((∀ l ∈ t'.links, l.Applies c) ↔ ∀ l ∈ t.links, c.Keeps l → l.Applies c) ∧
      ((∀ l ∈ t'.links, l.Applies c) → ∀ es', (∀ e ∈ es', e.isConfigure = false) →
        (∃ bearers, (t'.run cells es').config = { c with bearers }) ∧
          (t'.run cells es').WithinLimits cells) := by
  intro cells t t'
  have hcells := CellParams.numbered_all config
  have hformed : t.Formed cells := (Formed.of_create hcells h).run hcells es
  have hformed' : t'.Formed cells := hformed.setConfig hcells c later
  rcases hformed.setConfig_cases c later with ⟨e, hrefused, -⟩ | ⟨-, hok, hr⟩
  · rw [hc] at hrefused
    cases hrefused
  · have hconfig : t'.config = c := hr.config_eq
    refine ⟨hok, hconfig, hconfig ▸ hformed'.carriers_eq, ?_, hr.applies_iff hformed, ?_⟩
    · intro rnti pools pools' fresh hfresh
      obtain ⟨hfc, happlies⟩ := applies_of_create hfresh
      exact hfc ▸ happlies
    · intro hall es' hes'
      have happlies : t'.Applies := by
        rw [Applies, hconfig]
        exact hall
      have hlater : (t'.run cells es').Applies ∧
          ∃ bearers, (t'.run cells es').config = { t'.config with bearers } := happlies.run hes'
      refine ⟨?_, hlater.1.withinLimits (hformed'.run hcells es')⟩
      rw [← hconfig]
      exact hlater.2

/-- One carrier, with a cap on the downlink scheme or without. -/
def oneCarrier (maxMcsDl : Option Nat) : TerminalConfig :=
  { carriers := [⟨0, true⟩], bearers := [(3, ⟨.both, 5, 1⟩)], maxMcsDl }

/-- The best channel quality on the primary carrier, and bytes to send. -/
def goodChannel (config : Config) : List Event :=
  [.boundary (Tti.ofNat 10) (unusedPools config),
    .act (.reportChannel (Tti.ofNat 10) 0 (.cqi 15)), .act (.reportDownlink 3 3000 0)]

/-- The schemes of the downlink grant of the whole carrier. -/
def grantedSchemes (t : Terminal) : Option (List Nat) :=
  (t.grantDownlink (Tti.ofNat 14) 0 6 (.ofRange 13 0 13) ⟨0, 0⟩).1.toOption.map
    fun g ↦ g.tbs.map (·.mcs)

def twoDefaultCells : Config := { cells := [{}, {}] }

def secondCarrier : TerminalConfig :=
  { oneCarrier (some 5) with carriers := [⟨0, true⟩, ⟨1, true⟩] }

/-- A second carrier joins the first, whose link applied the cap before. -/
def joined : Except SchedError Unit × Terminal × PucchPools :=
  ((created twoDefaultCells ⟨70⟩ (oneCarrier (some 5))).run (CellParams.all twoDefaultCells)
    (goodChannel twoDefaultCells)).setConfig secondCarrier (CellParams.all twoDefaultCells)
    (unusedPools twoDefaultCells)

theorem withinLimits_joined :
    let cells := CellParams.all twoDefaultCells
    let pools := unusedPools twoDefaultCells
    create ⟨70⟩ (oneCarrier (some 5)) cells pools =
        (.ok (created twoDefaultCells ⟨70⟩ (oneCarrier (some 5))),
          (create ⟨70⟩ (oneCarrier (some 5)) cells pools).2) ∧
      secondCarrier.check cells.length = .ok () ∧ joined.1 = .ok () ∧
      (∀ l ∈ joined.2.1.links, l.Applies secondCarrier) ∧
      joined.2.1.WithinLimits cells ∧ joined.2.1.grantedSchemes = some [5] := by
  have hcreate : create ⟨70⟩ (oneCarrier (some 5)) (CellParams.all twoDefaultCells)
      (unusedPools twoDefaultCells) = (.ok (created twoDefaultCells ⟨70⟩ (oneCarrier (some 5))),
        (create ⟨70⟩ (oneCarrier (some 5)) (CellParams.all twoDefaultCells)
          (unusedPools twoDefaultCells)).2) := rfl
  have hcheck : secondCarrier.check (CellParams.all twoDefaultCells).length = .ok () := rfl
  have hlimits := limits_after_configuration twoDefaultCells hcreate
    (goodChannel twoDefaultCells) hcheck (unusedPools twoDefaultCells)
  have happlies : ∀ l ∈ joined.2.1.links, l.Applies secondCarrier :=
    hlimits.2.2.2.2.1.mpr (by decide +kernel)
  have hwithin := (hlimits.2.2.2.2.2 happlies [] (by simp)).2
  exact ⟨hcreate, hcheck, hlimits.1, happlies, hwithin, by decide +kernel⟩

/-- The only link is kept, and with it the cap of the cell. -/
theorem kept_link_exceeds_limit :
    let cells := CellParams.all {}
    let t₀ := created {} ⟨70⟩ (oneCarrier none)
    let c := oneCarrier (some 5)
    let t := (t₀.run cells (goodChannel {})).setConfig c cells (unusedPools {})
    create ⟨70⟩ (oneCarrier none) cells (unusedPools {}) =
        (.ok t₀, (create ⟨70⟩ (oneCarrier none) cells (unusedPools {})).2) ∧
      c.check cells.length = .ok () ∧ t.1 = .ok () ∧ t.2.1.config.maxMcsDl = some 5 ∧
      t.2.1.grantedSchemes = some [27] := by
  refine ⟨rfl, rfl, ?_, ?_, ?_⟩ <;> decide +kernel

end Terminal

end MacScheduler
