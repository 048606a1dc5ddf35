import MacScheduler.Proofs.Buffer.Bearers
import MacScheduler.Proofs.Terminal.Periods

/-!
# What a terminal derives from its configuration

A terminal keeps its configuration beside the state that was derived from it: the
links, the bearers of its channels and its leases.  Configurations and single bearer
commands change both, everything else leaves both alone, so the derived state always
agrees with the configuration that the terminal reports.
-/

namespace MacScheduler.Terminal

variable {cells : List CellParams} {t t' : Terminal} {table : Bearers}

/-! ## The bearers of a configuration -/

/-- Of the channels gone through, those that the table does not name lose their bearer. -/
theorem bearer_removeStale (table : Bearers) (c : Channels) (lcids : List Nat) (i : Nat) :
    ((removeStale table c lcids).2.channel i).bearer =
      if i ∈ lcids ∧ table.get? i = none then none else (c.channel i).bearer := by
  induction lcids generalizing c with
  | nil => simp [removeStale]
  | cons lcid lcids ih =>
      rw [removeStale]
      by_cases hstale : c.isConfigured lcid = true ∧ table.get? lcid = none
      · obtain ⟨hconfigured, hgone⟩ := hstale
        rw [if_pos (by simp [hconfigured, hgone]), remove_of_configured hconfigured]
        dsimp only
        rw [ih, Channels.bearer_remove (isConfigured_lt hconfigured)]
        by_cases hi : lcid = i
        · subst hi
          simp [hgone]
        · simp [hi, Ne.symm hi]
      · rw [if_neg (by simpa using hstale), ih]
        by_cases hi : i = lcid
        · subst hi
          by_cases hgone : table.get? i = none
          · -- what the table does not name was not configured
            have hnone : (c.channel i).bearer = none := by
              simpa [Channels.isConfigured] using fun hconfigured ↦ hstale ⟨hconfigured, hgone⟩
            simp [hnone]
          · simp [hgone]
        · simp [hi]

theorem length_removeStale (table : Bearers) (c : Channels) (lcids : List Nat) :
    (removeStale table c lcids).2.channels.length = c.channels.length := by
  induction lcids generalizing c with
  | nil => rfl
  | cons lcid lcids ih =>
      rw [removeStale]
      split
      · rename_i hstale
        rw [remove_of_configured (Bool.and_eq_true_iff.mp hstale).1]
        exact (ih _).trans (c.length_remove lcid)
      · exact ih c

theorem bearer_configureAll (hkeyed : table.Keyed)
    (hcheck : TerminalConfig.checkBearers table = .ok ()) {c : Channels}
    (hlength : c.channels.length = nofLcids) :
    (configureAll c table).2.channels.length = nofLcids ∧ ∀ i,
      ((configureAll c table).2.channel i).bearer = (table.get? i).or (c.channel i).bearer := by
  induction table generalizing c with
  | nil => exact ⟨hlength, fun _ ↦ rfl⟩
  | cons entry table ih =>
      obtain ⟨lcid, b⟩ := entry
      obtain ⟨hnew, hrest⟩ := List.nodup_cons.mp hkeyed
      rw [TerminalConfig.checkBearers] at hcheck
      cases hb : b.check lcid with
      | error e => simp [hb] at hcheck
      | ok _ =>
          simp only [hb] at hcheck
          have hlcid : lcid < c.channels.length := hlength ▸ Bearer.lcid_lt hb
          obtain ⟨hlen, hbearer⟩ := ih hrest hcheck ((c.length_configure lcid b).trans hlength)
          rw [configureAll, configure_of_check hb]
          refine ⟨hlen, fun i ↦ ?_⟩
          rw [hbearer, Channels.bearer_configure hlcid hb, Bearers.get?]
          by_cases hi : lcid = i
          · subst hi
            rw [if_pos rfl, if_pos rfl, Bearers.get?_eq_none hnew]
            rfl
          · rw [if_neg hi, if_neg hi]

/-- Once the bearers of a configuration are applied, the channels mirror them. -/
theorem mirrors_applyBearers {c c' : Channels} (hlength : c.channels.length = nofLcids)
    (hkeyed : table.Keyed) (hcheck : TerminalConfig.checkBearers table = .ok ())
    (h : applyBearers c table = (.ok (), c')) : c'.Mirrors table := by
  have hok := (removeStale_spec table c (List.range nofLcids)).1
  have hlen := (length_removeStale table c (List.range nofLcids)).trans hlength
  have hbearer := bearer_removeStale table c (List.range nofLcids)
  rw [applyBearers] at h
  generalize removeStale table c (List.range nofLcids) = out at hok hlen hbearer h
  obtain ⟨e | _, c₁⟩ := out
  · cases hok
  · obtain ⟨hlength', hbearer'⟩ := bearer_configureAll hkeyed hcheck hlen
    obtain rfl := congrArg Prod.snd h
    refine ⟨hlength', fun i ↦ (hbearer' i).trans ?_⟩
    cases hget : table.get? i with
    | some b => rfl
    | none =>
        rw [Option.none_or, hbearer]
        by_cases hi : i < nofLcids
        · rw [if_pos ⟨List.mem_range.mpr hi, hget⟩]
        · rw [if_neg fun hmem ↦ hi (List.mem_range.mp hmem.1)]
          exact Channels.bearer_of_le (hlength ▸ Nat.le_of_not_lt hi)

/-! ## Channels that mirror the configuration -/

def Mirrors (t : Terminal) : Prop := t.channels.Mirrors t.config.bearers

namespace Mirrors

theorem of_same (h : t.Mirrors) (hchannels : t'.channels.bearers = t.channels.bearers)
    (hconfig : t'.config.bearers = t.config.bearers) : t'.Mirrors := by
  rw [Mirrors, hconfig]
  exact Channels.Mirrors.of_bearers h hchannels

theorem configureBearer (h : t.Mirrors) (lcid : Nat) (b : Bearer) :
    (t.configureBearer lcid b).2.Mirrors := by
  unfold Terminal.configureBearer Channels.configure
  cases hcheck : b.check lcid with
  | error e => exact h
  | ok _ =>
      have hmirrors := Channels.Mirrors.configure h hcheck
      simp only [Channels.configure, hcheck] at hmirrors
      exact hmirrors

theorem removeBearer (h : t.Mirrors) (lcid : Nat) : (t.removeBearer lcid).2.Mirrors := by
  unfold Terminal.removeBearer Channels.remove
  by_cases hlcid : lcid < t.channels.channels.length
  · have hmirrors := Channels.Mirrors.remove h hlcid
    rw [if_pos hlcid]
    simp only [Channels.remove, if_pos hlcid] at hmirrors
    exact hmirrors
  · rw [if_neg hlcid]
    exact h

theorem perform (h : t.Mirrors) (action : Action) : (t.perform action).2.Mirrors := by
  cases action with
  | configureBearer lcid b => exact h.configureBearer lcid b
  | removeBearer lcid => exact h.removeBearer lcid
  | requestActivation carrier activate =>
      simp only [Terminal.perform, requestActivation]
      split <;> exact h.of_same rfl rfl
  | reportDownlink lcid fresh repeated =>
      rw [Terminal.perform, taken_snd]
      exact h.of_same (t.channels.bearers_reportDownlink lcid fresh repeated) rfl
  | reportUplink lcg bytes =>
      rw [Terminal.perform, taken_snd]
      exact h.of_same (t.channels.bearers_reportUplink lcg bytes) rfl
  | pushCe | reportHeadroom | requestUplink => exact h.of_same rfl rfl
  | reportChannel received carrier m =>
      simp only [Terminal.perform, reportChannel, updateLink]
      split <;> exact h.of_same rfl rfl
  | acknowledgeDownlink received carrier tb ack =>
      simp only [Terminal.perform, acknowledgeDownlink]
      repeat' split
      all_goals exact h.of_same rfl rfl
  | acknowledgeUplink received carrier ack =>
      simp only [Terminal.perform, acknowledgeUplink]
      repeat' split
      all_goals exact h.of_same rfl rfl
  | raisePower dir | lowerPower dir => cases dir <;> exact h.of_same rfl rfl
  | editBuffer carrier pid tb edit =>
      simp only [Terminal.perform]
      rcases t.editBuffer_cases carrier pid tb edit with heq | ⟨l, buffers, -, heq⟩ <;> rw [heq]
      · exact h
      · exact h.of_same rfl rfl

theorem newTti (h : t.Mirrors) (now : Tti) (pools : PucchPools) :
    (t.newTti now pools).1.Mirrors := by
  by_cases hlast : t.lastTti = some now
  · rw [newTti_of_last hlast]
    exact h
  · refine h.of_same ?_ (congrArg TerminalConfig.bearers (t.newTti_clock now pools).1)
    rw [Terminal.newTti, if_neg hlast]
    simp only [advanceLinks_eq]
    refine (Channels.bearers_foldl_recordFailure _ _ _).trans ?_
    split <;> rfl

theorem grantDownlink (h : t.Mirrors) (tx : Tti) (carrier pid : Nat) (mask : RbgMask)
    (dci : DciLocation) : (t.grantDownlink tx carrier pid mask dci).2.Mirrors := by
  unfold Terminal.grantDownlink
  cases t.link? carrier with
  | none => exact h
  | some l =>
      dsimp only
      split
      · rcases l.resendDownlink tx pid mask with ⟨e | tbs, l'⟩ <;> exact h.of_same rfl rfl
      · rcases l.startDownlink tx pid mask t.downlinkPending with ⟨e | tbs, l'⟩
        · exact h.of_same rfl rfl
        · exact h.of_same (t.channels.bearers_fill (grantedBytes tbs)) rfl

theorem grantUplink (h : t.Mirrors) (tx : Tti) (carrier pid : Nat) (interval : PrbInterval)
    (dci : Option DciLocation) : (t.grantUplink tx carrier pid interval dci).2.Mirrors := by
  unfold Terminal.grantUplink
  cases t.link? carrier with
  | none => exact h
  | some l =>
      dsimp only
      split
      · rcases l.resendUplink tx pid interval with ⟨e | tb, l'⟩ <;> exact h.of_same rfl rfl
      · rcases l.startUplink tx pid interval t.uplinkPending with ⟨e | tb, l'⟩ <;>
          exact h.of_same rfl rfl

/-- A configuration needs nothing but the channels to be there. -/
theorem apply (hlength : t.channels.channels.length = nofLcids) {c : TerminalConfig}
    (hkeyed : c.bearers.Keyed) (hc : c.check cells.length = .ok ()) (pools : PucchPools) :
    (t.apply cells c pools).2.1.Mirrors := by
  obtain ⟨-, hlt, hbearers⟩ := of_check hc
  obtain ⟨links, hlinks, -⟩ := exists_placeLinks t c hlt 0
  obtain ⟨channels, hchannels, -⟩ := applyBearers_spec hbearers t.channels
  obtain ⟨-, hconfig, -, hchannels', -⟩ := apply_of_placed (Prod.ext hlinks rfl) hchannels pools
  rw [Mirrors, hconfig, hchannels']
  exact mirrors_applyBearers hlength hkeyed hbearers hchannels

theorem setConfig (h : t.Mirrors) {c : TerminalConfig} (hkeyed : c.bearers.Keyed)
    (pools : PucchPools) : (t.setConfig c cells pools).2.1.Mirrors := by
  unfold Terminal.setConfig
  cases hc : c.check cells.length with
  | error e => exact h
  | ok _ => exact apply h.length_eq hkeyed hc pools

end Mirrors

/-! ## Runs -/

/-- The event meets the pools of the cell, whoever uses them, and a configuration binds each
channel once. -/
def Event.Proper (u : PucchPools) : Event → Prop
  | .configure c pools => c.bearers.Keyed ∧ pools.Like u
  | .boundary _ pools => pools.Like u
  | _ => True

/-- The channels and the leases agree with the configuration. -/
structure Derived (u : PucchPools) (t : Terminal) : Prop where
  mirrors : t.Mirrors
  leased : t.Leased u

theorem Derived.step {u : PucchPools} (h : t.Derived u) (hu : u.Gridded) {e : Event}
    (he : e.Proper u) : (t.step cells e).Derived u := by
  cases e with
  | act action => exact ⟨h.mirrors.perform action, h.leased.of_sameLeases (.perform t action)⟩
  | withdrawRequest =>
      exact ⟨h.mirrors.of_same rfl rfl, h.leased.of_sameLeases (.of_fields rfl rfl rfl rfl rfl)⟩
  | configure c pools =>
      exact ⟨h.mirrors.setConfig he.1 pools, (h.leased.setConfig hu he.2 cells c).1⟩
  | boundary now pools => exact ⟨h.mirrors.newTti now pools, (h.leased.newTti hu he now).1⟩
  | grantDownlink tx carrier pid mask dci =>
      exact ⟨h.mirrors.grantDownlink tx carrier pid mask dci,
        h.leased.of_sameLeases (.grantDownlink t tx carrier pid mask dci)⟩
  | grantUplink tx carrier pid interval dci =>
      exact ⟨h.mirrors.grantUplink tx carrier pid interval dci,
        h.leased.of_sameLeases (.grantUplink t tx carrier pid interval dci)⟩

theorem Derived.run {u : PucchPools} (h : t.Derived u) (hu : u.Gridded) {es : List Event}
    (hes : ∀ e ∈ es, e.Proper u) : (t.run cells es).Derived u := by
  induction es generalizing t with
  | nil => exact h
  | cons e es ih =>
      exact ih (h.step hu (hes e List.mem_cons_self)) fun e' he' ↦
        hes e' (List.mem_cons_of_mem e he')

theorem Derived.of_create {u : PucchPools} (hu : u.Gridded) {rnti : Rnti} {c : TerminalConfig}
    {pools pools' : PucchPools} (h : create rnti c cells pools = (.ok t, pools'))
    (hpools : pools.Like u) (hkeyed : c.bearers.Keyed) : t.Derived u := by
  have hc := (Terminal.of_create h).1
  have hmirrors : ((blank rnti c).apply cells c pools).2.1.Mirrors := .apply rfl hkeyed hc pools
  have hleased := (create_leased hu hpools rnti c cells).1 t (congrArg Prod.fst h)
  rw [← step_blank_of_create h] at hleased ⊢
  refine ⟨?_, hleased⟩
  rw [Terminal.step, Terminal.setConfig, hc]
  exact hmirrors

/-- Whatever happens to a terminal, what it derives agrees with its configuration: its links
are the configured carriers in order, each at its own position; each channel has the bearer that
is configured for it, or none; and each lease has the period asked for, or the pool's own. -/
theorem derived_agrees_with_config {config : Config} {rnti : Rnti} {c : TerminalConfig}
    {pools pools' : PucchPools} {t₀ : Terminal}
    (h : create rnti c (CellParams.all config) pools = (.ok t₀, pools'))
    (hpools : pools.Like (unusedPools config)) (hkeyed : c.bearers.Keyed) {es : List Event}
    (hes : ∀ e ∈ es, e.Proper (unusedPools config)) :
    let t := t₀.run (CellParams.all config) es
    (t.links.map (·.carrier) = t.config.carriers.map (·.index) ∧
      ∀ (i : Nat) (l : Link), t.links[i]? = some l → l.position = i) ∧
    (∀ lcid, (t.channels.channel lcid).bearer = t.config.bearers.get? lcid) ∧
    ∀ kind l, t.lease? kind = some l → l.resource.period =
      (t.config.period? kind).getD ((unusedPools config).pool kind).defaultPeriod := by
  have hu : (unusedPools config).Gridded := PucchPools.gridded_ofConfig _ _
  have hnumbered := CellParams.numbered_all config
  have hformed := (Formed.of_create hnumbered h).run hnumbered es
  have hderived : (t₀.run (CellParams.all config) es).Derived (unusedPools config) :=
    (Derived.of_create hu h hpools hkeyed).run hu hes
  exact ⟨⟨hformed.carriers_eq, hformed.position_eq⟩, hderived.mirrors.bearer_eq,
    fun kind l hl ↦ (hderived.leased kind l hl).period_eq⟩

def pairOfCells : Config := { cells := [{}, {}] }

/-- The first cell as a secondary carrier, one bearer, and a period for scheduling requests. -/
def reordered : TerminalConfig :=
  { carriers := [⟨1, true⟩, ⟨0, false⟩], bearers := [(3, ⟨.both, 5, 1⟩)], srPeriod := some 40 }

/-- A bearer comes, the terminal is configured anew, and the last bearer goes. -/
def reordering : List Event :=
  [.act (.configureBearer 4 ⟨.downlink, 3, 2⟩), .configure reordered (unusedPools pairOfCells),
    .boundary (Tti.ofNat 1) (unusedPools pairOfCells), .act (.removeBearer 3)]

theorem derived_agrees_reordering :
    let t₀ := created pairOfCells ⟨70⟩ {}
    let t := t₀.run (CellParams.all pairOfCells) reordering
    create ⟨70⟩ {} (CellParams.all pairOfCells) (unusedPools pairOfCells) =
        (.ok t₀, (create ⟨70⟩ {} (CellParams.all pairOfCells) (unusedPools pairOfCells)).2) ∧
      t.links.map (·.carrier) = [1, 0] ∧
      (∀ lcid, (t.channels.channel lcid).bearer = none) ∧
      ∃ l, t.srLease = some l ∧ l.resource.period = 40 := by
  intro t₀ t
  have hcreate : create ⟨70⟩ {} (CellParams.all pairOfCells) (unusedPools pairOfCells) =
      (.ok t₀, (create ⟨70⟩ {} (CellParams.all pairOfCells) (unusedPools pairOfCells)).2) := rfl
  have hproper : ∀ e ∈ reordering, e.Proper (unusedPools pairOfCells) := by
    simp [reordering, reordered, Event.Proper, Bearers.Keyed, PucchPools.Like]
  obtain ⟨⟨hcarriers, -⟩, hbearers, hperiods⟩ :=
    derived_agrees_with_config hcreate (fun _ ↦ rfl) (by simp [Bearers.Keyed]) hproper
  have hconfig : t.config = { reordered with bearers := [] } := by decide +kernel
  obtain ⟨l, hl⟩ : ∃ l, t.srLease = some l := by
    have hsome : t.srLease.isSome = true := by decide +kernel
    exact Option.isSome_iff_exists.mp hsome
  refine ⟨hcreate, ?_, fun lcid ↦ ?_, l, hl, ?_⟩
  · rw [hcarriers, hconfig]
    rfl
  · rw [hbearers, hconfig]
    rfl
  · rw [hperiods .sr l hl, hconfig]
    rfl

end MacScheduler.Terminal
