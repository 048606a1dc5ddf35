import MacScheduler.Proofs.Scheduler.Fulfil

/-!
# Runs that sweep the carriers

A run sweeps the carriers when it pulls all of them at the same points, one after
the other and in any order, and goes from one point to a later one less than half a
turn away, less a round trip.  A carrier may be pulled more than once at a point, and
any other requests come in between.  A ghost log tells which passes ran, with points
counted from the start, so the turns of the clock are told apart.

Before each pass the roster is orderly, as in a run that leaves no point out, but
for retransmissions that were due at a point left out.
-/

namespace MacScheduler

theorem Tti.ofNat_add (m n : Nat) : ofNat (m + n) = ofNat m + n :=
  eq_of_index (by rw [index_add, index_ofNat, index_ofNat]; omega)

/-! ## What a pass announces -/

/-- A transmission as its grant names it. -/
structure Sending where
  rnti : Rnti
  carrier : Nat
  pid : Nat
  tx : Tti
deriving DecidableEq

def DlGrant.sending (g : DlGrant) : Sending := ⟨g.rnti, g.carrier, g.pid, g.txTti⟩

def UlGrant.sending (g : UlGrant) : Sending := ⟨g.rnti, g.carrier, g.pid, g.txTti⟩

def DlPlan.sending (carrier : Nat) (tx : Tti) (d : DlPlan) : Sending := ⟨d.rnti, carrier, d.pid, tx⟩

def UlPlan.sending (carrier : Nat) (tx : Tti) (u : UlPlan) : Sending := ⟨u.rnti, carrier, u.pid, tx⟩

def SubframeResult.dlSendings (r : SubframeResult) : List Sending := r.dl.map DlGrant.sending

def SubframeResult.ulSendings (r : SubframeResult) : List Sending := r.ul.map UlGrant.sending

namespace CarrierPass

variable {c : CarrierPass} {order : Direction → List Candidate → List Candidate} {now : Tti}
  {roster : Roster} {pools : PucchPools}

section

variable (horder : ∀ dir cs, (order dir cs).Perm cs) (hprb : c.params.nofPrb ≤ 128)
  (hrntis : ((c.observed now roster pools).2.1.map (·.rnti)).Nodup) (elapsed : Nat)

include horder hprb hrntis

/-- Every grant of a pass is for its carrier and is sent when the pass says. -/
theorem stamped_dl : ∀ g ∈ (c.schedule order now elapsed roster pools).1.dl,
    g.carrier = c.params.index ∧ g.txTti = now.downlinkTx := by
  intro g hg
  rw [(c.schedule_parts order now elapsed roster pools).2.1, downlinkOf,
    mem_commitDownlink _ _ hrntis (nodup_planOf horder hprb hrntis).1] at hg
  obtain ⟨d, -, t, -, -, hg⟩ := hg
  have hanswer :=
    (t.grantDownlink_spec now.downlinkTx c.params.index d.pid d.mask d.dci).answer.2 g hg
  exact ⟨hanswer.carrier, hanswer.txTti⟩

theorem stamped_ul : ∀ g ∈ (c.schedule order now elapsed roster pools).1.ul,
    g.carrier = c.params.index ∧ g.txTti = now.uplinkTx := by
  intro g hg
  have hroster : ((c.downlinkOf order now roster pools).2.1.map (·.rnti)).Nodup := by
    rw [downlinkOf_roster horder hprb hrntis, rntis_map_committed (rnti_grantDl _ _)]
    exact hrntis
  rw [(c.schedule_parts order now elapsed roster pools).2.2.1, uplinkOf,
    mem_commitUplink _ _ hroster (nodup_planOf horder hprb hrntis).2] at hg
  obtain ⟨u, -, t, -, -, hg⟩ := hg
  have hanswer :=
    (t.grantUplink_spec now.uplinkTx c.params.index u.pid u.interval u.dci).answer.2 g hg
  exact ⟨hanswer.carrier, hanswer.txTti⟩

variable {cells : List CellParams} (hf : ∀ t ∈ roster, t.Formed cells)
  (hp : cells[c.params.index]? = some c.params) (hnodup : (roster.map (·.rnti)).Nodup)

include hf hp hnodup

/-- The grants of a pass announce what its plan has, entry by entry. -/
theorem dlSendings_schedule :
    (c.schedule order now elapsed roster pools).1.dlSendings =
      (c.planOf order now roster pools).dl.map
        (DlPlan.sending c.params.index now.downlinkTx) := by
  have hfulfilled := schedule_fulfilled now pools hnodup hf hp hprb horder elapsed
  have hstamped := (List.forall₂_and_left _ _).mpr
    ⟨stamped_dl horder hprb hrntis elapsed, List.Forall₂.flip hfulfilled.dl⟩
  refine (map_eq_of_forall₂ hstamped fun g d hgd ↦ ?_).symm
  obtain ⟨⟨hcarrier, htx⟩, hgranted⟩ := hgd
  rw [DlPlan.sending, DlGrant.sending, hgranted.rnti_eq, hgranted.pid_eq, hcarrier, htx]

theorem ulSendings_schedule :
    (c.schedule order now elapsed roster pools).1.ulSendings =
      (c.planOf order now roster pools).ul.map
        (UlPlan.sending c.params.index now.uplinkTx) := by
  have hfulfilled := schedule_fulfilled now pools hnodup hf hp hprb horder elapsed
  have hstamped := (List.forall₂_and_left _ _).mpr
    ⟨stamped_ul horder hprb hrntis elapsed, List.Forall₂.flip hfulfilled.ul⟩
  refine (map_eq_of_forall₂ hstamped fun g u hgu ↦ ?_).symm
  obtain ⟨⟨hcarrier, htx⟩, hgranted⟩ := hgu
  rw [UlPlan.sending, UlGrant.sending, hgranted.rnti_eq, hgranted.pid_eq, hcarrier, htx]

end

end CarrierPass

namespace CellSet

variable {cells cells' : CellSet} {n : Nat} {waiting : List Nat} {r r' : Roster}

/-- The carrier was granted at the present point already. -/
def Served (cells : CellSet) (n carrier : Nat) : Prop :=
  ∃ pass, cells.passes[carrier]? = some pass ∧ pass.lastTti = some (.ofNat n)

/-- The terminals have reached point `k`: the present one, or the one before it, if no
carrier was pulled at the present one yet. -/
def Reached (cells : CellSet) (n : Nat) (waiting : List Nat) (k : Nat) : Prop :=
  k = n ∨ ∃ d, n = k + d ∧ CellParams.InPace cells.params d ∧
    ∀ i < cells.passes.length, i ∈ waiting

theorem Reached.inPace {k : Nat} (hk : cells.Reached n waiting k) (h : cells.Configured) :
    ∃ d, n = k + d ∧ CellParams.InPace cells.params d := by
  rcases hk with rfl | ⟨d, hn, hd, -⟩
  · exact ⟨0, rfl, h.listed.inPace (Nat.zero_le 1)⟩
  · exact ⟨d, hn, hd⟩

theorem Reached.of_passes {k : Nat} (hk : cells.Reached n waiting k)
    (hpasses : cells'.passes = cells.passes) : cells'.Reached n waiting k := by
  rw [Reached, params_of_passes hpasses, hpasses]
  exact hk

/-- The carriers in `waiting` are still to be pulled at point `n`, and those not pulled again
yet last ran in pace with it. -/
structure Swept (n : Nat) (waiting : List Nat) (cells : CellSet) (r : Roster) : Prop where
  configured : cells.Configured
  waits : ∀ i ∈ waiting, ∀ pass, cells.passes[i]? = some pass →
    ∃ t d, 1 ≤ d ∧ d ≤ 5119 ∧ Tti.ofNat n = t + d ∧ pass.RanAt t
  ran : ∀ i pass, cells.passes[i]? = some pass → i ∉ waiting → pass.RanAt (.ofNat n)
  roster : ∃ k, cells.Reached n waiting k ∧
    r.Orderly cells.params (.ofNat k) (.ofNat n) (cells.Served n) fun _ ↦ False

namespace Swept

theorem of_create {c : Config} (h : create c = .ok cells) (n : Nat) (waiting : List Nat) :
    cells.Swept n waiting [] where
  configured := .of_create h
  waits := by
    intro i _ pass hpass
    refine ⟨.ofNat (n + 10239), 1, Nat.le_refl 1, by omega, ?_, ranAt_of_create h hpass _⟩
    apply Tti.eq_of_index
    rw [Tti.index_add, Tti.index_ofNat, Tti.index_ofNat]
    omega
  ran := fun _ _ hpass _ ↦ ranAt_of_create h hpass _
  roster := ⟨n, .inl rfl, .nil _ _ _ _ _⟩

theorem kept (h : cells.Swept n waiting r) (hpasses : cells'.passes = cells.passes) {k : Nat}
    (hk : cells.Reached n waiting k)
    (horderly : r'.Orderly cells.params (.ofNat k) (.ofNat n) (cells.Served n) fun _ ↦ False) :
    cells'.Swept n waiting r' := by
  have hparams := params_of_passes hpasses
  have hserved : cells'.Served n = cells.Served n := by
    funext carrier
    rw [Served, Served, hpasses]
  refine ⟨h.configured.of_params hparams, hpasses ▸ h.waits, hpasses ▸ h.ran, k,
    hk.of_passes hpasses, ?_⟩
  rw [hparams, hserved]
  exact horderly

theorem admits (h : cells.Swept n waiting r) {carrier : Nat} {pass : CarrierPass}
    (hpass : cells.passes[carrier]? = some pass) (hwaits : carrier ∈ waiting) :
    pass.Admits (.ofNat n) := by
  obtain ⟨t, d, hpos, hd, hn, hran⟩ := h.waits carrier hwaits pass hpass
  rw [hn]
  exact hran.admits hpos hd

theorem not_served {carrier : Nat} {pass : CarrierPass}
    (hpass : cells.passes[carrier]? = some pass) (hadmits : pass.Admits (.ofNat n)) :
    ¬cells.Served n carrier := by
  rintro ⟨pass', hpass', hlast⟩
  obtain rfl := Option.some.inj (hpass.symm.trans hpass')
  have hafter := hadmits.last _ hlast
  simp [Tti.isAfter] at hafter

theorem reached_idle (h : cells.Swept n waiting r) {carrier : Nat}
    (hnot : ∀ pass, cells.passes[carrier]? = some pass → ¬pass.Admits (.ofNat n)) {k : Nat}
    (hk : cells.Reached n waiting k) :
    cells.Reached n (waiting.filter fun i ↦ decide (i ≠ carrier)) k := by
  refine hk.imp_right fun ⟨d, hn, hd, hall⟩ ↦ ⟨d, hn, hd, fun i hi ↦ ?_⟩
  refine List.mem_filter.mpr ⟨hall i hi, decide_eq_true ?_⟩
  rintro rfl
  exact hnot _ (List.getElem?_eq_getElem hi) (h.admits (List.getElem?_eq_getElem hi) (hall i hi))

/-- A pull that runs no pass is of a carrier that was not waited for. -/
theorem idle (h : cells.Swept n waiting r) {carrier : Nat}
    (hnot : ∀ pass, cells.passes[carrier]? = some pass → ¬pass.Admits (.ofNat n)) :
    cells.Swept n (waiting.filter fun i ↦ decide (i ≠ carrier)) r where
  configured := h.configured
  waits := fun i hi ↦ h.waits i (List.mem_filter.mp hi).1
  ran := by
    intro i pass hpass hi
    refine h.ran i pass hpass fun hwaits ↦ hi (List.mem_filter.mpr ⟨hwaits, ?_⟩)
    apply decide_eq_true
    rintro rfl
    exact hnot pass hpass (h.admits hpass hwaits)
  roster := by
    obtain ⟨k, hk, horderly⟩ := h.roster
    exact ⟨k, h.reached_idle hnot hk, horderly⟩

/-- The terminals that a pass at the present point plans for. -/
theorem observe (h : cells.Swept n waiting r) (carrier : Nat) (pools : PucchPools) :
    (∃ k d, r.Passed cells.params (.ofNat k) d
      (CarrierPass.observe (.ofNat n) carrier pools r).2.1) ∧
    (CarrierPass.observe (.ofNat n) carrier pools r).2.1.Orderly cells.params (.ofNat n)
      (.ofNat n) (cells.Served n) fun _ ↦ False := by
  obtain ⟨k, hk, horderly⟩ := h.roster
  obtain ⟨d, rfl, hd⟩ := hk.inPace h.configured
  have hpassed := Roster.passed_observe horderly.rntis horderly.steady hd carrier pools
  have hobserve := horderly.observe hd carrier pools
  rw [← Tti.ofNat_add] at hpassed hobserve
  exact ⟨⟨k, d, hpassed⟩, hobserve.imp (fun _ hc ↦ hc) fun _ hc ↦ hc.elim⟩

theorem set_pass (h : cells.Swept n waiting r) {carrier : Nat} {pass pass' : CarrierPass}
    (hpass : cells.passes[carrier]? = some pass) (hran : pass'.RanAt (.ofNat n))
    (hlast : pass'.lastTti = some (.ofNat n)) (hparams : pass'.params = pass.params)
    (hpasses : cells'.passes = cells.passes.set carrier pass')
    (horderly : r'.Orderly cells.params (.ofNat n) (.ofNat n)
      (fun c ↦ c = carrier ∨ cells.Served n c) fun _ ↦ False) :
    cells'.Swept n (waiting.filter fun i ↦ decide (i ≠ carrier)) r' := by
  have hsame : cells'.params = cells.params := by
    rw [params, hpasses]
    exact params_set_pass hpass hparams
  have hself : cells'.passes[carrier]? = some pass' := by
    rw [hpasses, List.getElem?_set_self (List.getElem?_eq_some_iff.mp hpass).1]
  have hother : ∀ i ≠ carrier, cells'.passes[i]? = cells.passes[i]? := by
    intro i hi
    rw [hpasses, List.getElem?_set_ne (Ne.symm hi)]
  refine ⟨h.configured.of_params hsame, ?_, ?_, n, .inl rfl, ?_⟩
  · intro i hi p hp
    obtain ⟨hwaits, hne⟩ := List.mem_filter.mp hi
    rw [hother i (of_decide_eq_true hne)] at hp
    exact h.waits i hwaits p hp
  · intro i p hp hi
    by_cases hic : i = carrier
    · subst hic
      rw [hself] at hp
      exact Option.some.inj hp ▸ hran
    · rw [hother i hic] at hp
      refine h.ran i p hp fun hwaits ↦ hi (List.mem_filter.mpr ⟨hwaits, ?_⟩)
      exact decide_eq_true hic
  · rw [hsame]
    refine horderly.imp (fun c hc ↦ ?_) fun _ hc ↦ hc
    by_cases hcc : c = carrier
    · exact ⟨pass', hcc ▸ hself, hlast⟩
    · obtain ⟨p, hp, hpLast⟩ := hc.resolve_left hcc
      exact ⟨p, (hother c hcc).trans hp, hpLast⟩

/-- When no carrier is waited for, the terminals have reached the present point. -/
theorem reached_eq (h : cells.Swept n [] r) {k : Nat} (hk : cells.Reached n [] k) : k = n := by
  rcases hk with hk | ⟨d, -, -, hall⟩
  · exact hk
  · cases hall 0 h.configured.passes_pos

theorem reached_next {d : Nat} (hd : CellParams.InPace cells.params d) :
    cells.Reached (n + d) (List.range cells.passes.length) n :=
  .inr ⟨d, rfl, hd, fun _ hi ↦ List.mem_range.mpr hi⟩

/-- Time goes on when every carrier has been pulled. -/
theorem next (h : cells.Swept n [] r) {d : Nat} (hpos : 1 ≤ d)
    (hd : CellParams.InPace cells.params d) :
    cells.Swept (n + d) (List.range cells.passes.length) r where
  configured := h.configured
  waits := by
    intro i _ pass hpass
    have hround := hd pass.params (List.mem_of_getElem? (params_of_pass hpass))
    have hbounds := HarqConfig.roundTrip_bounds (h.configured.pass hpass).2.1
    exact ⟨.ofNat n, d, hpos, by omega, Tti.ofNat_add n d, h.ran i pass hpass List.not_mem_nil⟩
  ran := fun i _ hpass hi ↦
    (hi (List.mem_range.mpr (List.getElem?_eq_some_iff.mp hpass).1)).elim
  roster := by
    obtain ⟨k, hk, horderly⟩ := h.roster
    obtain rfl := h.reached_eq hk
    refine ⟨k, reached_next hd, ?_⟩
    rw [Tti.ofNat_add]
    exact (horderly.nextPoint hpos hd).imp (fun _ hc ↦ hc.elim) fun _ hc ↦ hc

end Swept

end CellSet

/-! ## Passes that run -/

/-- A pass that ran: at which point, counted in subframes, on which carrier and with what
result. -/
structure RanPass where
  point : Nat
  params : CellParams
  result : SubframeResult

namespace Scheduler

variable {s s' : Scheduler} {n : Nat} {waiting : List Nat} {log : List RanPass} {cells : CellSet}
  {carrier : Nat}

/-- The pass that a pull at point `n` runs, if it runs one. -/
def ranPass? (s : Scheduler) (n carrier elapsed : Nat) : Option RanPass :=
  ((s.cells.bind (·.passes[carrier]?)).filter fun pass ↦ decide (pass.Admits (.ofNat n))).bind
    fun pass ↦ ((s.pull (.ofNat n) carrier elapsed).2.resultOf? carrier).map
      fun r ↦ ⟨n, pass.params, r⟩

/-- The pass `e` of a carrier runs at point `n`: it plans for the terminals `before`, which
have reached the point, and its grants announce just what it plans. -/
structure Executes (cells : CellSet) (n carrier : Nat) (s s' : Scheduler) (e : RanPass)
    (before : Roster) (plan : SubframePlan) : Prop where
  listed : CellParams.Listed cells.params
  point_eq : e.point = n
  params : cells.params[carrier]? = some e.params
  passed : ∃ k d, s.terminals.Passed cells.params (.ofNat k) d before
  orderly : before.Orderly cells.params (.ofNat n) (.ofNat n) (cells.Served n) fun _ ↦ False
  not_served : ¬cells.Served n carrier
  planned : ∃ order : Direction → List Candidate → List Candidate,
    (∀ dir cs, (order dir cs).Perm cs) ∧
      SubframePlan.make e.params order (before.snapshots (.ofNat n) carrier) = plan
  cells : ∃ cells', s'.cells = some cells' ∧ cells'.params = cells.params
  after : s'.terminals = CarrierPass.afterPass (.ofNat n) carrier plan before
  dl : e.result.dlSendings = plan.dl.map (DlPlan.sending carrier (Tti.ofNat n).downlinkTx)
  ul : e.result.ulSendings = plan.ul.map (UlPlan.sending carrier (Tti.ofNat n).uplinkTx)

def Swept (s : Scheduler) (n : Nat) (waiting : List Nat) : Prop :=
  ∃ cells, s.cells = some cells ∧ cells.Swept n waiting s.terminals

theorem Swept.of_cells (h : s.Swept n waiting) (hcells : s.cells = some cells) :
    cells.Swept n waiting s.terminals := by
  obtain ⟨cells', hcells', hswept⟩ := h
  obtain rfl := Option.some.inj (hcells.symm.trans hcells')
  exact hswept

theorem pull_of_not_admits (hcells : s.cells = some cells)
    (hnot : ∀ pass, cells.passes[carrier]? = some pass → ¬pass.Admits (.ofNat n))
    (elapsed : Nat) :
    (s.pull (.ofNat n) carrier elapsed).2 = s ∧ s.ranPass? n carrier elapsed = none := by
  have hfilter : ((s.cells.bind (·.passes[carrier]?)).filter
      fun pass ↦ decide (pass.Admits (.ofNat n))) = none := by
    rw [hcells, Option.bind_some]
    cases hpass : cells.passes[carrier]? with
    | none => rfl
    | some pass => simp [hnot pass hpass]
  constructor
  · apply pull_of_passPoint?_eq_none
    rw [passPoint?, hfilter, Option.map_none]
  · rw [ranPass?, hfilter, Option.bind_none]

section

variable (hcells : s.cells = some cells) (h : cells.Swept n waiting s.terminals)

include hcells h

theorem Swept.handle {r : Request} (hr : r.isPull = false) : (s.handle r).2.Swept n waiting := by
  obtain ⟨k, hk, horderly⟩ := h.roster
  have hedits :=
    edits_handle hcells h.configured.listed horderly.rntis horderly.steady hr
  cases hedits with
  | replaced hcells' hcreate hnone =>
      exact ⟨_, hcells', hnone.symm ▸ .of_create hcreate n waiting⟩
  | kept hcells' hpasses heased =>
      exact ⟨_, hcells', h.kept hpasses hk (horderly.of_eased heased)⟩

theorem executes_of_admits (hattached : s.Attached) {pass : CarrierPass}
    (hpass : cells.passes[carrier]? = some pass) (hadmits : pass.Admits (.ofNat n))
    (elapsed : Nat) :
    (s.pull (.ofNat n) carrier elapsed).2.Swept n (waiting.filter fun i ↦ decide (i ≠ carrier)) ∧
    ∃ e before plan, s.ranPass? n carrier elapsed = some e ∧
      Executes cells n carrier s (s.pull (.ofNat n) carrier elapsed).2 e before plan := by
  have hlisted := h.configured.listed
  have hp := CellSet.params_of_pass hpass
  have hprb := hlisted.nofPrb_le hp
  obtain ⟨-, -, rfl⟩ := h.configured.pass hpass
  have horder := cells.policy.prioritize_perm (.ofNat n) pass.params.index
  obtain ⟨hpassed, horderly⟩ := h.observe pass.params.index cells.pools
  have hserved := CellSet.Swept.not_served hpass hadmits
  obtain ⟨res, hres, heq⟩ := pull_of_admits hcells hpass hadmits
    (CarrierPass.counted_of_orderly horderly hlisted hp) elapsed
  have hafter := CarrierPass.schedule_roster horder hprb horderly.rntis elapsed
  have hformed := hattached.formed_of_cells hcells
  have hdl := CarrierPass.dlSendings_schedule horder hprb horderly.rntis elapsed hformed hp
    hattached.nodup
  have hul := CarrierPass.ulSendings_schedule horder hprb horderly.rntis elapsed hformed hp
    hattached.nodup
  have hrx := (pass.schedule_parts (cells.policy.prioritize (.ofNat n) pass.params.index)
    (.ofNat n) elapsed s.terminals cells.pools).1
  have hnext := CarrierPass.orderly_afterPass horderly hlisted hp horder hserved
  rw [← hres] at hafter hdl hul hrx
  rw [CarrierPass.planOf_eq] at hafter hdl hul
  constructor
  · rw [heq]
    refine ⟨_, rfl, h.set_pass hpass ?_ ?_ ?_ rfl ?_⟩
    · refine ⟨.inr rfl, fun kept hkept ↦ ?_⟩
      rw [← Option.some.inj hkept, hrx]
    · rfl
    · rfl
    · rw [hafter]
      exact hnext.imp (fun _ hc ↦ hc) fun _ hc ↦ hc.elim
  · refine ⟨⟨n, pass.params, res.1⟩, _, _, ?_, hlisted, rfl, hp, hpassed, horderly, hserved,
      ⟨_, horder, rfl⟩, ?_, ?_, hdl, hul⟩
    · rw [ranPass?, hcells, Option.bind_some, hpass, Option.filter_some,
        if_pos (decide_eq_true hadmits), Option.bind_some, heq, resultOf?, Option.bind_some,
        List.getElem?_set_self (List.getElem?_eq_some_iff.mp hpass).1]
      rfl
    · rw [heq]
      exact ⟨_, rfl, CellSet.params_set_pass hpass rfl⟩
    · rw [heq]
      exact hafter

/-- A pull runs its pass, or changes nothing. -/
theorem pull_cases (hattached : s.Attached) (carrier elapsed : Nat) :
    (s.pull (.ofNat n) carrier elapsed).2.Swept n (waiting.filter fun i ↦ decide (i ≠ carrier)) ∧
    (((s.pull (.ofNat n) carrier elapsed).2 = s ∧ s.ranPass? n carrier elapsed = none ∧
      ∀ k, cells.Reached n waiting k →
        cells.Reached n (waiting.filter fun i ↦ decide (i ≠ carrier)) k) ∨
    ∃ e before plan, s.ranPass? n carrier elapsed = some e ∧
      Executes cells n carrier s (s.pull (.ofNat n) carrier elapsed).2 e before plan) := by
  by_cases hadmits : ∃ pass, cells.passes[carrier]? = some pass ∧ pass.Admits (.ofNat n)
  · obtain ⟨pass, hpass, hadmits⟩ := hadmits
    obtain ⟨hswept, hexecutes⟩ := executes_of_admits hcells h hattached hpass hadmits elapsed
    exact ⟨hswept, .inr hexecutes⟩
  · have hnot : ∀ pass, cells.passes[carrier]? = some pass → ¬pass.Admits (.ofNat n) :=
      fun pass hpass hyes ↦ hadmits ⟨pass, hpass, hyes⟩
    obtain ⟨hsame, hnone⟩ := pull_of_not_admits hcells hnot elapsed
    refine ⟨?_, .inl ⟨hsame, hnone, fun _ hk ↦ h.reached_idle hnot hk⟩⟩
    rw [hsame]
    exact ⟨cells, hcells, h.idle hnot⟩

end

namespace Executes

variable {e : RanPass} {before : Roster} {plan : SubframePlan}

theorem fades_dl (h : Executes cells n carrier s s' e before plan) :
    s.terminals.Fades Link.dl before := by
  obtain ⟨_, _, hpassed⟩ := h.passed
  exact hpassed.fades_dl

theorem fades_ul (h : Executes cells n carrier s s' e before plan) :
    s.terminals.Fades Link.ul before := by
  obtain ⟨_, _, hpassed⟩ := h.passed
  exact hpassed.fades_ul

/-- What is in flight after the pass was so before, or is an entry of the plan. -/
theorem flies_dl (h : Executes cells n carrier s s' e before plan) (c : Nat) (f : Flight RbgMask)
    (hf : s'.terminals.Flies Link.dl c f) : before.Flies Link.dl c f ∨
      c = carrier ∧ f.sent = (Tti.ofNat n).downlinkTx ∧
        plan.HasDl f.rnti f.pid f.alloc := by
  obtain ⟨order, horder, hplan⟩ := h.planned
  rw [h.after] at hf
  exact Roster.flies_dl_of_sends
    (CarrierPass.sends_afterPass h.orderly h.listed h.params horder hplan) c f hf

theorem flies_ul (h : Executes cells n carrier s s' e before plan) (c : Nat)
    (f : Flight PrbInterval) (hf : s'.terminals.Flies Link.ul c f) : before.Flies Link.ul c f ∨
      c = carrier ∧ f.sent = (Tti.ofNat n).uplinkTx ∧
        plan.HasUl f.rnti f.pid f.alloc := by
  obtain ⟨order, horder, hplan⟩ := h.planned
  rw [h.after] at hf
  exact Roster.flies_ul_of_sends
    (CarrierPass.sends_afterPass h.orderly h.listed h.params horder hplan) c f hf

end Executes

/-! ## Runs -/

/-- The states of a scheduler whose carriers are all pulled at the same points: `n` is the
present point, counted in subframes, the carriers in `waiting` are still to be pulled at it,
and the passes in `log` have run. -/
inductive Sweeps : Scheduler → Nat → List Nat → List RanPass → Prop
  | start {c : Config} (h : c.check = .ok ()) (n : Nat) :
      Sweeps (({} : Scheduler).handle (.configureCells c)).2 n [] []
  | request {s : Scheduler} {n : Nat} {waiting : List Nat} {log : List RanPass}
      (h : Sweeps s n waiting log) {r : Request} (hr : r.isPull = false) :
      Sweeps (s.handle r).2 n waiting log
  | pull {s : Scheduler} {n : Nat} {waiting : List Nat} {log : List RanPass}
      (h : Sweeps s n waiting log) (carrier elapsed : Nat) :
      Sweeps (s.handle (.pull (.ofNat n) carrier elapsed)).2 n
        (waiting.filter fun i ↦ decide (i ≠ carrier))
        ((s.ranPass? n carrier elapsed).toList ++ log)
  | next {s : Scheduler} {n : Nat} {log : List RanPass} (h : Sweeps s n [] log)
      {cells : CellSet} (hcells : s.cells = some cells) {d : Nat} (hpos : 1 ≤ d)
      (hpace : CellParams.InPace cells.params d) :
      Sweeps s (n + d) (List.range cells.passes.length) log

namespace Sweeps

theorem reachable (h : s.Sweeps n waiting log) : s.Reachable := by
  induction h with
  | start => exact Reachable.start.step _
  | request _ _ ih => exact ih.step _
  | pull _ carrier elapsed ih => exact ih.step _
  | next _ _ _ _ ih => exact ih

theorem swept (h : s.Sweeps n waiting log) : s.Swept n waiting := by
  induction h with
  | @start c hcheck n =>
      obtain ⟨cells, hcreate, hstart⟩ := exists_start hcheck
      rw [hstart]
      exact ⟨cells, rfl, .of_create hcreate n []⟩
  | request _ hr ih =>
      obtain ⟨cells, hcells, hswept⟩ := ih
      exact Swept.handle hcells hswept hr
  | pull h carrier elapsed ih =>
      obtain ⟨cells, hcells, hswept⟩ := ih
      exact (pull_cases hcells hswept h.reachable.attached carrier elapsed).1
  | next _ hcells hpos hpace ih => exact ⟨_, hcells, (ih.of_cells hcells).next hpos hpace⟩

/-- A property of the terminals and the log that each part of a run preserves: replacing the
cells while there is no terminal, any other request, a pull that runs no pass, a pass, and
the clock. -/
structure Invariant (P : CellSet → Nat → List Nat → List RanPass → Roster → Prop) : Prop where
  start : ∀ cells n, P cells n [] [] []
  replaced : ∀ {cells fresh n waiting log r}, P cells n waiting log r → P fresh n waiting log []
  eased : ∀ {cells after : CellSet} {n waiting log r r' now}, after.passes = cells.passes →
    r.Eased cells.params now r' → P cells n waiting log r → P after n waiting log r'
  idle : ∀ {cells n waiting waiting' log r},
    (∀ k, cells.Reached n waiting k → cells.Reached n waiting' k) →
      P cells n waiting log r → P cells n waiting' log r
  pass : ∀ {cells after : CellSet} {n carrier s s' e before plan waiting waiting' log},
    cells.Configured → Executes cells n carrier s s' e before plan →
      after.params = cells.params → P cells n waiting log s.terminals →
        P after n waiting' (e :: log) s'.terminals
  next : ∀ {cells n log r d}, cells.Swept n [] r → CellParams.InPace cells.params d →
    P cells n [] log r → P cells (n + d) (List.range cells.passes.length) log r

theorem of_invariant {P : CellSet → Nat → List Nat → List RanPass → Roster → Prop}
    (hP : Invariant P) (h : s.Sweeps n waiting log) :
    ∃ cells, s.cells = some cells ∧ cells.Swept n waiting s.terminals ∧
      P cells n waiting log s.terminals := by
  suffices hkept : ∃ cells, s.cells = some cells ∧ P cells n waiting log s.terminals by
    obtain ⟨cells, hcells, hp⟩ := hkept
    exact ⟨cells, hcells, h.swept.of_cells hcells, hp⟩
  induction h with
  | @start c hcheck n =>
      obtain ⟨cells, -, hstart⟩ := exists_start hcheck
      rw [hstart]
      exact ⟨cells, rfl, hP.start cells n⟩
  | @request s n waiting log h r hr ih =>
      obtain ⟨cells, hcells, hp⟩ := ih
      have hswept := h.swept.of_cells hcells
      obtain ⟨_, -, horderly⟩ := hswept.roster
      have hedits :=
        edits_handle hcells hswept.configured.listed horderly.rntis horderly.steady hr
      cases hedits with
      | replaced hfresh hcreate hnone => exact ⟨_, hfresh, hnone.symm ▸ hP.replaced hp⟩
      | kept hafter hpasses heased => exact ⟨_, hafter, hP.eased hpasses heased hp⟩
  | @pull s n waiting log h carrier elapsed ih =>
      obtain ⟨cells, hcells, hp⟩ := ih
      have hswept := h.swept.of_cells hcells
      have hhandle : (s.handle (.pull (.ofNat n) carrier elapsed)).2 =
          (s.pull (.ofNat n) carrier elapsed).2 := rfl
      rw [hhandle]
      rcases (pull_cases hcells hswept h.reachable.attached carrier elapsed).2 with
        ⟨hsame, hnone, hreached⟩ | ⟨e, before, plan, hsome, hexecutes⟩
      · rw [hsame, hnone]
        exact ⟨cells, hcells, hP.idle hreached hp⟩
      · obtain ⟨after, hafter, hparams⟩ := hexecutes.cells
        rw [hsome]
        exact ⟨after, hafter, hP.pass hswept.configured hexecutes hparams hp⟩
  | @next s n log h cells hcells d hpos hpace ih =>
      obtain ⟨cells', hcells', hp⟩ := ih
      obtain rfl := Option.some.inj (hcells.symm.trans hcells')
      have hswept := h.swept.of_cells hcells
      exact ⟨cells, hcells, hP.next hswept hpace hp⟩

end Sweeps

/-! ## Runs with one carrier -/

variable {r : Nat}

/-- There is one carrier, with round trip `r`. -/
def Alone (s : Scheduler) (r : Nat) : Prop :=
  s.cells.map (fun cells ↦ cells.params.map (·.harq.roundTrip)) = some [r]

instance (s : Scheduler) (r : Nat) : Decidable (s.Alone r) :=
  inferInstanceAs (Decidable (_ = _))

/-- The only carrier is pulled at point `n`. -/
def pullAlone (x : Scheduler × List RanPass) (n : Nat) : Scheduler × List RanPass :=
  ((x.1.handle (.pull (.ofNat n) 0 10)).2, (x.1.ranPass? n 0 10).toList ++ x.2)

/-- The only carrier is pulled after each of the gaps. -/
def sweepAlone (x : Scheduler × List RanPass) (n : Nat) : List Nat → Scheduler × List RanPass
  | [] => x
  | d :: gaps => sweepAlone (pullAlone x (n + d)) (n + d) gaps

theorem Sweeps.pullAlone (h : s.Sweeps n [] log) (hone : s.Alone r) {d : Nat} (hpos : 1 ≤ d)
    (hd : d + r ≤ 5120) :
    (Scheduler.pullAlone (s, log) (n + d)).1.Sweeps (n + d) []
        (Scheduler.pullAlone (s, log) (n + d)).2 ∧
      (Scheduler.pullAlone (s, log) (n + d)).1.Alone r := by
  obtain ⟨cells, hcells, -⟩ := h.swept
  rw [Alone, hcells, Option.map_some, Option.some.injEq] at hone
  have hpace : CellParams.InPace cells.params d := by
    intro p hp
    have hround := List.mem_map_of_mem (f := fun p : CellParams ↦ p.harq.roundTrip) hp
    rw [hone, List.mem_singleton] at hround
    exact hround ▸ hd
  have hlength : cells.passes.length = 1 := by
    have hparams := congrArg List.length hone
    rwa [List.length_map, CellSet.params, List.length_map] at hparams
  have hnext := h.next hcells hpos hpace
  have hswept := hnext.swept.of_cells hcells
  have hpull := hnext.pull 0 10
  rw [hlength] at hpull
  refine ⟨hpull, ?_⟩
  have hhandle : (Scheduler.pullAlone (s, log) (n + d)).1 =
      (s.pull (.ofNat (n + d)) 0 10).2 := rfl
  rw [hhandle, Alone]
  rcases (pull_cases hcells hswept hnext.reachable.attached 0 10).2 with
    ⟨hsame, -⟩ | ⟨e, before, plan, -, hexecutes⟩
  · rw [hsame, hcells, Option.map_some, hone]
  · obtain ⟨after, hafter, hparams⟩ := hexecutes.cells
    rw [hafter, Option.map_some, hparams, hone]

theorem Sweeps.sweepAlone (h : s.Sweeps n [] log) (hone : s.Alone r) (gaps : List Nat)
    (hgaps : ∀ d ∈ gaps, 1 ≤ d ∧ d + r ≤ 5120) :
    (Scheduler.sweepAlone (s, log) n gaps).1.Sweeps (n + total gaps) []
        (Scheduler.sweepAlone (s, log) n gaps).2 ∧
      (Scheduler.sweepAlone (s, log) n gaps).1.Alone r := by
  induction gaps generalizing s n log with
  | nil => exact ⟨h, hone⟩
  | cons d gaps ih =>
      obtain ⟨hpos, hd⟩ := hgaps d List.mem_cons_self
      obtain ⟨hpull, hpullOne⟩ := h.pullAlone hone hpos hd
      have hrest := ih hpull hpullOne fun e he ↦ hgaps e (List.mem_cons_of_mem d he)
      rwa [Nat.add_assoc, ← total_cons] at hrest

theorem sweeps_uplinkRun (n : Nat) : (uplinkRun 0).Sweeps n [] [] :=
  .request (.request (.start (by decide) n) rfl) rfl

end Scheduler

end MacScheduler
