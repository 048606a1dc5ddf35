import MacScheduler.Proofs.Scheduler.Edits

/-!
# Runs in which every carrier is pulled at every point of the clock

A run starts with an accepted configuration.  At each point of the clock every
carrier is pulled once, in any order, and any other requests may come in between.
Before each pull the roster is orderly, so the pull keeps the place of every
retransmission that is due.
-/

namespace MacScheduler

namespace CellSet

variable {cells cells' : CellSet} {t : Tti} {pulled : List Nat} {r r' : Roster}

theorem Configured.listed (h : cells.Configured) : CellParams.Listed cells.params := by
  intro i p hp
  rw [params, List.getElem?_map] at hp
  obtain ⟨pass, hpass, rfl⟩ := Option.map_eq_some_iff.mp hp
  obtain ⟨hcell, hharq, hindex⟩ := h.pass hpass
  exact ⟨hindex, hcell, hharq⟩

/-- The latest point that the terminals have reached in the round after `t`, of which the
carriers in `pulled` have been pulled. -/
def reached (t : Tti) : List Nat → Tti
  | [] => t
  | _ :: _ => t + 1

/-- The round of `t` is complete, and of the next one the carriers in `pulled` have been
pulled. -/
structure Paced (t : Tti) (pulled : List Nat) (cells : CellSet) (r : Roster) : Prop where
  configured : cells.Configured
  ranAt : ∀ (i : Nat) (pass : CarrierPass), cells.passes[i]? = some pass →
    pass.RanAt (if i ∈ pulled then t + 1 else t)
  orderly : r.Orderly cells.params (reached t pulled) (t + 1) (· ∈ pulled)
    fun c ↦ pulled = [] ∨ c ∈ pulled

theorem params_of_passes (h : cells'.passes = cells.passes) : cells'.params = cells.params := by
  rw [params, params, h]

theorem Paced.of_passes (h : cells.Paced t pulled r) (hpasses : cells'.passes = cells.passes)
    (horderly : r'.Orderly cells.params (reached t pulled) (t + 1) (· ∈ pulled)
      fun c ↦ pulled = [] ∨ c ∈ pulled) : cells'.Paced t pulled r' := by
  have hparams := params_of_passes hpasses
  exact ⟨h.configured.of_params hparams, hpasses ▸ h.ranAt, hparams ▸ horderly⟩

/-- A fresh pass never ran. -/
theorem ranAt_of_create {c : Config} (h : create c = .ok cells) {i : Nat} {pass : CarrierPass}
    (hpass : cells.passes[i]? = some pass) (t : Tti) : pass.RanAt t := by
  unfold create at h
  split at h
  · cases h
  · cases h
    obtain ⟨p, -, rfl⟩ := List.mem_map.mp (List.mem_of_getElem? hpass)
    exact ⟨.inl rfl, by simp⟩

theorem Paced.of_create {c : Config} (h : create c = .ok cells) (t : Tti) (pulled : List Nat) :
    cells.Paced t pulled [] where
  configured := .of_create h
  ranAt := fun _ _ hpass ↦ ranAt_of_create h hpass _
  orderly := .nil _ _ _ _ _

theorem Paced.observe (h : cells.Paced t pulled r) (carrier : Nat) (pools : PucchPools) :
    (CarrierPass.observe (t + 1) carrier pools r).2.1.Orderly cells.params (t + 1) (t + 1)
      (· ∈ pulled) (· ∈ pulled) := by
  have hlisted := h.configured.listed
  have horderly := h.orderly
  cases pulled with
  | nil =>
      have hobserve := horderly.observe (d := 1) (hlisted.inPace (Nat.le_refl 1)) carrier pools
      refine hobserve.imp (fun _ hc ↦ hc) fun c hc ↦ ?_
      cases hc
  | cons first rest =>
      have hobserve := horderly.observe (d := 0) (hlisted.inPace (Nat.zero_le 1)) carrier pools
      rw [reached, Tti.add_zero] at hobserve
      exact hobserve.imp (fun _ hc ↦ hc) fun c hc ↦ ⟨rfl, .inr hc⟩

theorem Paced.givenUp_not_missed (h : cells.Paced t pulled r) {u : Terminal} (hu : u ∈ r) :
    ∀ x ∈ u.givenUp (t + 1), x.1 = .uplink → x.2.reason ≠ .missedWindow := by
  have horderly := h.orderly
  cases pulled with
  | nil => exact horderly.givenUp_not_missed (d := 1) (by omega) (fun _ _ ↦ .inl rfl) hu
  | cons first rest =>
      have hnone := horderly.givenUp_not_missed (d := 0) (by omega) (fun hone ↦ by cases hone) hu
      rwa [reached, Tti.add_zero] at hnone

theorem params_of_pass {carrier : Nat} {pass : CarrierPass}
    (h : cells.passes[carrier]? = some pass) : cells.params[carrier]? = some pass.params := by
  rw [params, List.getElem?_map, h, Option.map_some]

theorem Configured.passes_pos (h : cells.Configured) : 0 < cells.passes.length := by
  obtain ⟨c, hcheck, hall⟩ := h
  have hcells := (of_cellViolations_eq_nil (Config.of_check hcheck).1).1.1
  have hsome : (CellParams.all c)[0]?.isSome = true := by
    rw [CellParams.getElem?_all, CellParams.ofConfig?, Option.isSome_map,
      List.getElem?_eq_getElem hcells]
    rfl
  rw [← hall, params, List.getElem?_map, Option.isSome_map] at hsome
  simpa using hsome

theorem Paced.set_pass (h : cells.Paced t pulled r) {carrier : Nat} {pass pass' : CarrierPass}
    (hpass : cells.passes[carrier]? = some pass) (hran : pass'.RanAt (t + 1))
    (hparams : pass'.params = pass.params)
    (hpasses : cells'.passes = cells.passes.set carrier pass')
    (horderly : r'.Orderly cells.params (t + 1) (t + 1) (fun c ↦ c = carrier ∨ c ∈ pulled)
      fun c ↦ c = carrier ∨ c ∈ pulled) : cells'.Paced t (carrier :: pulled) r' := by
  have hsame : cells'.params = cells.params := by
    rw [params, hpasses]
    exact params_set_pass hpass hparams
  refine ⟨h.configured.of_params hsame, fun i other hother ↦ ?_, ?_⟩
  · rw [hpasses] at hother
    by_cases hi : i = carrier
    · subst hi
      rw [List.getElem?_set_self (List.getElem?_eq_some_iff.mp hpass).1] at hother
      rw [if_pos List.mem_cons_self]
      exact Option.some.inj hother ▸ hran
    · rw [List.getElem?_set_ne (Ne.symm hi)] at hother
      have hmem : i ∈ carrier :: pulled ↔ i ∈ pulled := by simp [hi]
      rw [if_congr hmem rfl rfl]
      exact h.ranAt i other hother
  · rw [hsame]
    exact horderly.imp (fun _ hc ↦ List.mem_cons.mpr hc) fun c hc ↦
      List.mem_cons.mp (hc.resolve_left (List.cons_ne_nil _ _))

/-- The next round starts when every carrier has been pulled. -/
theorem Paced.next (h : cells.Paced t pulled r)
    (hall : ∀ c < cells.passes.length, c ∈ pulled) : cells.Paced (t + 1) [] r where
  configured := h.configured
  ranAt := by
    intro i pass hpass
    have hran := h.ranAt i pass hpass
    rwa [if_pos (hall i (List.getElem?_eq_some_iff.mp hpass).1)] at hran
  orderly := by
    have horderly := h.orderly
    have hlen : cells.params.length = cells.passes.length := List.length_map _
    have hfirst := hall 0 h.configured.passes_pos
    cases pulled with
    | nil => cases hfirst
    | cons first rest =>
        have hnext := horderly.nextRound h.configured.listed fun c hc ↦
          .inr (hall c (hlen ▸ hc))
        exact hnext.imp (fun _ hc ↦ hc.elim) fun _ _ ↦ trivial

end CellSet

namespace Scheduler

variable {s : Scheduler} {t : Tti} {pulled : List Nat}

def Paced (s : Scheduler) (t : Tti) (pulled : List Nat) : Prop :=
  ∃ cells, s.cells = some cells ∧ cells.Paced t pulled s.terminals

theorem Paced.handle (h : s.Paced t pulled) {r : Request} (hr : r.isPull = false) :
    (s.handle r).2.Paced t pulled := by
  obtain ⟨cells, hcells, hpaced⟩ := h
  have hedits := edits_handle hcells hpaced.configured.listed hpaced.orderly.rntis
    hpaced.orderly.steady hr
  cases hedits with
  | replaced hcells' hcreate hnone =>
      exact ⟨_, hcells', hnone.symm ▸ .of_create hcreate t pulled⟩
  | kept hcells' hpasses heased =>
      exact ⟨_, hcells', hpaced.of_passes hpasses (hpaced.orderly.of_eased heased)⟩

/-! ## Pulls -/

def resultOf? (s : Scheduler) (carrier : Nat) : Option SubframeResult :=
  s.cells.bind fun cells ↦ (cells.passes[carrier]?).bind (·.result)

variable {cells : CellSet} {carrier : Nat} {pass : CarrierPass}

/-- The first pull of a carrier in a round runs its pass and keeps the result. -/
theorem pull_eq (hcells : s.cells = some cells) (hpaced : cells.Paced t pulled s.terminals)
    (hpass : cells.passes[carrier]? = some pass) (hcarrier : carrier ∉ pulled) (elapsed : Nat) :
    ∃ res, res = pass.schedule (cells.policy.prioritize (t + 1) carrier) (t + 1) elapsed
        s.terminals cells.pools ∧
      s.pull (t + 1) carrier elapsed = (res.1.inTime,
        { cells := some
            { cells with
              passes := cells.passes.set carrier
                { pass with lastTti := some (t + 1), result := some res.1 }
              pools := res.2.2.2
              policy := learn cells.policy carrier res.2.1 }
          terminals := res.2.2.1 }) := by
  have hp := CellSet.params_of_pass hpass
  obtain ⟨-, -, rfl⟩ := hpaced.configured.pass hpass
  have hcounted := CarrierPass.counted_of_orderly
    (hpaced.observe pass.params.index cells.pools) hpaced.configured.listed hp
  have hran := hpaced.ranAt pass.params.index pass hpass
  rw [if_neg hcarrier] at hran
  exact pull_of_admits hcells hpass (hran.admits (Nat.le_refl 1) (by omega)) hcounted elapsed

theorem Paced.pull (hcells : s.cells = some cells) (hpaced : cells.Paced t pulled s.terminals)
    (hpass : cells.passes[carrier]? = some pass) (hcarrier : carrier ∉ pulled) (elapsed : Nat) :
    (s.pull (t + 1) carrier elapsed).2.Paced t (carrier :: pulled) := by
  have hlisted := hpaced.configured.listed
  have hp := CellSet.params_of_pass hpass
  obtain ⟨-, -, rfl⟩ := hpaced.configured.pass hpass
  have horder := cells.policy.prioritize_perm (t + 1) pass.params.index
  have horderly := hpaced.observe pass.params.index cells.pools
  obtain ⟨res, hres, heq⟩ := pull_eq hcells hpaced hpass hcarrier elapsed
  have hran : ({ pass with lastTti := some (t + 1), result := some res.1 } : CarrierPass).RanAt
      (t + 1) := by
    refine ⟨.inr rfl, fun kept hkept ↦ ?_⟩
    rw [← Option.some.inj hkept, hres]
    exact (CarrierPass.schedule_parts _ _ _ _ _ _).1
  have hafter :=
    CarrierPass.schedule_roster horder (hlisted.nofPrb_le hp) horderly.rntis elapsed
  have hnext := CarrierPass.orderly_afterPass horderly hlisted hp horder hcarrier
  rw [← hres, CarrierPass.planOf_eq] at hafter
  rw [heq]
  refine ⟨_, rfl, hpaced.set_pass hpass hran rfl rfl ?_⟩
  rw [hafter]
  exact hnext

/-! ## Runs -/

/-- The states of a scheduler whose rounds up to point `t` are complete, while of the round of
`t + 1` the carriers in `pulled` have been pulled. -/
inductive Runs : Scheduler → Tti → List Nat → Prop
  | start {c : Config} (h : c.check = .ok ()) (t : Tti) :
      Runs (({} : Scheduler).handle (.configureCells c)).2 t []
  | request {s : Scheduler} {t : Tti} {pulled : List Nat} (h : Runs s t pulled) {r : Request}
      (hr : r.isPull = false) : Runs (s.handle r).2 t pulled
  | pull {s : Scheduler} {t : Tti} {pulled : List Nat} (h : Runs s t pulled) {cells : CellSet}
      (hcells : s.cells = some cells) {carrier : Nat} (hlt : carrier < cells.passes.length)
      (hcarrier : carrier ∉ pulled) (elapsed : Nat) :
      Runs (s.handle (.pull (t + 1) carrier elapsed)).2 t (carrier :: pulled)
  | next {s : Scheduler} {t : Tti} {pulled : List Nat} (h : Runs s t pulled) {cells : CellSet}
      (hcells : s.cells = some cells) (hall : ∀ c < cells.passes.length, c ∈ pulled) :
      Runs s (t + 1) []

theorem Runs.paced (h : s.Runs t pulled) : s.Paced t pulled := by
  induction h with
  | @start c hcheck t =>
      obtain ⟨cells, hcreate, hstart⟩ := exists_start hcheck
      rw [hstart]
      exact ⟨cells, rfl, .of_create hcreate t []⟩
  | request _ hr ih => exact ih.handle hr
  | pull _ hcells hlt hcarrier elapsed ih =>
      obtain ⟨cells, hcells', hpaced⟩ := ih
      obtain rfl := Option.some.inj (hcells.symm.trans hcells')
      exact .pull hcells hpaced (List.getElem?_eq_getElem hlt) hcarrier elapsed
  | next _ hcells hall ih =>
      obtain ⟨cells, hcells', hpaced⟩ := ih
      obtain rfl := Option.some.inj (hcells.symm.trans hcells')
      exact ⟨_, hcells, hpaced.next hall⟩

/-- In every round of a run, the pull of each carrier keeps the place of every retransmission
due on it, and no uplink block is given up because its retransmission was missed. -/
theorem retransmissions_keep_their_place (h : s.Runs t pulled) :
    (∀ u ∈ s.terminals, (∀ l ∈ u.links, ∀ d ∈ l.ul.dropped, d.reason ≠ .missedWindow) ∧
      ∀ x ∈ u.givenUp (t + 1), x.1 = .uplink → x.2.reason ≠ .missedWindow) ∧
    ∃ cells, s.cells = some cells ∧ ∀ carrier pass, cells.passes[carrier]? = some pass →
      carrier ∉ pulled → ∀ elapsed, ∃ r : SubframeResult,
        (s.pull (t + 1) carrier elapsed).1 = r.inTime ∧
        (s.pull (t + 1) carrier elapsed).2.resultOf? carrier = some r ∧ r.rxTti = t + 1 ∧
        r.KeepsRetx pass.params carrier
          (CarrierPass.observe (t + 1) carrier cells.pools s.terminals).2.1 := by
  obtain ⟨cells, hcells, hpaced⟩ := h.paced
  refine ⟨?_, cells, hcells, ?_⟩
  · intro u hu
    constructor
    · exact fun l hl ↦ ((hpaced.orderly.steady u hu).links l hl).dropped
    · exact hpaced.givenUp_not_missed hu
  · intro carrier pass hpass hcarrier elapsed
    have hlisted := hpaced.configured.listed
    have hp := CellSet.params_of_pass hpass
    obtain ⟨-, -, rfl⟩ := hpaced.configured.pass hpass
    have horder := cells.policy.prioritize_perm (t + 1) pass.params.index
    have horderly := hpaced.observe pass.params.index cells.pools
    obtain ⟨res, hres, heq⟩ := pull_eq hcells hpaced hpass hcarrier elapsed
    have hkeeps := CarrierPass.schedule_keepsRetx horder horderly hlisted hp elapsed
    have hrx := (CarrierPass.schedule_parts pass
      (cells.policy.prioritize (t + 1) pass.params.index) (t + 1) elapsed s.terminals
      cells.pools).1
    rw [← hres] at hkeeps hrx
    refine ⟨res.1, congrArg Prod.fst heq, ?_, hrx, hkeeps⟩
    rw [heq, resultOf?, Option.bind_some,
      List.getElem?_set_self (List.getElem?_eq_some_iff.mp hpass).1, Option.bind_some]

/-- A terminal asks for uplink, and the carrier is pulled `n` times. -/
def uplinkRun : Nat → Scheduler
  | 0 =>
      let s := (({} : Scheduler).handle (.configureCells {})).2
      let s := (s.handle (.configureTerminal ⟨70⟩ {})).2
      (s.handle (.act ⟨70⟩ .requestUplink)).2
  | n + 1 => ((uplinkRun n).handle (.pull (Tti.ofNat n + 1) 0 10)).2

theorem runs_uplinkRun {n : Nat} (hn : n ≤ 8) : (uplinkRun n).Runs (Tti.ofNat n) [] := by
  induction n with
  | zero => exact .request (.request (.start (by decide) (Tti.ofNat 0)) rfl) rfl
  | succ n ih =>
      have hone : ∀ k ≤ 8, (uplinkRun k).cells.map (·.passes.length) = some 1 := by decide +kernel
      obtain ⟨cells, hcells, hlen⟩ := Option.map_eq_some_iff.mp (hone n (by omega))
      have hpulled : (uplinkRun (n + 1)).Runs (Tti.ofNat n) [0] :=
        (ih (by omega)).pull hcells (hlen ▸ Nat.one_pos) List.not_mem_nil 10
      obtain ⟨cells', hcells', hlen'⟩ := Option.map_eq_some_iff.mp (hone (n + 1) hn)
      have hnext := hpulled.next hcells' fun c hc ↦ by
        rw [hlen', Nat.lt_one_iff] at hc
        exact hc ▸ List.mem_cons_self
      have hpoint : Tti.ofNat n + 1 = Tti.ofNat (n + 1) := Tti.eq_of_index (by
        rw [Tti.index_add, Tti.index_ofNat, Tti.index_ofNat]
        omega)
      rwa [hpoint] at hnext

def lostBlock : Scheduler :=
  ((uplinkRun 8).handle (.act ⟨70⟩ (.acknowledgeUplink (Tti.ofNat 9) 0 false))).2

theorem lostBlock_keeps_its_place :
    ∃ (cells : CellSet) (pass : CarrierPass) (r : SubframeResult),
      lostBlock.cells = some cells ∧ cells.passes[0]? = some pass ∧
      (lostBlock.pull (Tti.ofNat 8 + 1) 0 10).2.resultOf? 0 = some r ∧
      r.ul.map (fun g ↦ (g.pid, g.interval, g.dci, g.tb.isRetx)) = [(1, ⟨2, 21⟩, none, true)] ∧
      r.KeepsRetx pass.params 0
        (CarrierPass.observe (Tti.ofNat 8 + 1) 0 cells.pools lostBlock.terminals).2.1 := by
  have hruns : lostBlock.Runs (Tti.ofNat 8) [] := .request (runs_uplinkRun (Nat.le_refl 8)) rfl
  obtain ⟨-, cells, hcells, hall⟩ := retransmissions_keep_their_place hruns
  have hone : (lostBlock.cells.bind fun cells ↦ cells.passes[0]?).isSome = true := by
    decide +kernel
  rw [hcells, Option.bind_some] at hone
  obtain ⟨pass, hpass⟩ := Option.isSome_iff_exists.mp hone
  obtain ⟨r, -, hr, -, hkeeps⟩ := hall 0 pass hpass List.not_mem_nil 10
  have hgrants : ((lostBlock.pull (Tti.ofNat 8 + 1) 0 10).2.resultOf? 0).map (fun r ↦
      r.ul.map fun g ↦ (g.pid, g.interval, g.dci, g.tb.isRetx)) =
        some [(1, ⟨2, 21⟩, none, true)] := by
    decide +kernel
  rw [hr, Option.map_some] at hgrants
  exact ⟨cells, pass, r, hcells, hpass, hr, Option.some.inj hgrants, hkeeps⟩

end Scheduler

end MacScheduler
