import MacScheduler.Proofs.Scheduler.Edits

/-!
# Executions of a pass

A carrier executes its pass when it is pulled at a point after that of the latest
execution, and at no other time.  A log of the executions is kept beside a run.  The
carrier remembers the latest entry and answers every further pull at its point with
it; whatever is requested in between concerns neither the carrier's clock nor the
result that it keeps.
-/

namespace MacScheduler

/-- A pass that ran: at which point, and what the pull that made it run was answered. -/
structure Execution where
  point : Tti
  answer : Except SchedError SubframeResult

namespace Execution

/-- The pull was answered with the result of its own point. -/
def InTime (e : Execution) : Prop := ∃ r, e.answer = .ok r ∧ r.rxTti = e.point

def Follows (e : Execution) (last : Option Execution) : Prop :=
  ∀ l ∈ last, e.point.isAfter l.point = true

end Execution

namespace CarrierPass

/-- The latest execution is the one given, and it was in time. -/
def Remembers (c : CarrierPass) : Option Execution → Prop
  | none => c.lastTti = none ∧ c.result = none
  | some e => c.lastTti = some e.point ∧
      ∃ r, c.result = some r ∧ r.rxTti = e.point ∧ r.overrun = none ∧ e.answer = .ok r

namespace Remembers

variable {c : CarrierPass} {last : Option Execution} {e : Execution} {now : Tti}
  (order : Direction → List Candidate → List Candidate) (elapsed : Nat) (roster : Roster)
  (pools : PucchPools)

theorem admits_iff (h : c.Remembers last) :
    c.Admits now ↔ ∀ e ∈ last, now.isAfter e.point = true := by
  cases last with
  | none =>
      obtain ⟨hlast, hresult⟩ := h
      exact ⟨fun _ e he ↦ (by cases he), fun _ ↦ ⟨by simp [hresult], by simp [hlast]⟩⟩
  | some e =>
      obtain ⟨hlast, r, hresult, hpoint, -⟩ := h
      constructor
      · rintro hadmits _ ⟨⟩
        exact hadmits.last _ hlast
      · intro hafter
        have hnow : now.isAfter e.point = true := hafter e rfl
        refine ⟨fun r' hr' heq ↦ ?_, fun t ht ↦ ?_⟩
        · obtain rfl := Option.some.inj (hresult.symm.trans hr')
          rw [← heq, hpoint] at hnow
          simp [Tti.isAfter] at hnow
        · obtain rfl := Option.some.inj (hlast.symm.trans ht)
          exact hnow

/-- At the point of the latest execution its answer is given again. -/
theorem run_latest (h : c.Remembers (some e)) :
    c.run order e.point elapsed roster pools = (e.answer, ⟨c, roster, pools, none⟩) := by
  obtain ⟨-, r, hresult, hpoint, hintime, hanswer⟩ := h
  have hkept : c.result.filter (fun r ↦ decide (r.rxTti = e.point)) = some r := by
    rw [hresult, Option.filter_some, if_pos (decide_eq_true hpoint)]
  unfold run
  rw [hkept]
  dsimp only
  rw [SubframeResult.inTime, hintime, hanswer]

/-- A point before that of the latest execution is refused. -/
theorem run_early (h : c.Remembers (some e)) (hne : now ≠ e.point)
    (hnot : now.isAfter e.point = false) :
    c.run order now elapsed roster pools =
      (.error (.ttiOutOfOrder now e.point), ⟨c, roster, pools, none⟩) := by
  obtain ⟨hlast, r, hresult, hpoint, -⟩ := h
  have hkept : c.result.filter (fun r ↦ decide (r.rxTti = now)) = none := by
    rw [hresult, Option.filter_some, if_neg]
    simpa [hpoint] using Ne.symm hne
  have hlate : c.lastTti.filter (fun last ↦ !now.isAfter last) = some e.point := by
    rw [hlast, Option.filter_some, if_pos (by simp [hnot])]
  unfold run
  rw [hkept, hlate]

end Remembers

end CarrierPass

theorem CellSet.remembers_of_create {c : Config} {cells : CellSet} (h : create c = .ok cells)
    {carrier : Nat} (hcarrier : carrier < c.cells.length) :
    ∃ pass, cells.passes[carrier]? = some pass ∧ pass.Remembers none := by
  obtain ⟨p, hp⟩ : ∃ p, (CellParams.all c)[carrier]? = some p := by
    rw [CellParams.getElem?_all, CellParams.ofConfig?, List.getElem?_eq_getElem hcarrier]
    exact ⟨_, rfl⟩
  unfold create at h
  split at h
  · cases h
  · cases h
    refine ⟨{ params := p, budget := c.timing.deadline }, ?_, rfl, rfl⟩
    rw [List.getElem?_map, hp, Option.map_some]

namespace Scheduler

variable {s : Scheduler} {carrier : Nat} {last : Option Execution} {pass : CarrierPass}

def pass? (s : Scheduler) (carrier : Nat) : Option CarrierPass :=
  s.cells.bind (·.passes[carrier]?)

/-- The pass of a carrier that a request makes run, if it does: only an executed pass has
something to tell the policy. -/
def execution? (s : Scheduler) (carrier : Nat) : Request → Option Execution
  | .pull now c elapsed =>
      if c = carrier then
        (s.cells.bind fun cells ↦ (cells.passes[c]?).bind fun pass ↦
          (pass.run (cells.policy.prioritize now c) now elapsed s.terminals
            cells.pools).2.record).map fun _ ↦ ⟨now, (s.pull now c elapsed).1⟩
      else none
  | _ => none

theorem of_pass? (h : s.pass? carrier = some pass) :
    ∃ cells, s.cells = some cells ∧ cells.passes[carrier]? = some pass :=
  Option.bind_eq_some_iff.mp h

/-! ## Requests that are no pulls -/

theorem pass?_repool {cells : CellSet} (hcells : s.cells = some cells) (pools : PucchPools)
    (terminals : Roster) (carrier : Nat) :
    (⟨some { cells with pools }, terminals⟩ : Scheduler).pass? carrier = s.pass? carrier := by
  rw [pass?, pass?, hcells]
  rfl

theorem pass?_configureCells {c : Config} (h : (s.configureCells c).1 ≠ .ok ()) (carrier : Nat) :
    (s.configureCells c).2.pass? carrier = s.pass? carrier := by
  unfold configureCells at h ⊢
  by_cases hused : s.terminals ≠ []
  · rw [if_pos hused]
  · rw [if_neg hused] at h ⊢
    cases hcreate : CellSet.create c with
    | error e => rfl
    | ok cells => exact absurd (by rw [hcreate]) h

theorem pass?_configureTerminal (s : Scheduler) (rnti : Rnti) (c : TerminalConfig)
    (carrier : Nat) : (s.configureTerminal rnti c).2.pass? carrier = s.pass? carrier := by
  unfold configureTerminal
  cases hcells : s.cells with
  | none => rfl
  | some cells =>
      dsimp only
      split
      · exact pass?_repool hcells _ _ carrier
      · split <;> exact pass?_repool hcells _ _ carrier

theorem pass?_removeTerminal (s : Scheduler) (rnti : Rnti) (carrier : Nat) :
    (s.removeTerminal rnti).2.pass? carrier = s.pass? carrier := by
  unfold removeTerminal
  split
  · rfl
  · rw [pass?, pass?, Option.bind_map]
    rfl

theorem pass?_act (s : Scheduler) (rnti : Rnti) (action : Terminal.Action) (carrier : Nat) :
    (s.act rnti action).2.pass? carrier = s.pass? carrier := by
  unfold act
  split <;> rfl

/-! ## Pulls -/

section Pull

variable {cells : CellSet} {now : Tti} {elapsed : Nat} {r : Except SchedError SubframeResult}
  (hcells : s.cells = some cells) (hpass : cells.passes[carrier]? = some pass)

include hcells hpass

theorem pull_of_run (hrun : pass.run (cells.policy.prioritize now carrier) now elapsed s.terminals
      cells.pools = (r, ⟨pass, s.terminals, cells.pools, none⟩)) :
    s.pull now carrier elapsed = (r, s) := by
  obtain ⟨hlt, rfl⟩ := List.getElem?_eq_some_iff.mp hpass
  unfold pull
  rw [hcells]
  dsimp only
  rw [hpass]
  dsimp only
  rw [hrun, Option.map_none, Option.getD_none, List.set_getElem_self, ← hcells]

theorem execution?_pull (hcounted : pass.Counted now s.terminals cells.pools) :
    s.execution? carrier (.pull now carrier elapsed) =
      if pass.Admits now then some ⟨now, (s.pull now carrier elapsed).1⟩ else none := by
  rw [execution?, if_pos rfl, hcells, Option.bind_some, hpass, Option.bind_some]
  by_cases hadmits : pass.Admits now
  · rw [pass.run_of_admits _ now elapsed _ _ hadmits hcounted, if_pos hadmits]
    rfl
  · rw [pass.run_of_not_admits _ now elapsed _ _ hadmits, if_neg hadmits]
    rfl

end Pull

theorem pass?_pull_of_ne (s : Scheduler) {c : Nat} (hc : c ≠ carrier) (now : Tti) (elapsed : Nat) :
    (s.pull now c elapsed).2.pass? carrier = s.pass? carrier := by
  unfold pull
  cases hcells : s.cells with
  | none => rfl
  | some cells =>
      dsimp only
      split
      · rfl
      · rw [pass?, pass?, hcells, Option.bind_some, Option.bind_some, List.getElem?_set_ne hc]

/-- The carrier has a pass, and the latest execution is the one given. -/
def Remembers (s : Scheduler) (carrier : Nat) (last : Option Execution) : Prop :=
  ∃ pass, s.pass? carrier = some pass ∧ pass.Remembers last

/-- A pull executes the pass when its point is after that of the latest execution. -/
theorem Remembers.pull (h : s.Remembers carrier last) (hconf : s.Configured) {now : Tti}
    {elapsed : Nat}
    (hintime : ∀ t elapsed' budget,
      (s.pull now carrier elapsed).1 ≠ .error (.deadlineMissed t elapsed' budget)) :
    (∀ e ∈ s.execution? carrier (.pull now carrier elapsed), e.InTime ∧ e.Follows last) ∧
      (s.pull now carrier elapsed).2.Remembers carrier
        ((s.execution? carrier (.pull now carrier elapsed)).or last) := by
  obtain ⟨pass, hpass, hlast⟩ := h
  obtain ⟨cells, hcells, hget⟩ := of_pass? hpass
  have hcounted : pass.Counted now s.terminals cells.pools := hconf.pass_counted hcells hget
  rw [execution?_pull hcells hget hcounted]
  by_cases hadmits : pass.Admits now
  · obtain ⟨res, hres, heq⟩ := pull_of_admits hcells hget hadmits hcounted elapsed
    have hpoint := (pass.schedule_parts (cells.policy.prioritize now carrier) now elapsed
      s.terminals cells.pools).1
    rw [← hres] at hpoint
    have hnone : res.1.overrun = none := by
      cases hoverrun : res.1.overrun with
      | none => rfl
      | some o =>
          refine absurd ?_ (hintime res.1.rxTti o.1 o.2)
          rw [heq, SubframeResult.inTime, hoverrun]
    have hanswer : (s.pull now carrier elapsed).1 = .ok res.1 := by
      rw [heq, SubframeResult.inTime, hnone]
    rw [if_pos hadmits, hanswer]
    constructor
    · rintro _ ⟨⟩
      exact ⟨⟨res.1, rfl, hpoint⟩, hlast.admits_iff.mp hadmits⟩
    · refine ⟨{ pass with lastTti := some now, result := some res.1 }, ?_, rfl, res.1, rfl,
        hpoint, hnone, rfl⟩
      rw [heq, pass?, Option.bind_some,
        List.getElem?_set_self (List.getElem?_eq_some_iff.mp hget).1]
  · have hrun := pass.run_of_not_admits (cells.policy.prioritize now carrier) now elapsed
      s.terminals cells.pools hadmits
    rw [if_neg hadmits, pull_of_run hcells hget (Prod.ext rfl hrun)]
    exact ⟨fun _ he ↦ (by cases he), pass, hpass, hlast⟩

/-- No cells are configured by the request, and no deadline is missed. -/
structure Calm (s : Scheduler) (r : Request) : Prop where
  cells : ∀ c, r = .configureCells c → (s.handle r).1 ≠ .ok .done
  deadline : ∀ t elapsed budget, (s.handle r).1 ≠ .error (.deadlineMissed t elapsed budget)

def isCalm (s : Scheduler) (r : Request) : Bool :=
  match r, (s.handle r).1 with
  | .configureCells _, .ok .done => false
  | _, .error (.deadlineMissed _ _ _) => false
  | _, _ => true

theorem isCalm_iff (s : Scheduler) (r : Request) : s.isCalm r = true ↔ s.Calm r := by
  constructor
  · intro h
    unfold isCalm at h
    refine ⟨fun c hc hok ↦ ?_, fun t elapsed budget hlate ↦ ?_⟩
    · rw [hok, hc] at h
      cases h
    · rw [hlate] at h
      cases r <;> cases h
  · intro h
    unfold isCalm
    split
    · rename_i c hok
      exact absurd hok (h.cells c rfl)
    · rename_i hlate
      exact absurd hlate (h.deadline _ _ _)
    · rfl

instance (s : Scheduler) (r : Request) : Decidable (s.Calm r) := decidable_of_iff _ (isCalm_iff s r)

/-- A request that is no pull of the carrier leaves its pass alone. -/
theorem Calm.pass?_handle {r : Request} (hr : s.Calm r)
    (hother : ∀ now elapsed, r ≠ .pull now carrier elapsed) :
    s.execution? carrier r = none ∧ (s.handle r).2.pass? carrier = s.pass? carrier := by
  cases r with
  | configureCells c =>
      have hrefused : (s.configureCells c).1 ≠ .ok () := fun hok ↦
        hr.cells c rfl (congrArg (Except.map fun _ ↦ Reply.done) hok)
      exact ⟨rfl, pass?_configureCells hrefused carrier⟩
  | configureTerminal rnti c => exact ⟨rfl, s.pass?_configureTerminal rnti c carrier⟩
  | removeTerminal rnti => exact ⟨rfl, s.pass?_removeTerminal rnti carrier⟩
  | act rnti action => exact ⟨rfl, s.pass?_act rnti action carrier⟩
  | pull now c elapsed =>
      have hc : c ≠ carrier := fun hc ↦ hother now elapsed (by rw [hc])
      exact ⟨if_neg hc, s.pass?_pull_of_ne hc now elapsed⟩

theorem Remembers.handle (h : s.Remembers carrier last) (hconf : s.Configured) {r : Request}
    (hr : s.Calm r) :
    (∀ e ∈ s.execution? carrier r, e.InTime ∧ e.Follows last) ∧
      (s.handle r).2.Remembers carrier ((s.execution? carrier r).or last) := by
  by_cases hown : ∃ now elapsed, r = .pull now carrier elapsed
  · obtain ⟨now, elapsed, rfl⟩ := hown
    exact h.pull hconf fun t elapsed' budget hlate ↦
      hr.deadline t elapsed' budget (congrArg (Except.map Reply.subframe) hlate)
  · obtain ⟨pass, hpass, hlast⟩ := h
    obtain ⟨hnone, hkept⟩ := hr.pass?_handle fun now elapsed heq ↦ hown ⟨now, elapsed, heq⟩
    rw [hnone]
    exact ⟨fun _ he ↦ (by cases he), pass, hkept.trans hpass, hlast⟩

/-! ## Runs -/

def handleAll (s : Scheduler) : List Request → Scheduler
  | [] => s
  | r :: rs => (s.handle r).2.handleAll rs

def AllCalm (s : Scheduler) : List Request → Prop
  | [] => True
  | r :: rs => s.Calm r ∧ (s.handle r).2.AllCalm rs

instance decidableAllCalm (s : Scheduler) : (rs : List Request) → Decidable (s.AllCalm rs)
  | [] => isTrue trivial
  | r :: rs =>
      have := (s.handle r).2.decidableAllCalm rs
      inferInstanceAs (Decidable (_ ∧ _))

/-- What a carrier executes during a run, the first execution first. -/
def executions (s : Scheduler) (carrier : Nat) : List Request → List Execution
  | [] => []
  | r :: rs => (s.execution? carrier r).toList ++ (s.handle r).2.executions carrier rs

theorem Reachable.handleAll (h : s.Reachable) (rs : List Request) : (s.handleAll rs).Reachable := by
  induction rs generalizing s with
  | nil => exact h
  | cons r rs ih => exact ih (h.step r)

theorem Remembers.handleAll (h : s.Remembers carrier last) (hs : s.Reachable) {rs : List Request}
    (hrs : s.AllCalm rs) :
    (∀ e ∈ s.executions carrier rs, e.InTime) ∧
      (last.toList ++ s.executions carrier rs).IsChain
        (fun e e' ↦ e'.point.isAfter e.point = true) ∧
      (s.handleAll rs).Remembers carrier ((s.executions carrier rs).getLast?.or last) := by
  induction rs generalizing s last with
  | nil =>
      refine ⟨fun _ he ↦ (by cases he), ?_, h⟩
      cases last <;> simp [executions]
  | cons r rs ih =>
      obtain ⟨hone, hnext⟩ := h.handle hs.configured hrs.1
      obtain ⟨hintime, hchain, hremembers⟩ := ih hnext (hs.step r) hrs.2
      rw [executions]
      cases he : s.execution? carrier r with
      | none =>
          rw [he, Option.none_or] at hchain hremembers
          exact ⟨hintime, hchain, hremembers⟩
      | some e =>
          obtain ⟨hein, hfollows⟩ := hone e he
          rw [he, Option.some_or, Option.toList_some, List.singleton_append] at hchain
          refine ⟨?_, ?_, ?_⟩
          · intro e' he'
            rcases List.mem_cons.mp he' with rfl | he'
            · exact hein
            · exact hintime e' he'
          · cases last with
            | none => exact hchain
            | some l => exact List.isChain_cons_cons.mpr ⟨hfollows l rfl, hchain⟩
          · rw [he, Option.some_or] at hremembers
            rw [Option.toList_some, List.singleton_append, List.getLast?_cons]
            generalize ((s.handle r).2.executions carrier rs).getLast? = latest at hremembers ⊢
            cases latest <;> exact hremembers

/-- Fresh cells have executed nothing. -/
theorem remembers_configureCells {c : Config} (h : (s.handle (.configureCells c)).1 = .ok .done)
    (hcarrier : carrier < c.cells.length) :
    (s.handle (.configureCells c)).2.Remembers carrier none := by
  unfold handle configureCells at h ⊢
  dsimp only at h ⊢
  by_cases hused : s.terminals ≠ []
  · rw [if_pos hused] at h
    cases h
  · rw [if_neg hused] at h ⊢
    cases hcreate : CellSet.create c with
    | error e =>
        rw [hcreate] at h
        cases h
    | ok cells => exact CellSet.remembers_of_create hcreate hcarrier

/-- From the configuration of the cells on, and while no deadline is missed: a carrier executes
its pass at points of which each is after the one before; a pull at the latest of them is
answered as it was when the pass ran, a pull at any other point that is not after it is refused,
neither changes anything, and every other pull executes the pass. -/
theorem pass_executes_once (h : s.Reachable) {c : Config}
    (hc : (s.handle (.configureCells c)).1 = .ok .done) (hcarrier : carrier < c.cells.length)
    {rs : List Request} (hrs : (s.handle (.configureCells c)).2.AllCalm rs) :
    let s₀ := (s.handle (.configureCells c)).2
    let log := s₀.executions carrier rs
    let s' := s₀.handleAll rs
    log.IsChain (fun e e' ↦ e'.point.isAfter e.point = true) ∧
    (∀ e ∈ log, ∃ r, e.answer = .ok r ∧ r.rxTti = e.point) ∧
    ∀ now elapsed,
      ((s'.execution? carrier (.pull now carrier elapsed)).isSome ↔
        ∀ e ∈ log.getLast?, now.isAfter e.point = true) ∧
      ∀ e ∈ log.getLast?,
        (now = e.point → s'.pull now carrier elapsed = (e.answer, s') ∧
          s'.pullDownlink now carrier elapsed = (e.answer.map (·.dl), s') ∧
          s'.pullUplink now carrier elapsed = (e.answer.map (·.ul), s')) ∧
        (now ≠ e.point → now.isAfter e.point = false →
          s'.pull now carrier elapsed = (.error (.ttiOutOfOrder now e.point), s')) := by
  intro s₀ log s'
  have hs₀ : s₀.Reachable := h.step _
  obtain ⟨hintime, hchain, pass, hpass, hlast⟩ :=
    (remembers_configureCells hc hcarrier).handleAll hs₀ hrs
  obtain ⟨cells, hcells, hget⟩ := of_pass? hpass
  have hconf := (hs₀.handleAll rs).configured
  rw [Option.or_none] at hlast
  refine ⟨hchain, hintime, fun now elapsed ↦ ⟨?_, fun e he ↦ ?_⟩⟩
  · rw [← hlast.admits_iff, execution?_pull hcells hget (hconf.pass_counted hcells hget)]
    by_cases hadmits : pass.Admits now <;> simp [hadmits]
  · have hlatest : pass.Remembers (some e) := Option.mem_def.mp he ▸ hlast
    constructor
    · rintro rfl
      have hpull := pull_of_run hcells hget (hlatest.run_latest
        (cells.policy.prioritize e.point carrier) elapsed s'.terminals cells.pools)
      refine ⟨hpull, ?_, ?_⟩
      · rw [pullDownlink, hpull]
      · rw [pullUplink, hpull]
    · intro hne hnot
      exact pull_of_run hcells hget (hlatest.run_early _ elapsed s'.terminals cells.pools hne hnot)

/-- A carrier pulled twice at point 1 and once at point 2, while a terminal comes and goes. -/
def briefVisit : List Request :=
  [.configureTerminal ⟨70⟩ {}, .pull (Tti.ofNat 1) 0 10, .act ⟨70⟩ (.reportUplink 0 100),
    .pull (Tti.ofNat 1) 0 20, .removeTerminal ⟨70⟩, .pull (Tti.ofNat 2) 0 10]

theorem briefVisit_executes_once :
    let s₀ := (({} : Scheduler).handle (.configureCells {})).2
    ((s₀.executions 0 briefVisit).map (·.point) = [Tti.ofNat 1, Tti.ofNat 2]) ∧
    (∃ r : SubframeResult, r.rxTti = Tti.ofNat 2 ∧
      (s₀.handleAll briefVisit).pullUplink (Tti.ofNat 2) 0 10 =
        (.ok r.ul, s₀.handleAll briefVisit)) ∧
    (s₀.handleAll briefVisit).pull (Tti.ofNat 1) 0 10 =
      (.error (.ttiOutOfOrder (Tti.ofNat 1) (Tti.ofNat 2)), s₀.handleAll briefVisit) := by
  intro s₀
  have hcells : (({} : Scheduler).handle (.configureCells {})).1 = .ok .done := by decide +kernel
  have hcalm : s₀.AllCalm briefVisit := by decide +kernel
  have hpoints : (s₀.executions 0 briefVisit).map (·.point) = [Tti.ofNat 1, Tti.ofNat 2] := by
    decide +kernel
  have hcarrier : 0 < ({} : Config).cells.length := by decide
  obtain ⟨-, hintime, hpulls⟩ := pass_executes_once .start hcells hcarrier hcalm
  obtain ⟨e, he, hpoint⟩ : ∃ e, (s₀.executions 0 briefVisit).getLast? = some e ∧
      e.point = Tti.ofNat 2 := by
    rw [← Option.map_eq_some_iff, ← List.getLast?_map, hpoints]
    rfl
  obtain ⟨r, hanswer, hrx⟩ := hintime e (List.mem_of_getLast? he)
  have hlatest := ((hpulls (Tti.ofNat 2) 10).2 e he).1 hpoint.symm
  have hearly := ((hpulls (Tti.ofNat 1) 10).2 e he).2
  rw [hanswer] at hlatest
  rw [hpoint] at hearly
  exact ⟨hpoints, ⟨r, hrx.trans hpoint, hlatest.2.2⟩, hearly (by decide) (by decide)⟩

end Scheduler

end MacScheduler
