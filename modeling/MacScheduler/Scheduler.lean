import MacScheduler.Policy.Basic
import MacScheduler.Subframe.Pass
import MacScheduler.Terminal.Action
import MacScheduler.Terminal.Metrics

/-!
# The scheduler

The scheduler holds the configured cells and the attached terminals.  Cells can
be replaced only while no terminal is attached.  Each subframe and carrier, its
grants are pulled; between pulls terminals are configured and reports come in.
-/

namespace MacScheduler

structure CellSet where
  config : Config
  passes : List CarrierPass
  pools : PucchPools
  policy : Policy

namespace CellSet

def create (c : Config) : Except SchedError CellSet :=
  match c.check with
  | .error e => .error (.invalidConfig e)
  | .ok () =>
      .ok
        { config := c
          passes := (CellParams.all c).map fun params ↦ { params, budget := c.timing.deadline }
          pools := .ofConfig c.pucch (c.cells.headD {})
          policy := .ofConfig c.policy }

def params (s : CellSet) : List CellParams := s.passes.map (·.params)

end CellSet

structure Scheduler where
  cells : Option CellSet := none
  terminals : Roster := []

namespace Scheduler

/-- A call that may change the scheduler. -/
inductive Request where
  | configureCells (c : Config)
  | configureTerminal (rnti : Rnti) (c : TerminalConfig)
  | removeTerminal (rnti : Rnti)
  /-- An action on an attached terminal. -/
  | act (rnti : Rnti) (action : Terminal.Action)
  /-- The grants of a carrier at reception point `now`; a pass that runs for it
  takes `elapsed` microseconds. -/
  | pull (now : Tti) (carrier elapsed : Nat)

inductive Reply where
  | done
  | outcome (o : AckOutcome)
  | subframe (r : SubframeResult)
deriving DecidableEq

/-- Replaces the cells while no terminal is attached. -/
def configureCells (s : Scheduler) (c : Config) : Except SchedError Unit × Scheduler :=
  if s.terminals ≠ [] then (.error (.cellsInUse s.terminals.length), s)
  else
    match CellSet.create c with
    | .error e => (.error e, s)
    | .ok cells => (.ok (), { s with cells := some cells })

/-- Adds a terminal, or reconfigures the one with its identifier. -/
def configureTerminal (s : Scheduler) (rnti : Rnti) (c : TerminalConfig) :
    Except SchedError Unit × Scheduler :=
  match s.cells with
  | none => (.error .notConfigured, s)
  | some cells =>
      match s.terminals.get? rnti with
      | some t =>
          let (r, t, pools) := t.setConfig c cells.params cells.pools
          (r, { s with cells := some { cells with pools }, terminals := s.terminals.update t })
      | none =>
          match Terminal.create rnti c cells.params cells.pools with
          | (.error e, pools) => (.error e, { s with cells := some { cells with pools } })
          | (.ok t, pools) =>
              (.ok (),
                { s with cells := some { cells with pools }, terminals := s.terminals.insert t })

/-- Removes a terminal: the policy forgets it and its slots are free again. -/
def removeTerminal (s : Scheduler) (rnti : Rnti) : Except SchedError Unit × Scheduler :=
  match s.terminals.get? rnti with
  | none => (.error (.unknownRnti rnti), s)
  | some t =>
      let cells := s.cells.map fun cells ↦
        { cells with policy := cells.policy.forget rnti, pools := t.leave cells.pools }
      (.ok (), { s with cells, terminals := s.terminals.erase rnti })

def act (s : Scheduler) (rnti : Rnti) (action : Terminal.Action) :
    Except SchedError Terminal.Answer × Scheduler :=
  match s.terminals.get? rnti with
  | none => (.error (.unknownRnti rnti), s)
  | some t =>
      let (r, t) := t.perform action
      (r, { s with terminals := s.terminals.update t })

def learn (p : Policy) (carrier : Nat) (r : PassRecord) : Policy :=
  (p.record carrier .downlink r.dlServed).record carrier .uplink r.ulServed

/-- The grants of a carrier at reception point `now`. -/
def pull (s : Scheduler) (now : Tti) (carrier elapsed : Nat) :
    Except SchedError SubframeResult × Scheduler :=
  match s.cells with
  | none => (.error .notConfigured, s)
  | some cells =>
      match cells.passes[carrier]? with
      | none => (.error (.invalidCarrier carrier), s)
      | some pass =>
          let (r, e) :=
            pass.run (cells.policy.prioritize now carrier) now elapsed s.terminals cells.pools
          let policy := (e.record.map (learn cells.policy carrier)).getD cells.policy
          (r,
            { cells := some
                { cells with passes := cells.passes.set carrier e.pass, pools := e.pools, policy }
              terminals := e.roster })

def pullDownlink (s : Scheduler) (now : Tti) (carrier elapsed : Nat) :
    Except SchedError (List DlGrant) × Scheduler :=
  let (r, s) := s.pull now carrier elapsed
  (r.map (·.dl), s)

def pullUplink (s : Scheduler) (now : Tti) (carrier elapsed : Nat) :
    Except SchedError (List UlGrant) × Scheduler :=
  let (r, s) := s.pull now carrier elapsed
  (r.map (·.ul), s)

def handle (s : Scheduler) : Request → Except SchedError Reply × Scheduler
  | .configureCells c =>
      let (r, s) := s.configureCells c
      (r.map fun _ ↦ .done, s)
  | .configureTerminal rnti c =>
      let (r, s) := s.configureTerminal rnti c
      (r.map fun _ ↦ .done, s)
  | .removeTerminal rnti =>
      let (r, s) := s.removeTerminal rnti
      (r.map fun _ ↦ .done, s)
  | .act rnti action =>
      let (r, s) := s.act rnti action
      (r.map fun
        | .done => .done
        | .outcome o => .outcome o, s)
  | .pull now carrier elapsed =>
      let (r, s) := s.pull now carrier elapsed
      (r.map .subframe, s)

/-! ## Reading the state -/

def terminal (s : Scheduler) (rnti : Rnti) : Except SchedError Terminal :=
  match s.terminals.get? rnti with
  | none => .error (.unknownRnti rnti)
  | some t => .ok t

def cellSet (s : Scheduler) : Except SchedError CellSet :=
  match s.cells with
  | none => .error .notConfigured
  | some cells => .ok cells

/-- Figures of every attached terminal, by ascending identifier. -/
def terminalMetrics (s : Scheduler) : List TerminalMetrics := s.terminals.map Terminal.metrics

def metrics (s : Scheduler) : SchedulerMetrics := .ofTerminals s.terminalMetrics

end Scheduler

end MacScheduler
