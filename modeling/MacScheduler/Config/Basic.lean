/-!
# Scheduler configuration

One record per concern: the carriers, retransmission timing, the control
channel pools, the allocation policy, and the time budget with the aging of
channel reports.  Each field has a default, so a document states only what
differs.
-/

namespace MacScheduler

structure CellConfig where
  /-- Bandwidth in resource blocks. -/
  nofPrb : Nat := 25
  /-- Symbols of the control region. -/
  cfi : Nat := 3
  /-- Control elements, when they are not to be derived from the bandwidth. -/
  nofCce : Option Nat := none
  /-- Resource blocks kept for control at each edge of the uplink band. -/
  nrbPucch : Nat := 2
  maxMcsDl : Nat := 28
  maxMcsUl : Nat := 28
  /-- Spacing of the cyclic shifts that separate the users of a control slot. -/
  deltaPucchShift : Nat := 1
  extendedCp : Bool := false
  /-- Cyclic shifts kept for mixed control formats. -/
  ncsAn : Nat := 0
deriving DecidableEq

namespace CellConfig

def pucchMaxUsers (c : CellConfig) : Nat :=
  12 * (if c.extendedCp then 2 else 3) / max c.deltaPucchShift 1

end CellConfig

structure HarqConfig where
  /-- Subframes from a transmission to its retransmission, and processes per direction. -/
  roundTrip : Nat := 8
  /-- Retransmissions before a block is given up. -/
  maxRetx : Nat := 4
deriving DecidableEq

structure PoolConfig where
  nofPrb : Nat := 1
  nofSubframes : Nat := 2
  /-- Offsets inside the period that the pool may use. -/
  offsets : List Nat := [0, 1]
  /-- Period of a terminal that asks for none. -/
  period : Nat
deriving DecidableEq

/-- The pools for scheduling requests and for periodic channel reports. -/
structure PucchConfig where
  sr : PoolConfig := { period := 20 }
  cqi : PoolConfig := { period := 40 }
deriving DecidableEq

inductive PolicyKind where
  | roundRobin
  | proportionalFair
deriving DecidableEq

structure PolicyConfig where
  kind : PolicyKind := .roundRobin
  /-- Weight of the newest sample in the throughput average. -/
  weight : Float := 0.1

structure TimingConfig where
  /-- Microseconds that a scheduling pass may take. -/
  deadline : Option Nat := some 1000
  /-- Subframes after which a channel report is stale. -/
  staleness : Nat := 160
  /-- Scheme used while no report is fresh. -/
  fallbackMcs : Nat := 0
deriving DecidableEq

structure Config where
  cells : List CellConfig := [{}]
  harq : HarqConfig := {}
  pucch : PucchConfig := {}
  policy : PolicyConfig := {}
  timing : TimingConfig := {}

instance : Inhabited Config := ⟨{}⟩

/-- Periods at which a terminal may ask for uplink. -/
def srPeriods : List Nat := [5, 10, 20, 40, 80]

/-- Periods at which a terminal may report channel quality. -/
def cqiPeriods : List Nat := [2, 5, 10, 20, 32, 40, 64, 80, 128, 160]

def isSrPeriod (p : Nat) : Bool := srPeriods.contains p

def isCqiPeriod (p : Nat) : Bool := cqiPeriods.contains p

end MacScheduler
