import MacScheduler.Config.Basic
import MacScheduler.Control.SearchSpace
import MacScheduler.Count
import MacScheduler.Grid.Prb
import MacScheduler.Grid.Rbg
import MacScheduler.Link.Adaptation

/-!
# Parameters of a carrier

What a carrier's configuration and the shared sections of the configuration
say about one carrier, with the sizes that follow from them.
-/

namespace MacScheduler

structure CellParams where
  /-- Position of the carrier in the configuration. -/
  index : Nat
  cell : CellConfig
  harq : HarqConfig
  staleness : Nat
  fallbackMcs : Nat

namespace CellParams

def ofConfig? (c : Config) (index : Nat) : Option CellParams :=
  (c.cells[index]?).map fun cell ↦
    { index, cell, harq := c.harq, staleness := c.timing.staleness,
      fallbackMcs := c.timing.fallbackMcs }

def all (c : Config) : List CellParams :=
  (List.range c.cells.length).filterMap (ofConfig? c)

def nofPrb (p : CellParams) : Nat := p.cell.nofPrb

def nofRbg (p : CellParams) : Nat := nofRbgs p.cell.nofPrb

def rbgSize (p : CellParams) : Nat := MacScheduler.rbgSize p.cell.nofPrb

def dciBits (p : CellParams) : Nat := MacScheduler.dciBits p.cell.nofPrb

/-- Control elements with a region of `cfi` symbols. -/
def nofCceAt (p : CellParams) (cfi : Nat) : Nat :=
  p.cell.nofCce.getD (regionSize p.cell.nofPrb cfi)

/-- Control elements with the configured region of one to three symbols. -/
def nofCce (p : CellParams) : Nat := p.nofCceAt (max 1 (min p.cell.cfi 3))

/-- Resource blocks for uplink data, between the control edges of the band. -/
def puschRegion (p : CellParams) : PrbInterval :=
  let edge := min p.cell.nrbPucch (p.cell.nofPrb / 2)
  ⟨edge, p.cell.nofPrb - 2 * edge⟩

/-- The greatest age of a report that counts, a signed number as ages are: a bound
beyond 31 bits turns negative, and no report counts. -/
def maxAge (p : CellParams) : Int := Int.bmod p.staleness (maxCount + 1)

def maxMcs (p : CellParams) : Direction → Nat
  | .downlink => p.cell.maxMcsDl
  | .uplink => p.cell.maxMcsUl

end CellParams

end MacScheduler
