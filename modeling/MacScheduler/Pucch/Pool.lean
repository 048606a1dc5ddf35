import MacScheduler.Config.Basic
import MacScheduler.Count

/-!
# Control resource pools

Scheduling requests and periodic channel reports are sent on slots of a cell's
control channel.  A pool is a grid of resource blocks and subframe offsets; each
slot is shared by a bounded number of terminals.  A terminal leases the least
loaded slot and gives it back when it leaves or asks for another period.
-/

namespace MacScheduler

inductive PucchKind where
  | sr
  | cqi
deriving DecidableEq

def PucchKind.name : PucchKind → String
  | sr => "sr"
  | cqi => "cqi"

/-- What a terminal is told about its resource. -/
structure PucchResource where
  kind : PucchKind
  prb : Nat
  /-- Subframe offset inside the period. -/
  offset : Nat
  /-- Index of the resource inside its resource block. -/
  nPucch : Nat
  configIdx : Nat
  period : Nat
deriving DecidableEq

inductive PucchError where
  | invalidPeriod (period : Nat)
  | exhausted
deriving DecidableEq

def PucchError.message : PucchError → String
  | invalidPeriod period => s!"invalid PUCCH reporting period {period}"
  | exhausted => "PUCCH pool exhausted"

/-- First configuration index of each channel report period. -/
def cqiIndexBase? : Nat → Option Nat
  | 2 => some 0
  | 5 => some 2
  | 10 => some 7
  | 20 => some 17
  | 40 => some 37
  | 80 => some 77
  | 160 => some 157
  | 32 => some 318
  | 64 => some 350
  | 128 => some 414
  | _ => none

structure PucchLease where
  slot : Nat
  resource : PucchResource
deriving DecidableEq

structure PucchPool where
  kind : PucchKind
  nofPrb : Nat
  offsets : List Nat
  maxUsers : Nat
  ncsAn : Nat
  defaultPeriod : Nat
  /-- Users of each slot. -/
  occupancy : List Nat

namespace PucchPool

def create (kind : PucchKind) (nofPrb : Nat) (offsets : List Nat) (defaultPeriod : Nat)
    (cell : CellConfig) : PucchPool :=
  { kind, nofPrb, offsets, maxUsers := cell.pucchMaxUsers, ncsAn := cell.ncsAn, defaultPeriod,
    occupancy := List.replicate (nofPrb * offsets.length) 0 }

def ofConfig (kind : PucchKind) (c : PoolConfig) (cell : CellConfig) : PucchPool :=
  create kind c.nofPrb (c.offsets.take c.nofSubframes) c.period cell

def nofSlots (p : PucchPool) : Nat := p.offsets.length * p.nofPrb

def nofLeased (p : PucchPool) : Nat := total p.occupancy

/-- The index that tells a terminal its period and offset. -/
def configIdx? (p : PucchPool) (period offset : Nat) : Option Nat :=
  match p.kind with
  | .sr => if isSrPeriod period then some (wrap (period - 5 + offset)) else none
  | .cqi =>
      if isCqiPeriod period then (cqiIndexBase? period).map fun base ↦ wrap (base + offset)
      else none

/-- Index and users of the least loaded slot, the first of several; `slot` is the
index of the first one in the list. -/
def leastLoaded : (slot : Nat) → List Nat → Option (Nat × Nat)
  | _, [] => none
  | slot, users :: rest =>
      match leastLoaded (slot + 1) rest with
      | none => some (slot, users)
      | some best => if best.2 < users then some best else some (slot, users)

/-- The resource of the next user of a slot that has `users` already. -/
def resourceAt (p : PucchPool) (period slot users configBase : Nat) : PucchResource :=
  let prb := slot / p.offsets.length
  let offset := p.offsets.getD (slot % p.offsets.length) 0
  { kind := p.kind, prb, offset, nPucch := wrap (prb * p.maxUsers + users + p.ncsAn),
    configIdx := wrap (configBase + offset), period }

def lease (p : PucchPool) (period : Nat) : Except PucchError PucchLease × PucchPool :=
  match p.configIdx? period 0 with
  | none => (.error (.invalidPeriod period), p)
  | some configBase =>
      match leastLoaded 0 p.occupancy with
      | none => (.error .exhausted, p)
      | some (slot, users) =>
          if p.maxUsers ≤ users then (.error .exhausted, p)
          else
            (.ok ⟨slot, p.resourceAt period slot users configBase⟩,
              { p with occupancy := p.occupancy.set slot (users + 1) })

def release (p : PucchPool) (l : PucchLease) : PucchPool :=
  { p with occupancy := p.occupancy.modify l.slot (· - 1) }

end PucchPool

end MacScheduler
