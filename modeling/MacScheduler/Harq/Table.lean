import MacScheduler.Harq.Process

/-!
# Process tables

One table per direction, carrier and terminal holds as many processes as a
round trip has subframes.  The table follows the clock; blocks that are given
up queue until they are taken.
-/

namespace MacScheduler

structure HarqTable (α : Type) where
  procs : List (HarqProcess α)
  nofTbs : Nat
  maxRetx : Nat
  lastTti : Option Tti := none
  dropped : List DroppedTb := []

namespace HarqTable

variable {α : Type}

/-- A table of `roundTrip` idle processes with one or two blocks each. -/
def empty (roundTrip nofTbs maxRetx : Nat) : HarqTable α :=
  { procs := (List.range roundTrip).map .idle
    nofTbs := max 1 (min nofTbs slotsPerProcess)
    maxRetx }

def nofProcs (h : HarqTable α) : Nat := h.procs.length

/-- Subframes from a transmission to its retransmission. -/
def roundTrip (h : HarqTable α) : Nat := h.procs.length

def get? (h : HarqTable α) (pid : Nat) : Option (HarqProcess α) := h.procs[pid]?

/-- The process that the synchronous timeline maps to `t`. -/
def pidFor (h : HarqTable α) (t : Tti) : Nat := t.index % h.nofProcs

def pendingBytes (h : HarqTable α) : Nat := total (h.procs.map HarqProcess.pendingBytes)

/-- Why the table has no place for block `tb` of process `pid`. -/
def refusal? (h : HarqTable α) (pid tb : Nat) : Option HarqError :=
  if h.nofProcs ≤ pid then some (.invalidPid pid h.nofProcs)
  else if h.nofTbs ≤ tb then some (.invalidTb tb h.nofTbs)
  else none

/-- Moves the table forward to `t` and counts the blocks given up; a point that
is not after the last one changes nothing. -/
def advance (h : HarqTable α) (t : Tti) : Nat × HarqTable α :=
  if h.lastTti.any fun last ↦ !t.isAfter last then (0, h)
  else
    let moved := h.procs.map fun p ↦ p.advance t h.roundTrip h.maxRetx
    let dropped := (moved.map (·.2)).flatten
    (dropped.length,
      { h with procs := moved.map (·.1), lastTti := some t, dropped := h.dropped ++ dropped })

def pendingProcess? (h : HarqTable α) (t : Tti) : Option Nat :=
  (h.procs.find? (·.hasPendingRetx t)).map (·.pid)

/-- A process for fresh data at `t`, the one mapped to `t` if it is empty. -/
def emptyProcess? (h : HarqTable α) (t : Tti) : Option Nat :=
  if (h.get? (h.pidFor t)).any HarqProcess.isEmpty then some (h.pidFor t)
  else (h.procs.find? HarqProcess.isEmpty).map (·.pid)

/-- The process that last sent at `t`.  An idle process may carry the same point
from an earlier turn of the clock, so a busy one is preferred. -/
def sentAt? (h : HarqTable α) (t : Tti) : Option Nat :=
  ((h.procs.find? fun p ↦ decide (p.txTti = some t) && !p.isEmpty).or
    (h.procs.find? fun p ↦ decide (p.txTti = some t))).map (·.pid)

def put (h : HarqTable α) (pid : Nat) (p : HarqProcess α) : HarqTable α :=
  { h with procs := h.procs.set pid p }

theorem get?_put (h : HarqTable α) (pid k : Nat) (p : HarqProcess α) :
    (h.put pid p).get? k =
      if pid = k ∧ k < h.nofProcs then some p else h.get? k := by
  by_cases hk : pid = k
  · subst hk
    by_cases hlt : pid < h.procs.length
    · simp [put, get?, nofProcs, hlt]
    · simp [put, get?, nofProcs, hlt]
  · simp [put, get?, hk]

@[simp] theorem nofProcs_put (h : HarqTable α) (pid : Nat) (p : HarqProcess α) :
    (h.put pid p).nofProcs = h.nofProcs := by
  simp [put, nofProcs]

/-- Sends fresh blocks of the given sizes and schemes on an empty process. -/
def newTx (h : HarqTable α) (pid : Nat) (t : Tti) (sizes : List (Nat × Nat)) (alloc : α) :
    Except HarqError (List TbGrant) × HarqTable α :=
  match h.refusal? pid (sizes.length - 1), h.get? pid with
  | some e, _ => (.error e, h)
  | none, none => (.error (.notActive pid 0), h)
  | none, some p =>
      if p.isEmpty then
        let (grants, p) := p.start t sizes alloc
        (.ok grants, h.put pid p)
      else (.error (.notActive pid 0), h)

/-- Sends the negatively answered blocks of a process again, when they are due at `t`. -/
def newRetx (h : HarqTable α) (pid : Nat) (t : Tti) (alloc : α) :
    Except HarqError (List TbGrant) × HarqTable α :=
  match h.refusal? pid 0, h.get? pid with
  | some e, _ => (.error e, h)
  | none, none => (.error (.notActive pid 0), h)
  | none, some p =>
      if p.hasPendingRetx t then
        let (grants, p) := p.resend t alloc
        (.ok grants, h.put pid p)
      else (.error (.notActive pid 0), h)

def setAck (h : HarqTable α) (pid tb : Nat) (ack : Bool) :
    Except HarqError AckOutcome × HarqTable α :=
  match h.refusal? pid tb, h.get? pid with
  | some e, _ => (.error e, h)
  | none, none => (.error (.notActive pid tb), h)
  | none, some p =>
      let (outcome, p, dropped) := p.feedback tb ack h.roundTrip h.maxRetx
      (outcome, { h.put pid p with dropped := h.dropped ++ dropped })

/-- Takes the blocks given up since they were last taken. -/
def takeDropped (h : HarqTable α) : List DroppedTb × HarqTable α :=
  (h.dropped, { h with dropped := [] })

/-- Empties every process, keeping the new-data indicators and the clock. -/
def reset (h : HarqTable α) : HarqTable α :=
  { h with procs := h.procs.map HarqProcess.reset, dropped := [] }

end HarqTable

end MacScheduler
