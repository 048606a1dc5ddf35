import MacScheduler.Clock.Tti
import MacScheduler.Count

/-!
# Transport blocks in flight

A transport block is sent, answered by feedback and, when the answer is
negative, sent again until it is acknowledged or given up.  The new-data
indicator toggles with every fresh block, and the redundancy version follows
the number of retransmissions.
-/

namespace MacScheduler

inductive TbState where
  | empty
  | activeNew
  | activeRetx
deriving DecidableEq

inductive DropReason where
  /-- Negative feedback reached the bound on retransmissions. -/
  | maxRetx
  /-- The retransmission was not granted when it was due. -/
  | missedWindow
deriving DecidableEq

/-- A block given up, with the process and the place it had. -/
structure DroppedTb where
  pid : Nat
  tb : Nat
  tbs : Nat
  reason : DropReason
deriving DecidableEq

inductive AckOutcome where
  | acked (tbs : Nat)
  | retransmit (due : Tti)
  | dropped (tbs : Nat)
  /-- The feedback repeats what is already known. -/
  | ignored
deriving DecidableEq

/-- The part of a grant that describes one transport block. -/
structure TbGrant where
  tbs : Nat
  mcs : Nat
  ndi : Bool
  rv : Nat
  isRetx : Bool
deriving DecidableEq

def grantedBytes (grants : List TbGrant) : Nat := total (grants.map (·.tbs))

inductive HarqError where
  | invalidPid (pid nofProcs : Nat)
  | invalidTb (tb nofTbs : Nat)
  | notActive (pid tb : Nat)
deriving DecidableEq

def HarqError.message : HarqError → String
  | invalidPid pid nofProcs => s!"HARQ process id {pid} out of range (0..{nofProcs})"
  | invalidTb tb nofTbs => s!"transport block index {tb} out of range (0..{nofTbs})"
  | notActive pid tb => s!"HARQ process {pid} TB {tb} is not awaiting feedback"

/-- Redundancy version of the `k`-th retransmission. -/
def redundancyVersion (k : Nat) : Nat := [0, 2, 3, 1].getD (k % 4) 0

/-- A place for a transport block.  Size and scheme stay after the block is resolved. -/
structure TbSlot where
  state : TbState := .empty
  ndi : Bool := false
  nofRetx : Nat := 0
  tbs : Nat := 0
  mcs : Nat := 0
  /-- Sent, and not answered yet. -/
  awaiting : Bool := false
  lastAck : Option Bool := none
deriving DecidableEq

namespace TbSlot

def isEmpty (b : TbSlot) : Bool := decide (b.state = .empty)

/-- Answered negatively and not sent again yet. -/
def isPendingRetx (b : TbSlot) : Bool := decide (b.state = .activeRetx) && !b.awaiting

def pendingBytes (b : TbSlot) : Nat := if b.isEmpty then 0 else b.tbs

def start (b : TbSlot) (tbs mcs : Nat) : TbSlot :=
  { state := .activeNew, ndi := !b.ndi, nofRetx := 0, tbs, mcs, awaiting := true, lastAck := none }

def resend (b : TbSlot) : TbSlot :=
  { b with nofRetx := b.nofRetx + 1, awaiting := true }

/-- Records an answer: the block is resolved, or due once more while the bound
on retransmissions allows it. -/
def answer (b : TbSlot) (ack : Bool) (maxRetx : Nat) : TbSlot :=
  { b with
    awaiting := false
    lastAck := some ack
    state := if !ack && decide (b.nofRetx < maxRetx) then .activeRetx else .empty }

def drop (b : TbSlot) : TbSlot := { b with state := .empty }

/-- Forgets the block but for its new-data indicator. -/
def reset (b : TbSlot) : TbSlot := { ndi := b.ndi }

/-- Whether feedback repeats what is known of a block that awaits none. -/
def repeats (b : TbSlot) (ack : Bool) : Bool :=
  match b.state with
  | .empty => decide (b.lastAck = some ack)
  | .activeRetx => !ack
  | .activeNew => false

/-- The grant that announces the block as it now stands. -/
def grant (b : TbSlot) (isRetx : Bool) : TbGrant :=
  { tbs := b.tbs, mcs := b.mcs, ndi := b.ndi, rv := redundancyVersion b.nofRetx, isRetx }

end TbSlot

end MacScheduler
