import MacScheduler.Harq.Block

/-!
# Stop-and-wait processes

A process carries up to two transport blocks that were last sent together.  A
block sent at `T` and answered negatively, or not answered at all, is due again
exactly one round trip after `T`; when that point passes without a grant the
block is given up.
-/

namespace MacScheduler

def slotsPerProcess : Nat := 2

/-- A process, with the frequency allocation of its last transmission. -/
structure HarqProcess (α : Type) where
  pid : Nat
  slots : List TbSlot
  alloc : Option α := none
  txTti : Option Tti := none
  /-- When the negatively answered blocks are due. -/
  retxTti : Option Tti := none
deriving DecidableEq

namespace HarqProcess

variable {α : Type}

def idle (pid : Nat) : HarqProcess α :=
  { pid, slots := List.replicate slotsPerProcess {} }

def isEmpty (p : HarqProcess α) : Bool := p.slots.all TbSlot.isEmpty

def hasPendingRetx (p : HarqProcess α) (t : Tti) : Bool :=
  decide (p.retxTti = some t) && p.slots.any TbSlot.isPendingRetx

def pendingBytes (p : HarqProcess α) : Nat := total (p.slots.map TbSlot.pendingBytes)

/-- A process without blocks holds no allocation and waits for no retransmission. -/
def settle (p : HarqProcess α) : HarqProcess α :=
  if p.isEmpty then { p with alloc := none, retxTti := none } else p

/-- A slot at point `now`, with the point at which its process is due: an
unanswered block whose feedback window closed counts as answered negatively, and
a block whose due point has passed is given up. -/
def advanceSlot (now tx : Tti) (roundTrip maxRetx pid tb : Nat) (due : Option Tti) (b : TbSlot) :
    TbSlot × Option Tti × List DroppedTb :=
  let expired := b.awaiting && decide ((roundTrip : Int) ≤ now.diff tx)
  if expired && decide (maxRetx ≤ b.nofRetx) then
    (b.answer false maxRetx, due, [⟨pid, tb, b.tbs, .maxRetx⟩])
  else
    let due := if expired then some (tx + roundTrip) else due
    let b := if expired then b.answer false maxRetx else b
    if b.isPendingRetx && due.any (·.isBefore now) then
      (b.drop, due, [⟨pid, tb, b.tbs, .missedWindow⟩])
    else (b, due, [])

def advanceSlots (now tx : Tti) (roundTrip maxRetx pid : Nat) :
    (tb : Nat) → Option Tti → List TbSlot → List TbSlot × Option Tti × List DroppedTb
  | _, due, [] => ([], due, [])
  | tb, due, b :: slots =>
      let (b, due, dropped) := advanceSlot now tx roundTrip maxRetx pid tb due b
      let (slots, due, rest) := advanceSlots now tx roundTrip maxRetx pid (tb + 1) due slots
      (b :: slots, due, dropped ++ rest)

/-- The process at point `now`, and the blocks given up. -/
def advance (p : HarqProcess α) (now : Tti) (roundTrip maxRetx : Nat) :
    HarqProcess α × List DroppedTb :=
  match p.txTti with
  | none => (p, [])
  | some tx =>
      let (slots, due, dropped) := advanceSlots now tx roundTrip maxRetx p.pid 0 p.retxTti p.slots
      (({ p with slots, retxTti := due } : HarqProcess α).settle, dropped)

/-- Starts a fresh block of each given size and scheme in the first slots. -/
def startSlots : List TbSlot → List (Nat × Nat) → List TbSlot × List TbGrant
  | b :: slots, (tbs, mcs) :: sizes =>
      let b := b.start tbs mcs
      let (slots, grants) := startSlots slots sizes
      (b :: slots, b.grant false :: grants)
  | slots, _ => (slots, [])

def start (p : HarqProcess α) (t : Tti) (sizes : List (Nat × Nat)) (alloc : α) :
    List TbGrant × HarqProcess α :=
  let (slots, grants) := startSlots p.slots sizes
  (grants, { p with slots, alloc := some alloc, txTti := some t, retxTti := none })

/-- Sends the negatively answered blocks again at `t`; those still waiting for
feedback are left alone. -/
def resend (p : HarqProcess α) (t : Tti) (alloc : α) : List TbGrant × HarqProcess α :=
  let slots := p.slots.map fun b ↦ if b.isPendingRetx then b.resend else b
  ((p.slots.filter TbSlot.isPendingRetx).map fun b ↦ b.resend.grant true,
    { p with slots, alloc := some alloc, txTti := some t, retxTti := none })

/-- Feedback for the block in slot `tb`.  An acknowledgement that comes after the
feedback window closed still cancels a retransmission that was not sent. -/
def feedback (p : HarqProcess α) (tb : Nat) (ack : Bool) (roundTrip maxRetx : Nat) :
    Except HarqError AckOutcome × HarqProcess α × List DroppedTb :=
  match p.slots[tb]? with
  | none => (.error (.notActive p.pid tb), p, [])
  | some b =>
      if ack && b.isPendingRetx then
        let b' := { b with state := .empty, lastAck := some true }
        (.ok (.acked b.tbs), ({ p with slots := p.slots.set tb b' } : HarqProcess α).settle, [])
      else if !b.awaiting then
        (if b.repeats ack then .ok .ignored else .error (.notActive p.pid tb), p, [])
      else
        match p.txTti with
        | none => (.error (.notActive p.pid tb), p, [])
        | some tx =>
            let p' := { p with slots := p.slots.set tb (b.answer ack maxRetx) }
            if ack then (.ok (.acked b.tbs), p'.settle, [])
            else if b.nofRetx < maxRetx then
              let due := tx + roundTrip
              (.ok (.retransmit due), ({ p' with retxTti := some due } : HarqProcess α).settle, [])
            else (.ok (.dropped b.tbs), p'.settle, [⟨p.pid, tb, b.tbs, .maxRetx⟩])

/-- Forgets everything but the new-data indicators. -/
def reset (p : HarqProcess α) : HarqProcess α :=
  { pid := p.pid, slots := p.slots.map TbSlot.reset }

end HarqProcess

end MacScheduler
