import MacScheduler.Terminal.Basic

/-!
# Snapshots

What a scheduling pass needs to know about a terminal on one carrier: the
retransmission due in each direction, or else its wish for new data, and where
its grant messages may be placed.
-/

namespace MacScheduler

/-- Uplink bytes granted to a scheduling request without a buffer report. -/
def srGrantBytes : Nat := 512

/-- A retransmission due, with the allocation of the last transmission. -/
structure RetxRequest (α : Type) where
  pid : Nat
  alloc : α
deriving DecidableEq

structure NewTxRequest where
  pid : Nat
  pending : Nat
  /-- Resource units that would empty the buffer. -/
  units : Nat
  bytesPerUnit : Float

structure Snapshot where
  rnti : Rnti
  aggrLevel : Nat
  /-- Control elements that may begin a grant message, in the order tried. -/
  candidates : List Nat
  dlRetx : Option (RetxRequest RbgMask)
  dlNew : Option NewTxRequest
  ulRetx : Option (RetxRequest PrbInterval)
  ulNew : Option NewTxRequest

def HarqTable.retxRequest? {α : Type} (h : HarqTable α) (t : Tti) : Option (RetxRequest α) :=
  (h.pendingProcess? t).bind fun pid ↦
    ((h.get? pid).bind (·.alloc)).map fun alloc ↦ ⟨pid, alloc⟩

/-- The wish of a link for `pending` bytes on process `pid`. -/
def Link.newTxRequest? (l : Link) (dir : Direction) (pending : Nat) (pid : Option Nat) :
    Option NewTxRequest :=
  if !l.isActive ∨ pending = 0 then none
  else
    pid.map fun pid ↦
      { pid, pending
        units := l.unitsForBytes pending dir
        bytesPerUnit := Float.ofNat (l.sizeForUnits 1 maxCount dir).total }

namespace Terminal

def downlinkPending (t : Terminal) : Nat := t.channels.downlinkPending

/-- Uplink bytes reported, or those of a bare scheduling request. -/
def uplinkPending (t : Terminal) : Nat :=
  if t.channels.uplinkPending = 0 ∧ t.srPending then srGrantBytes else t.channels.uplinkPending

/-- Block groups that would empty the downlink buffers on a carrier. -/
def requiredRbgs (t : Terminal) (carrier : Nat) : Nat :=
  ((t.link? carrier).map (·.unitsForBytes t.downlinkPending .downlink)).getD 0

/-- Resource blocks that would empty the uplink buffers on a carrier. -/
def requiredPrbs (t : Terminal) (carrier : Nat) : Nat :=
  ((t.link? carrier).map (·.unitsForBytes t.uplinkPending .uplink)).getD 0

def snapshot? (t : Terminal) (now : Tti) (carrier : Nat) : Option Snapshot :=
  (t.link? carrier).map fun l ↦
    let dlRetx := if l.allowsRetx then l.dl.retxRequest? now.downlinkTx else none
    let ulRetx := if l.allowsRetx then l.ul.retxRequest? now.uplinkTx else none
    { rnti := t.rnti
      aggrLevel := l.aggrLevel
      candidates := l.dciCandidates now.downlinkTx.subframe l.aggrLevel
      dlRetx
      ulRetx
      dlNew :=
        if dlRetx.isSome then none
        else l.newTxRequest? .downlink t.downlinkPending (l.dl.emptyProcess? now.downlinkTx)
      ulNew :=
        if ulRetx.isSome then none
        else l.newTxRequest? .uplink t.uplinkPending (l.ul.emptyProcess? now.uplinkTx) }

end Terminal

end MacScheduler
