import MacScheduler.Cell.Params
import MacScheduler.Harq.Table
import MacScheduler.Terminal.Grant

/-!
# Links

A link is a terminal on one of its carriers: whether the carrier is activated,
what was reported about the channel and when, the limits on what may be granted,
and the process tables of both directions.  From the reports follow the size of
a block on given resources and the resources for a given number of bytes.
-/

namespace MacScheduler

/-- Activation of a carrier.  Commands move it forward at subframe boundaries. -/
inductive Activation where
  | idle
  | activating
  | active
  | deactivating
deriving DecidableEq

def Activation.name : Activation → String
  | idle => "idle"
  | activating => "activating"
  | active => "active"
  | deactivating => "deactivating"

structure Report where
  value : Nat
  received : Tti
deriving DecidableEq

structure BlockSize where
  mcs : Nat
  /-- Bytes of one block. -/
  tbs : Nat
  nofTb : Nat
deriving DecidableEq

namespace BlockSize

def none : BlockSize := ⟨0, 0, 1⟩

def total (s : BlockSize) : Nat := s.tbs * s.nofTb

end BlockSize

/-- The least number of a range that passes a test, for a test that passes from
some number on; the upper end when none does. -/
def bisect (test : Nat → Bool) (lo hi : Nat) : Nat :=
  if lo < hi then
    let mid := lo + (hi - lo) / 2
    if test mid then bisect test lo mid else bisect test (mid + 1) hi
  else lo
termination_by hi - lo

structure Link where
  rnti : Rnti
  /-- Position of the carrier in the configuration of the terminal. -/
  position : Nat
  params : CellParams
  state : Activation
  /-- The reception point of the latest boundary. -/
  now : Tti
  dlCqi : Option Report
  dlPmi : Option Report
  dlRi : Option Report
  ulCqi : Option Report
  maxAggrLevel : Nat
  mcsCapDl : Nat
  mcsCapUl : Nat
  dl : HarqTable RbgMask
  ul : HarqTable PrbInterval
  /-- Contents of the downlink blocks, per process and block. -/
  buffers : List (List ByteArray)

namespace Link

/-- A fresh link; limits of the terminal apply where they are below the cell's. -/
def create (rnti : Rnti) (position : Nat) (params : CellParams) (active : Bool)
    (maxAggrLevel : Nat) (maxMcsDl maxMcsUl : Option Nat) : Link :=
  { rnti, position, params
    state := if active then .active else .idle
    now := Tti.ofNat 0
    dlCqi := Option.none, dlPmi := Option.none, dlRi := Option.none, ulCqi := Option.none
    maxAggrLevel := min maxAggrLevel MacScheduler.maxAggrLevel
    mcsCapDl := min (maxMcsDl.getD params.cell.maxMcsDl) params.cell.maxMcsDl
    mcsCapUl := min (maxMcsUl.getD params.cell.maxMcsUl) params.cell.maxMcsUl
    dl := .empty params.harq.roundTrip slotsPerProcess params.harq.maxRetx
    ul := .empty params.harq.roundTrip 1 params.harq.maxRetx
    buffers := List.replicate params.harq.roundTrip (List.replicate slotsPerProcess .empty) }

def carrier (l : Link) : Nat := l.params.index

def isActive (l : Link) : Bool := decide (l.state = .active)

/-- Whether blocks in flight may still be sent again. -/
def allowsRetx (l : Link) : Bool := decide (l.state = .active) || decide (l.state = .deactivating)

/-- Moves both process tables, each to the point at which it would send. -/
def advance (l : Link) (dlTx ulTx : Tti) : Nat × Link :=
  let (n, dl) := l.dl.advance dlTx
  let (m, ul) := l.ul.advance ulTx
  (n + m, { l with dl, ul })

def resetHarq (l : Link) : Link := { l with dl := l.dl.reset, ul := l.ul.reset }

/-- A report, unless its age exceeds the staleness bound: expired reports are
forgotten before the clock can wrap back onto them. -/
def unexpired (l : Link) (t : Tti) (r : Option Report) : Option Report :=
  r.filter fun r ↦ decide (t.diff r.received ≤ l.params.maxAge)

/-- The boundary of reception point `t`, and the blocks given up, downlink first. -/
def newTti (l : Link) (t : Tti) : List (Direction × DroppedTb) × Link :=
  let l := { l with
    now := t
    dlCqi := l.unexpired t l.dlCqi
    dlPmi := l.unexpired t l.dlPmi
    dlRi := l.unexpired t l.dlRi
    ulCqi := l.unexpired t l.ulCqi }
  let (_, l) := l.advance t.downlinkTx t.uplinkTx
  let (dlDropped, dl) := l.dl.takeDropped
  let (ulDropped, ul) := l.ul.takeDropped
  (dlDropped.map (Direction.downlink, ·) ++ ulDropped.map (Direction.uplink, ·),
    { l with dl, ul })

/-! ## Channel quality -/

/-- The value of a report whose age lies within the staleness bound. -/
def fresh? (l : Link) (r : Option Report) : Option Nat :=
  (r.filter fun r ↦
    let age := l.now.diff r.received
    decide (0 ≤ age) && decide (age ≤ l.params.maxAge)).map (·.value)

def isDlCqiStale (l : Link) : Bool := (l.fresh? l.dlCqi).isNone

def maxMcs (l : Link) : Direction → Nat
  | .downlink => min (((l.fresh? l.dlCqi).map cqiToMcs).getD l.params.fallbackMcs) l.mcsCapDl
  | .uplink => min (((l.fresh? l.ulCqi).map cqiToMcs).getD l.params.fallbackMcs) l.mcsCapUl

/-- Blocks sent at once: two downlink ones while a fresh report has rank two. -/
def nofLayers (l : Link) : Direction → Nat
  | .downlink => if l.fresh? l.dlRi = some 2 then 2 else 1
  | .uplink => 1

def aggrLevel (l : Link) : Nat :=
  match l.fresh? l.dlCqi with
  | some cqi => aggrLevelForCqi cqi l.params.dciBits l.maxAggrLevel
  | Option.none => l.maxAggrLevel

/-- First control elements that the terminal tries in a subframe at a level. -/
def dciCandidates (l : Link) (subframe level : Nat) : List Nat :=
  if level ≤ MacScheduler.maxAggrLevel then
    SearchSpace.candidates l.rnti l.params.nofCce (subframe % 10) level
  else []

/-! ## Sizing -/

/-- Resource units of the carrier: block groups downlink, blocks uplink. -/
def maxUnits (l : Link) : Direction → Nat
  | .downlink => l.params.nofRbg
  | .uplink => l.params.puschRegion.len

def unitsToPrbs (l : Link) (units : Nat) : Direction → Nat
  | .downlink => min (wrap (units * l.params.rbgSize)) l.params.nofPrb
  | .uplink => units

/-- Blocks for `bytes` on `nofPrb` resource blocks: the lowest scheme that holds
the request, or the highest allowed. -/
def sizeForPrbs (l : Link) (nofPrb bytes : Nat) (dir : Direction) : BlockSize :=
  if nofPrb = 0 ∨ bytes = 0 then .none
  else
    let nofTb := l.nofLayers dir
    let perTb := (bytes + nofTb - 1) / nofTb
    let mcs := minMcsForBytes perTb nofPrb (l.maxMcs dir) dir
    ⟨mcs, tbsBytes mcs nofPrb dir, nofTb⟩

def sizeForUnits (l : Link) (units bytes : Nat) (dir : Direction) : BlockSize :=
  l.sizeForPrbs (l.unitsToPrbs units dir) bytes dir

/-- The fewest units whose blocks hold `bytes`, or all when none suffice. -/
def unitsForBytes (l : Link) (bytes : Nat) (dir : Direction) : Nat :=
  if bytes = 0 ∨ l.maxUnits dir = 0 then 0
  else bisect (fun units ↦ decide (bytes ≤ (l.sizeForUnits units bytes dir).total)) 1
    (l.maxUnits dir)

/-! ## Starting and repeating blocks -/

/-- Blank contents for the granted blocks of a process. -/
def blankBuffers : List ByteArray → List TbGrant → List ByteArray
  | _ :: buffers, g :: grants => ⟨Array.replicate g.tbs 0⟩ :: blankBuffers buffers grants
  | buffers, _ => buffers

def startDownlink (l : Link) (t : Tti) (pid : Nat) (mask : RbgMask) (bytes : Nat) :
    Except GrantError (List TbGrant) × Link :=
  if !l.isActive then (.error (.carrierInactive l.carrier), l)
  else
    let size := l.sizeForPrbs (mask.nofPrb l.params.nofPrb) bytes .downlink
    if size.tbs = 0 then (.error .zeroTbs, l)
    else
      match l.dl.newTx pid t (List.replicate size.nofTb (size.tbs, size.mcs)) mask with
      | (.error _, dl) => (.error .noHarq, { l with dl })
      | (.ok grants, dl) =>
          (.ok grants, { l with dl, buffers := l.buffers.modify pid (blankBuffers · grants) })

/-- Sends downlink blocks again, on a mask of as many groups as before. -/
def resendDownlink (l : Link) (t : Tti) (pid : Nat) (mask : RbgMask) :
    Except GrantError (List TbGrant) × Link :=
  if !l.allowsRetx then (.error (.carrierInactive l.carrier), l)
  else
    match ((l.dl.get? pid).bind (·.alloc)).map RbgMask.count with
    | Option.none => (.error .noHarq, l)
    | some expected =>
        if mask.count ≠ expected then (.error (.sizeMismatch expected mask.count), l)
        else
          match l.dl.newRetx pid t mask with
          | (.error _, dl) => (.error .noHarq, { l with dl })
          | (.ok grants, dl) => (.ok grants, { l with dl })

def lastGrant (grants : List TbGrant) : Except GrantError TbGrant :=
  match grants.getLast? with
  | Option.none => .error .noHarq
  | some g => .ok g

def startUplink (l : Link) (t : Tti) (pid : Nat) (interval : PrbInterval) (bytes : Nat) :
    Except GrantError TbGrant × Link :=
  if !l.isActive then (.error (.carrierInactive l.carrier), l)
  else
    let size := l.sizeForPrbs interval.len bytes .uplink
    if size.tbs = 0 then (.error .zeroTbs, l)
    else
      match l.ul.newTx pid t [(size.tbs, size.mcs)] interval with
      | (.error _, ul) => (.error .noHarq, { l with ul })
      | (.ok grants, ul) => (lastGrant grants, { l with ul })

/-- Sends an uplink block again, on an interval as long as before. -/
def resendUplink (l : Link) (t : Tti) (pid : Nat) (interval : PrbInterval) :
    Except GrantError TbGrant × Link :=
  if !l.allowsRetx then (.error (.carrierInactive l.carrier), l)
  else
    match ((l.ul.get? pid).bind (·.alloc)).map PrbInterval.len with
    | Option.none => (.error .noHarq, l)
    | some expected =>
        if interval.len ≠ expected then (.error (.sizeMismatch expected interval.len), l)
        else
          match l.ul.newRetx pid t interval with
          | (.error _, ul) => (.error .noHarq, { l with ul })
          | (.ok grants, ul) => (lastGrant grants, { l with ul })

def buffer? (l : Link) (pid tb : Nat) : Except HarqError ByteArray :=
  match l.buffers[pid]? with
  | Option.none => .error (.invalidPid pid l.buffers.length)
  | some blocks =>
      match blocks[tb]? with
      | Option.none => .error (.invalidTb tb slotsPerProcess)
      | some contents => .ok contents

/-- Edits the contents of the buffer of a downlink block. -/
def editBuffer (l : Link) (pid tb : Nat) (edit : ByteArray → ByteArray) :
    Except HarqError Unit × Link :=
  match l.buffer? pid tb with
  | .error e => (.error e, l)
  | .ok contents =>
      (.ok (), { l with buffers := l.buffers.modify pid (·.set tb (edit contents)) })

end Link

end MacScheduler
