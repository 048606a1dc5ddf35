import MacScheduler.Control.Region
import MacScheduler.Policy.Candidate
import MacScheduler.Terminal.Snapshot

/-!
# Planning a subframe

A plan is made from snapshots and changes no terminal.  Retransmissions come
first, by ascending terminal: each keeps its resources if they are free and
otherwise moves to others of the same size, which takes a grant message.  Those
that get no grant message give their resources back.  New data takes what is
left, in the order of the policy.
-/

namespace MacScheduler

structure DlPlan where
  rnti : Rnti
  pid : Nat
  mask : RbgMask
  dci : DciLocation
deriving DecidableEq

structure UlPlan where
  rnti : Rnti
  pid : Nat
  interval : PrbInterval
  dci : Option DciLocation
deriving DecidableEq

structure SubframePlan where
  dl : List DlPlan
  ul : List UlPlan
  region : ControlRegion
  /-- All candidates for new data, in the order of the policy. -/
  dlCandidates : List Candidate
  ulCandidates : List Candidate

namespace SubframePlan

/-- A downlink retransmission with resources set aside. -/
structure DlHold where
  rnti : Rnti
  pid : Nat
  mask : RbgMask
deriving DecidableEq

/-- An uplink retransmission with resources set aside; it needs a grant message
when it was moved. -/
structure UlHold where
  rnti : Rnti
  pid : Nat
  interval : PrbInterval
  moved : Bool
deriving DecidableEq

/-- The resources taken, and the retransmissions they are set aside for. -/
structure Holds where
  rbgs : RbgMask
  prbs : PrbMap
  dl : List DlHold := []
  ul : List UlHold := []
  requests : List DciRequest := []

/-- The map of a carrier on which only the control edges of the band are taken. -/
def uplinkMap (p : CellParams) : PrbMap :=
  let data := p.puschRegion
  ((PrbMap.empty p.nofPrb).fill ⟨0, data.start⟩).fill ⟨data.stop, p.nofPrb - data.stop⟩

def dciRequest (s : Snapshot) (dir : Direction) : DciRequest :=
  ⟨s.rnti, dir, s.aggrLevel, s.candidates⟩

/-- The groups for a downlink retransmission: its own if they are free. -/
def retxMask (used alloc : RbgMask) : RbgMask :=
  if used.overlaps alloc then used.pickFree alloc.count else alloc

def holdDownlink (h : Holds) (s : Snapshot) : Holds :=
  match s.dlRetx with
  | none => h
  | some retx =>
      let mask := retxMask h.rbgs retx.alloc
      if mask.count = retx.alloc.count then
        { h with
          rbgs := h.rbgs.union mask
          dl := h.dl ++ [⟨s.rnti, retx.pid, mask⟩]
          requests := h.requests ++ [dciRequest s .downlink] }
      else h

/-- The interval for an uplink retransmission, its own if it is free, and whether
it was moved. -/
def retxInterval? (used : PrbMap) (alloc : PrbInterval) : Option (PrbInterval × Bool) :=
  if used.isFree alloc then some (alloc, false)
  else (used.findExact alloc.len).map fun i ↦ (i, true)

def holdUplink (h : Holds) (s : Snapshot) : Holds :=
  match s.ulRetx with
  | none => h
  | some retx =>
      match retxInterval? h.prbs retx.alloc with
      | none => h
      | some (interval, moved) =>
          { h with
            prbs := h.prbs.fill interval
            ul := h.ul ++ [⟨s.rnti, retx.pid, interval, moved⟩]
            requests := if moved then h.requests ++ [dciRequest s .uplink] else h.requests }

def holdAll (h : Holds) (snapshots : List Snapshot) : Holds :=
  snapshots.foldl (fun h s ↦ holdUplink (holdDownlink h s) s) h

def placedFor (placed : List (DciRequest × Option DciLocation)) (rnti : Rnti)
    (dir : Direction) : Option DciLocation :=
  (placed.find? fun (q, _) ↦ decide (q.rnti = rnti) && decide (q.dir = dir)).bind (·.2)

/-- Plans the downlink retransmissions that have a grant message and frees the
groups of the others. -/
def settleDownlink (placed : List (DciRequest × Option DciLocation)) :
    RbgMask → List DlHold → List DlPlan × RbgMask
  | rbgs, [] => ([], rbgs)
  | rbgs, h :: holds =>
      match placedFor placed h.rnti .downlink with
      | none => settleDownlink placed (rbgs.diff h.mask) holds
      | some dci =>
          let (plans, rbgs) := settleDownlink placed rbgs holds
          (⟨h.rnti, h.pid, h.mask, dci⟩ :: plans, rbgs)

/-- Plans the uplink retransmissions that were not moved or have a grant message
and frees the blocks of the others. -/
def settleUplink (placed : List (DciRequest × Option DciLocation)) :
    PrbMap → List UlHold → List UlPlan × PrbMap
  | prbs, [] => ([], prbs)
  | prbs, h :: holds =>
      if h.moved then
        match placedFor placed h.rnti .uplink with
        | none => settleUplink placed (prbs.clear h.interval) holds
        | some dci =>
            let (plans, prbs) := settleUplink placed prbs holds
            (⟨h.rnti, h.pid, h.interval, some dci⟩ :: plans, prbs)
      else
        let (plans, prbs) := settleUplink placed prbs holds
        (⟨h.rnti, h.pid, h.interval, none⟩ :: plans, prbs)

/-- A terminal's wish for new data in a direction. -/
def newRequest? (s : Snapshot) : Direction → Option NewTxRequest
  | .downlink => s.dlNew
  | .uplink => s.ulNew

/-- The candidates for new data, by ascending terminal. -/
def candidates (dir : Direction) (snapshots : List Snapshot) : List Candidate :=
  snapshots.filterMap fun s ↦
    (newRequest? s dir).map fun q ↦ ⟨s.rnti, q.pending, q.units, q.bytesPerUnit⟩

/-- The snapshot of a terminal, the last one if there are several. -/
def snapshotOf? (rnti : Rnti) : List Snapshot → Option Snapshot
  | [] => none
  | s :: rest => (snapshotOf? rnti rest).or (if s.rnti = rnti then some s else none)

def wishOf? (snapshots : List Snapshot) (dir : Direction) (c : Candidate) :
    Option (Snapshot × NewTxRequest) :=
  (snapshotOf? c.rnti snapshots).bind fun s ↦ (newRequest? s dir).map fun q ↦ (s, q)

/-- Places new downlink data while groups are free: a candidate gets the lowest
free groups, as many as it asks for, if its grant message finds a place. -/
def placeDownlink (snapshots : List Snapshot) (nofRbg : Nat) :
    RbgMask → ControlRegion → List Candidate → List DlPlan × RbgMask × ControlRegion
  | rbgs, region, [] => ([], rbgs, region)
  | rbgs, region, c :: cs =>
      let free := nofRbg - rbgs.count
      if free = 0 then ([], rbgs, region)
      else
        match wishOf? snapshots .downlink c with
        | none => placeDownlink snapshots nofRbg rbgs region cs
        | some (s, q) =>
            let mask := rbgs.pickFree (max 1 (min c.units free))
            match region.alloc s.rnti .downlink s.aggrLevel s.candidates with
            | (none, region) => placeDownlink snapshots nofRbg rbgs region cs
            | (some dci, region) =>
                let (plans, rbgs, region) :=
                  placeDownlink snapshots nofRbg (rbgs.union mask) region cs
                (⟨s.rnti, q.pid, mask, dci⟩ :: plans, rbgs, region)

/-- Places new uplink data while blocks are free: a candidate gets the first free
interval as long as it asks for, or the longest one, if its grant message finds
a place. -/
def placeUplink (snapshots : List Snapshot) :
    PrbMap → ControlRegion → List Candidate → List UlPlan × PrbMap × ControlRegion
  | prbs, region, [] => ([], prbs, region)
  | prbs, region, c :: cs =>
      match wishOf? snapshots .uplink c with
      | none => placeUplink snapshots prbs region cs
      | some (s, q) =>
          match prbs.findUpTo (max c.units 1) with
          | none => ([], prbs, region)
          | some interval =>
              match region.alloc s.rnti .uplink s.aggrLevel s.candidates with
              | (none, region) => placeUplink snapshots prbs region cs
              | (some dci, region) =>
                  let (plans, prbs, region) :=
                    placeUplink snapshots (prbs.fill interval) region cs
                  (⟨s.rnti, q.pid, interval, some dci⟩ :: plans, prbs, region)

/-- Plans a subframe of a carrier from snapshots in ascending order of terminals;
`order` is the policy's order of candidates in each direction. -/
def make (p : CellParams) (order : Direction → List Candidate → List Candidate)
    (snapshots : List Snapshot) : SubframePlan :=
  let holds := holdAll ⟨.empty p.nofRbg, uplinkMap p, [], [], []⟩ snapshots
  let (placed, region) := (ControlRegion.empty p.nofCce).allocBatch holds.requests
  let (dlRetx, rbgs) := settleDownlink placed holds.rbgs holds.dl
  let (ulRetx, prbs) := settleUplink placed holds.prbs holds.ul
  let dlCandidates := order .downlink (candidates .downlink snapshots)
  let (dlNew, _, region) := placeDownlink snapshots p.nofRbg rbgs region dlCandidates
  let ulCandidates := order .uplink (candidates .uplink snapshots)
  let (ulNew, _, region) := placeUplink snapshots prbs region ulCandidates
  { dl := dlRetx ++ dlNew, ul := ulRetx ++ ulNew, region, dlCandidates, ulCandidates }

end SubframePlan

end MacScheduler
