import MacScheduler.Subframe.Plan
import MacScheduler.Terminal.Commit
import MacScheduler.Terminal.Roster

/-!
# The scheduling pass

A carrier runs one pass per subframe.  The pass brings every terminal to the
subframe, plans over snapshots and commits the plan terminal by terminal.  Its
result is kept, so the downlink and the uplink pull of a subframe see the same
grants; points of the clock only move forward.
-/

namespace MacScheduler

/-- Grants and grant messages of one subframe. -/
structure SubframeResult where
  rxTti : Tti
  dl : List DlGrant
  ul : List UlGrant
  dcis : List DciAlloc
  /-- Time taken and budget, when the pass overran it. -/
  overrun : Option (Nat × Nat)
deriving DecidableEq

namespace SubframeResult

/-- The first later grant whose groups a grant shares. -/
def rbgClash? (t : Tti) : List DlGrant → Option Clash
  | [] => none
  | a :: rest =>
      match rest.find? fun b ↦ a.mask.overlaps b.mask with
      | some b => some (.rbgMasks a.rnti b.rnti t)
      | none => rbgClash? t rest

/-- The first later grant whose resource blocks a grant shares. -/
def prbClash? (t : Tti) : List UlGrant → Option Clash
  | [] => none
  | a :: rest =>
      match rest.find? fun b ↦ a.interval.overlaps b.interval with
      | some b => some (.puschIntervals a.rnti b.rnti t)
      | none => prbClash? t rest

def clash? (r : SubframeResult) : Option Clash :=
  (rbgClash? r.rxTti r.dl).or (prbClash? r.rxTti r.ul)

/-- The result, unless its pass overran its budget. -/
def inTime (r : SubframeResult) : Except SchedError SubframeResult :=
  match r.overrun with
  | some (elapsed, budget) => .error (.deadlineMissed r.rxTti elapsed budget)
  | none => .ok r

end SubframeResult

/-- What a pass tells the policy: the candidates in the order served and the bytes
granted to each. -/
structure PassRecord where
  dlOrder : List Candidate
  ulOrder : List Candidate
  dlServed : List (Rnti × Nat)
  ulServed : List (Rnti × Nat)

structure CarrierPass where
  params : CellParams
  /-- Microseconds that a pass may take. -/
  budget : Option Nat
  lastTti : Option Tti := none
  result : Option SubframeResult := none

namespace CarrierPass

/-- Brings terminals to reception point `now`, one after the other, and takes their
snapshots. -/
def observe (now : Tti) (carrier : Nat) :
    PucchPools → Roster → List Snapshot × Roster × PucchPools
  | pools, [] => ([], [], pools)
  | pools, t :: rest =>
      let (t, pools) := t.newTti now pools
      let (snapshots, rest, pools) := observe now carrier pools rest
      ((t.snapshot? now carrier).toList ++ snapshots, t :: rest, pools)

/-- Makes the planned downlink grants; a grant that is refused gives its grant
message back. -/
def commitDownlink (tx : Tti) (carrier : Nat) :
    Roster → ControlRegion → List DlPlan → List DlGrant × Roster × ControlRegion
  | roster, region, [] => ([], roster, region)
  | roster, region, p :: plans =>
      match roster.get? p.rnti with
      | none => commitDownlink tx carrier roster region plans
      | some t =>
          match t.grantDownlink tx carrier p.pid p.mask p.dci with
          | (.ok g, t) =>
              let (grants, roster, region) :=
                commitDownlink tx carrier (roster.update t) region plans
              (g :: grants, roster, region)
          | (.error _, t) =>
              commitDownlink tx carrier (roster.update t)
                (region.rollback p.rnti .downlink).2 plans

def commitUplink (tx : Tti) (carrier : Nat) :
    Roster → ControlRegion → List UlPlan → List UlGrant × Roster × ControlRegion
  | roster, region, [] => ([], roster, region)
  | roster, region, p :: plans =>
      match roster.get? p.rnti with
      | none => commitUplink tx carrier roster region plans
      | some t =>
          match t.grantUplink tx carrier p.pid p.interval p.dci with
          | (.ok g, t) =>
              let (grants, roster, region) :=
                commitUplink tx carrier (roster.update t) region plans
              (g :: grants, roster, region)
          | (.error _, t) =>
              let region :=
                if p.dci.isSome then (region.rollback p.rnti .uplink).2 else region
              commitUplink tx carrier (roster.update t) region plans

/-- Bytes of new data per candidate, zero for those without a grant.  Of several
grants to one terminal the last counts. -/
def served (candidates : List Candidate) (granted : List (Rnti × Nat)) : List (Rnti × Nat) :=
  candidates.map fun c ↦
    (c.rnti, ((granted.reverse.find? fun g ↦ decide (g.1 = c.rnti)).map (·.2)).getD 0)

/-- Runs the pass of reception point `now`, which took `elapsed` microseconds. -/
def schedule (c : CarrierPass) (order : Direction → List Candidate → List Candidate) (now : Tti)
    (elapsed : Nat) (roster : Roster) (pools : PucchPools) :
    SubframeResult × PassRecord × Roster × PucchPools :=
  let carrier := c.params.index
  let (snapshots, roster, pools) := observe now carrier pools roster
  let plan := SubframePlan.make c.params order snapshots
  let (dl, roster, region) := commitDownlink now.downlinkTx carrier roster plan.region plan.dl
  let (ul, roster, region) := commitUplink now.uplinkTx carrier roster region plan.ul
  let dlGranted := (dl.filter (!·.isRetx)).map fun g ↦ (g.rnti, g.totalBytes)
  let ulGranted := (ul.filter (!·.tb.isRetx)).map fun g ↦ (g.rnti, g.tb.tbs)
  ({ rxTti := now, dl, ul, dcis := region.allocs
     overrun := (c.budget.filter fun budget ↦ decide (budget < elapsed)).map (elapsed, ·) },
   { dlOrder := plan.dlCandidates
     ulOrder := plan.ulCandidates
     dlServed := served plan.dlCandidates dlGranted
     ulServed := served plan.ulCandidates ulGranted },
   roster, pools)

/-- What a pull changes, beside its answer. -/
structure Effect where
  pass : CarrierPass
  roster : Roster
  pools : PucchPools
  /-- Present when the pull executed a pass. -/
  record : Option PassRecord

/-- The result for reception point `now`: the one kept, or that of a pass that runs
now.  A point that is not after the last one is refused. -/
def run (c : CarrierPass) (order : Direction → List Candidate → List Candidate) (now : Tti)
    (elapsed : Nat) (roster : Roster) (pools : PucchPools) :
    Except SchedError SubframeResult × Effect :=
  match c.result.filter (fun r ↦ decide (r.rxTti = now)),
      c.lastTti.filter (fun last ↦ !now.isAfter last) with
  | some r, _ => (r.inTime, ⟨c, roster, pools, none⟩)
  | none, some last => (.error (.ttiOutOfOrder now last), ⟨c, roster, pools, none⟩)
  | none, none =>
      let (r, record, roster, pools) := c.schedule order now elapsed roster pools
      let c := { c with lastTti := some now }
      match r.clash? with
      | some clash => (.error (.corrupted clash), ⟨c, roster, pools, some record⟩)
      | none => (r.inTime, ⟨{ c with result := some r }, roster, pools, some record⟩)

end CarrierPass

end MacScheduler
