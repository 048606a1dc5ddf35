import MacScheduler.Buffer.Channels
import MacScheduler.Pucch.Pool
import MacScheduler.Terminal.Config
import MacScheduler.Terminal.Link

/-!
# Terminals

A terminal holds its configuration, one link per configured carrier, the
buffers of its logical channels, its leases on the pools of the primary cell and
the activation commands that wait for the next subframe boundary.  The pools
belong to the cell; whatever leases or releases takes them and gives them back.
-/

namespace MacScheduler

structure PucchPools where
  sr : PucchPool
  cqi : PucchPool

def PucchPools.ofConfig (c : PucchConfig) (primary : CellConfig) : PucchPools :=
  ⟨.ofConfig .sr c.sr primary, .ofConfig .cqi c.cqi primary⟩

structure GrantTotals where
  dlBytes : Nat := 0
  ulBytes : Nat := 0
  dlGrants : Nat := 0
  ulGrants : Nat := 0
deriving DecidableEq

structure Terminal where
  rnti : Rnti
  config : TerminalConfig
  links : List Link := []
  channels : Channels := {}
  /-- A scheduling request that no grant has answered yet. -/
  srPending : Bool := false
  /-- Latest power headroom report. -/
  headroom : Option Int := none
  /-- Power commands for the next grant of each direction. -/
  tpcDl : Int := 0
  tpcUl : Int := 0
  srLease : Option PucchLease := none
  cqiLease : Option PucchLease := none
  /-- Activation commands for the next boundary: position of the carrier and
  whether it is to be active. -/
  commands : List (Nat × Bool) := []
  lastTti : Option Tti := none
  totals : GrantTotals := {}

namespace Terminal

/-! ## Links -/

def link? (t : Terminal) (carrier : Nat) : Option Link :=
  t.links.find? fun l ↦ decide (l.carrier = carrier)

/-- Replaces the first link of a carrier in a list. -/
def replaceLink (carrier : Nat) (l : Link) : List Link → List Link
  | [] => []
  | l' :: links =>
      if l'.carrier = carrier then l :: links else l' :: replaceLink carrier l links

def putLink (t : Terminal) (carrier : Nat) (l : Link) : Terminal :=
  { t with links := replaceLink carrier l t.links }

/-! ## Leases -/

/-- Leases a slot at the period asked for, or at the pool's own; a terminal that
gets none asks again at the next boundary. -/
def tryLease (pool : PucchPool) (period : Option Nat) : Option PucchLease × PucchPool :=
  match pool.lease (period.getD pool.defaultPeriod) with
  | (.ok lease, pool) => (some lease, pool)
  | (.error _, pool) => (none, pool)

def renew (pool : PucchPool) (period : Option Nat) :
    Option PucchLease → Option PucchLease × PucchPool
  | some lease => (some lease, pool)
  | none => tryLease pool period

def giveBack (pool : PucchPool) : Option PucchLease → PucchPool
  | some lease => pool.release lease
  | none => pool

/-- Tries again for the leases that are missing. -/
def retryLeases (t : Terminal) (pools : PucchPools) : Terminal × PucchPools :=
  let (srLease, sr) := renew pools.sr t.config.srPeriod t.srLease
  let (cqiLease, cqi) := renew pools.cqi t.config.cqiPeriod t.cqiLease
  ({ t with srLease, cqiLease }, ⟨sr, cqi⟩)

def leave (t : Terminal) (pools : PucchPools) : PucchPools :=
  ⟨giveBack pools.sr t.srLease, giveBack pools.cqi t.cqiLease⟩

/-- Gives the leases back whose period the new configuration changes. -/
def releaseChanged (t : Terminal) (c : TerminalConfig) (pools : PucchPools) :
    Terminal × PucchPools :=
  let (srLease, sr) :=
    if t.config.srPeriod = c.srPeriod then (t.srLease, pools.sr)
    else (none, giveBack pools.sr t.srLease)
  let (cqiLease, cqi) :=
    if t.config.cqiPeriod = c.cqiPeriod then (t.cqiLease, pools.cqi)
    else (none, giveBack pools.cqi t.cqiLease)
  ({ t with srLease, cqiLease }, ⟨sr, cqi⟩)

/-! ## Configuration -/

/-- The link of a configured carrier: the one held so far if it keeps its
position, else a fresh one, which is active on the primary carrier only. -/
def placeLink (t : Terminal) (cells : List CellParams) (c : TerminalConfig) (position : Nat)
    (cc : CarrierConfig) : Except SchedError Link :=
  match (t.link? cc.index).filter fun l ↦ decide (l.position = position) with
  | some l => .ok l
  | none =>
      match cells[cc.index]? with
      | none => .error (.invalidCarrier cc.index)
      | some params =>
          .ok (Link.create t.rnti position params (decide (position = 0))
            (min c.maxAggrLevel maxAggrLevel) c.maxMcsDl c.maxMcsUl)

/-- The command that brings a secondary carrier to the activation asked for. -/
def placeCommand (position : Nat) (active : Bool) (state : Activation) : List (Nat × Bool) :=
  if position = 0 then []
  else
    match active, state with
    | true, .idle => [(position, true)]
    | false, .active | false, .activating => [(position, false)]
    | _, _ => []

/-- Places the carriers from a position on; gives their links and the commands
queued on the way. -/
def placeLinks (t : Terminal) (cells : List CellParams) (c : TerminalConfig) :
    (position : Nat) → List CarrierConfig → Except SchedError (List Link) × List (Nat × Bool)
  | _, [] => (.ok [], [])
  | position, cc :: rest =>
      match placeLink t cells c position cc with
      | .error e => (.error e, [])
      | .ok l =>
          let (links, commands) := placeLinks t cells c (position + 1) rest
          (links.map (l :: ·), placeCommand position cc.active l.state ++ commands)

def removeStale (bearers : Bearers) : Channels → List Nat → Except BearerError Unit × Channels
  | c, [] => (.ok (), c)
  | c, lcid :: lcids =>
      if c.isConfigured lcid && (bearers.get? lcid).isNone then
        match c.remove lcid with
        | (.error e, c) => (.error e, c)
        | (.ok (), c) => removeStale bearers c lcids
      else removeStale bearers c lcids

def configureAll : Channels → Bearers → Except BearerError Unit × Channels
  | c, [] => (.ok (), c)
  | c, (lcid, b) :: rest =>
      match c.configure lcid b with
      | (.error e, c) => (.error e, c)
      | (.ok (), c) => configureAll c rest

def applyBearers (c : Channels) (bearers : Bearers) : Except BearerError Unit × Channels :=
  match removeStale bearers c (List.range nofLcids) with
  | (.error e, c) => (.error e, c)
  | (.ok (), c) => configureAll c bearers

/-- Applies a configuration.  Links and channels that were already changed when a
later part is refused stay changed; a configuration that was checked is applied
as a whole. -/
def apply (t : Terminal) (cells : List CellParams) (c : TerminalConfig) (pools : PucchPools) :
    Except SchedError Unit × Terminal × PucchPools :=
  let (links, commands) := t.placeLinks cells c 0 c.carriers
  let t := { t with commands := t.commands ++ commands }
  match links with
  | .error e => (.error e, { t with links := [] }, pools)
  | .ok links =>
      match applyBearers t.channels c.bearers with
      | (.error e, channels) => (.error (.bearer e), { t with links, channels }, pools)
      | (.ok (), channels) =>
          let (t, pools) := { t with links, channels }.releaseChanged c pools
          let (t, pools) := { t with config := c }.retryLeases pools
          (.ok (), t, pools)

def create (rnti : Rnti) (c : TerminalConfig) (cells : List CellParams) (pools : PucchPools) :
    Except SchedError Terminal × PucchPools :=
  match c.check cells.length with
  | .error e => (.error e, pools)
  | .ok () =>
      let blank : Terminal := { rnti, config := { c with carriers := [] } }
      match blank.apply cells c pools with
      | (.error e, t, pools) => (.error e, t.leave pools)
      | (.ok (), t, pools) => (.ok t, pools)

/-- Reconfigures a terminal; a configuration that is refused changes nothing. -/
def setConfig (t : Terminal) (c : TerminalConfig) (cells : List CellParams)
    (pools : PucchPools) : Except SchedError Unit × Terminal × PucchPools :=
  match c.check cells.length with
  | .error e => (.error e, t, pools)
  | .ok () => t.apply cells c pools

def configureBearer (t : Terminal) (lcid : Nat) (b : Bearer) : Except SchedError Unit × Terminal :=
  match t.channels.configure lcid b with
  | (.error e, channels) => (.error (.bearer e), { t with channels })
  | (.ok (), channels) =>
      (.ok (),
        { t with channels, config := { t.config with bearers := t.config.bearers.insert lcid b } })

def removeBearer (t : Terminal) (lcid : Nat) : Except SchedError Unit × Terminal :=
  match t.channels.remove lcid with
  | (.error e, channels) => (.error (.bearer e), { t with channels })
  | (.ok (), channels) =>
      (.ok (),
        { t with channels, config := { t.config with bearers := t.config.bearers.erase lcid } })

/-- Queues an activation or deactivation of a secondary carrier for the next
boundary.  The primary carrier is always active. -/
def requestActivation (t : Terminal) (carrier : Nat) (activate : Bool) :
    Except SchedError Unit × Terminal :=
  match t.config.position? carrier with
  | none => (.error (.invalidCarrier carrier), t)
  | some 0 => (.error (.invalidCarrier carrier), t)
  | some (position + 1) => (.ok (), { t with commands := t.commands ++ [(position + 1, activate)] })

/-! ## Subframe boundaries -/

/-- Ends the transition of a link whose activation element has left the queue. -/
def completeTransition (ceQueued : Bool) (l : Link) : Link :=
  if ceQueued then l
  else
    match l.state with
    | .activating => { l with state := .active }
    | .deactivating => { l.resetHarq with state := .idle }
    | .idle | .active => l

/-- Starts a transition, if the command asks for one. -/
def startTransition (activate : Bool) (l : Link) : Option Link :=
  match activate, l.state with
  | true, .idle => some { l with state := .activating }
  | false, .active | false, .activating => some { l with state := .deactivating }
  | _, _ => none

/-- Carries out activation commands; tells whether any transition started. -/
def runCommands : List Link → List (Nat × Bool) → Bool × List Link
  | links, [] => (false, links)
  | links, (position, activate) :: rest =>
      match (links[position]?).bind (startTransition activate) with
      | none => runCommands links rest
      | some l => (true, (runCommands (links.set position l) rest).2)

/-- The secondary carriers that are active or about to be, one bit each. -/
def activationBitmap (links : List Link) : Nat :=
  links.foldl
    (fun bitmap l ↦
      if 0 < l.position ∧ (l.state = .active ∨ l.state = .activating) then
        bitmap ||| 1 <<< min l.position 7
      else bitmap)
    0

/-- Moves the links to reception point `now` and counts the blocks given up. -/
def advanceLinks (now : Tti) : Channels → List Link → Channels × List Link
  | c, [] => (c, [])
  | c, l :: links =>
      let (dropped, l) := l.newTti now
      let c := dropped.foldl (fun c (dir, d) ↦ c.recordFailure d.tbs dir) c
      let (c, links) := advanceLinks now c links
      (c, l :: links)

/-- The boundary of reception point `now`; a second call for the same point
changes nothing. -/
def newTti (t : Terminal) (now : Tti) (pools : PucchPools) : Terminal × PucchPools :=
  if t.lastTti = some now then (t, pools)
  else
    let ceQueued := t.channels.ces.any MacCe.isScellActivation
    let (changed, links) := runCommands (t.links.map (completeTransition ceQueued)) t.commands
    let channels :=
      if changed then t.channels.pushCe (.scellActivation (activationBitmap links))
      else t.channels
    let (channels, links) := advanceLinks now channels links
    { t with links, channels, commands := [], lastTti := some now }.retryLeases pools

end Terminal

end MacScheduler
