import MacScheduler.Buffer.Bearer
import MacScheduler.Count
import MacScheduler.Link.Direction

/-!
# Logical channel buffers

A terminal's buffers are known by the last report of each: downlink bytes per
bearer, new and to be repeated, uplink bytes per group.  A granted block takes
from them what it carries.  Downlink blocks are filled with control elements in
the order queued and then with bearers by priority, bytes to be repeated first.
-/

namespace MacScheduler

/-- A logical channel and the downlink bytes it waits to send. -/
structure Channel where
  bearer : Option Bearer := none
  fresh : Nat := 0
  repeated : Nat := 0
deriving DecidableEq

namespace Channel

def downlinkBytes (c : Channel) : Nat :=
  if c.bearer.any fun b ↦ b.direction.hasDownlink then wrap (c.fresh + c.repeated) else 0

/-- Takes up to `room` bytes, those to be repeated first. -/
def take (c : Channel) (room : Nat) : Nat × Channel :=
  let repeated := min c.repeated room
  let fresh := min c.fresh (room - repeated)
  (repeated + fresh, { c with fresh := c.fresh - fresh, repeated := c.repeated - repeated })

end Channel

/-- The buffers of a terminal, with counts of the blocks lost in each direction. -/
structure Channels where
  channels : List Channel := List.replicate nofLcids {}
  /-- Uplink bytes reported per group. -/
  groups : List Nat := List.replicate nofLcgs 0
  /-- Control elements waiting, the next one first. -/
  ces : List MacCe := []
  dlFailures : Nat := 0
  ulFailures : Nat := 0
  dlDroppedBytes : Nat := 0
deriving DecidableEq

namespace Channels

def channel (c : Channels) (lcid : Nat) : Channel := c.channels.getD lcid {}

/-- Binds a bearer to a logical channel; what the channel has buffered stays. -/
def configure (c : Channels) (lcid : Nat) (b : Bearer) : Except BearerError Unit × Channels :=
  match b.check lcid with
  | .error e => (.error e, c)
  | .ok () =>
      (.ok (), { c with channels := c.channels.set lcid { c.channel lcid with bearer := some b } })

def remove (c : Channels) (lcid : Nat) : Except BearerError Unit × Channels :=
  if lcid < c.channels.length then (.ok (), { c with channels := c.channels.set lcid {} })
  else (.error (.invalidLcid lcid), c)

def isConfigured (c : Channels) (lcid : Nat) : Bool := (c.channel lcid).bearer.isSome

/-- Takes over a downlink buffer report; refused where no bearer carries downlink. -/
def reportDownlink (c : Channels) (lcid fresh repeated : Nat) : Bool × Channels :=
  let ch := c.channel lcid
  if ch.bearer.any fun b ↦ b.direction.hasDownlink then
    (true, { c with channels := c.channels.set lcid { ch with fresh, repeated } })
  else (false, c)

def reportUplink (c : Channels) (lcg bytes : Nat) : Bool × Channels :=
  if lcg < c.groups.length then (true, { c with groups := c.groups.set lcg bytes })
  else (false, c)

def pushCe (c : Channels) (ce : MacCe) : Channels := { c with ces := c.ces ++ [ce] }

def buffered? (c : Channels) (lcid : Nat) : Option (Nat × Nat) :=
  (c.channels[lcid]?).map fun ch ↦ (ch.fresh, ch.repeated)

/-- Bytes that empty a channel's downlink buffer, its subheader included. -/
def channelDemand (ch : Channel) : Nat :=
  if ch.downlinkBytes = 0 then 0 else ch.downlinkBytes + rlcSubheader

def downlinkPending (c : Channels) : Nat :=
  wrap (total (c.ces.map MacCe.size) + total (c.channels.map channelDemand))

def uplinkPending (c : Channels) : Nat := wrap (total c.groups)

/-- Splits off the control elements that fit into `room` bytes, in order; gives
them, the room left and the elements left. -/
def takeCes : Nat → List MacCe → List MacCe × Nat × List MacCe
  | room, [] => ([], room, [])
  | room, ce :: ces =>
      if room < ce.size then ([], room, ce :: ces)
      else
        let (taken, room, left) := takeCes (room - ce.size) ces
        (ce :: taken, room, left)

def servedBefore (c : Channels) (a b : Nat) : Bool :=
  let priority := fun lcid ↦ ((c.channel lcid).bearer.map Bearer.priority).getD maxCount
  decide (priority a < priority b) || decide (priority a = priority b) && decide (a ≤ b)

/-- The channels with downlink bytes, by priority and then by index. -/
def serviceOrder (c : Channels) : List Nat :=
  ((List.range c.channels.length).filter fun lcid ↦
    decide (0 < (c.channel lcid).downlinkBytes)).mergeSort c.servedBefore

/-- Serves channels in the order given while more than a subheader is left. -/
def serve (c : Channels) : Nat → List Nat → List DlPdu × Channels
  | _, [] => ([], c)
  | room, lcid :: lcids =>
      if room ≤ rlcSubheader then ([], c)
      else
        let (nbytes, ch) := (c.channel lcid).take (room - rlcSubheader)
        let (pdus, c) := serve { c with channels := c.channels.set lcid ch }
          (room - (nbytes + rlcSubheader)) lcids
        (.rlc lcid nbytes :: pdus, c)

def fill (c : Channels) (tbs : Nat) : List DlPdu × Channels :=
  let (ces, room, left) := takeCes tbs c.ces
  let (pdus, c) := { c with ces := left }.serve room c.serviceOrder
  (ces.map .ce ++ pdus, c)

/-- What a grant of `bytes` leaves of the group reports, lowest group first. -/
def drain : Nat → List Nat → List Nat
  | _, [] => []
  | bytes, group :: groups => (group - bytes) :: drain (bytes - group) groups

def grantUplink (c : Channels) (bytes : Nat) : Channels :=
  { c with groups := drain bytes c.groups }

def recordFailure (c : Channels) (bytes : Nat) : Direction → Channels
  | .downlink =>
      { c with dlFailures := c.dlFailures + 1, dlDroppedBytes := c.dlDroppedBytes + bytes }
  | .uplink => { c with ulFailures := c.ulFailures + 1 }

end Channels

end MacScheduler
