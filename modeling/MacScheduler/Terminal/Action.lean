import MacScheduler.Terminal.Report

/-!
# Actions on a terminal

Everything that concerns one terminal and no pool, as data: bearer and
activation commands, reports, feedback, power commands, and edits of the
contents of downlink blocks.
-/

namespace MacScheduler.Terminal

/-- Edits the contents of a downlink block on a carrier. -/
def editBuffer (t : Terminal) (carrier pid tb : Nat) (edit : ByteArray → ByteArray) :
    Except SchedError Unit × Terminal :=
  match t.link? carrier with
  | none => (.error (.invalidCarrier carrier), t)
  | some l =>
      let (r, l) := l.editBuffer pid tb edit
      (r.mapError .harq, t.putLink carrier l)

inductive Action where
  | configureBearer (lcid : Nat) (b : Bearer)
  | removeBearer (lcid : Nat)
  | requestActivation (carrier : Nat) (activate : Bool)
  | reportDownlink (lcid fresh repeated : Nat)
  | pushCe (ce : MacCe)
  | reportUplink (lcg bytes : Nat)
  | reportHeadroom (headroom : Int)
  | requestUplink
  | reportChannel (received : Tti) (carrier : Nat) (m : Measure)
  | acknowledgeDownlink (received : Tti) (carrier tb : Nat) (ack : Bool)
  | acknowledgeUplink (received : Tti) (carrier : Nat) (ack : Bool)
  | raisePower (dir : Direction)
  | lowerPower (dir : Direction)
  | editBuffer (carrier pid tb : Nat) (edit : ByteArray → ByteArray)

/-- What an action answers when it is not refused. -/
inductive Answer where
  | done
  | outcome (o : AckOutcome)
deriving DecidableEq

/-- A report that is not taken names an unknown channel or group. -/
def taken (index : Nat) : Bool × Terminal → Except SchedError Answer × Terminal
  | (true, t) => (.ok .done, t)
  | (false, t) => (.error (.bearer (.invalidLcid index)), t)

def perform (t : Terminal) : Action → Except SchedError Answer × Terminal
  | .configureBearer lcid b =>
      let (r, t) := t.configureBearer lcid b
      (r.map fun _ ↦ .done, t)
  | .removeBearer lcid =>
      let (r, t) := t.removeBearer lcid
      (r.map fun _ ↦ .done, t)
  | .requestActivation carrier activate =>
      let (r, t) := t.requestActivation carrier activate
      (r.map fun _ ↦ .done, t)
  | .reportDownlink lcid fresh repeated => taken lcid (t.reportDownlink lcid fresh repeated)
  | .pushCe ce => (.ok .done, t.pushCe ce)
  | .reportUplink lcg bytes => taken lcg (t.reportUplink lcg bytes)
  | .reportHeadroom headroom => (.ok .done, t.reportHeadroom headroom)
  | .requestUplink => (.ok .done, t.requestUplink)
  | .reportChannel received carrier m =>
      let (r, t) := t.reportChannel received carrier m
      (r.map fun _ ↦ .done, t)
  | .acknowledgeDownlink received carrier tb ack =>
      let (r, t) := t.acknowledgeDownlink received carrier tb ack
      (r.map .outcome, t)
  | .acknowledgeUplink received carrier ack =>
      let (r, t) := t.acknowledgeUplink received carrier ack
      (r.map .outcome, t)
  | .raisePower dir => (.ok .done, t.raisePower dir)
  | .lowerPower dir => (.ok .done, t.lowerPower dir)
  | .editBuffer carrier pid tb edit =>
      let (r, t) := t.editBuffer carrier pid tb edit
      (r.map fun _ ↦ .done, t)

end MacScheduler.Terminal
