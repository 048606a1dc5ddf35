import MacScheduler.Terminal.Basic

/-!
# Reports

What a terminal and the physical layer report: buffers, power headroom,
scheduling requests, channel quality, and the outcome of transmissions.  Each
report changes what it concerns and nothing else.
-/

namespace MacScheduler.Terminal

/-- A downlink buffer report; refused where no bearer carries downlink. -/
def reportDownlink (t : Terminal) (lcid fresh repeated : Nat) : Bool × Terminal :=
  let (taken, channels) := t.channels.reportDownlink lcid fresh repeated
  (taken, { t with channels })

def reportUplink (t : Terminal) (lcg bytes : Nat) : Bool × Terminal :=
  let (taken, channels) := t.channels.reportUplink lcg bytes
  (taken, { t with channels })

def pushCe (t : Terminal) (ce : MacCe) : Terminal :=
  { t with channels := t.channels.pushCe ce }

def reportHeadroom (t : Terminal) (headroom : Int) : Terminal :=
  { t with headroom := some headroom }

def requestUplink (t : Terminal) : Terminal := { t with srPending := true }

def withdrawRequest (t : Terminal) : Terminal := { t with srPending := false }

def updateLink (t : Terminal) (carrier : Nat) (f : Link → Link) :
    Except SchedError Unit × Terminal :=
  match t.link? carrier with
  | none => (.error (.invalidCarrier carrier), t)
  | some l => (.ok (), t.putLink carrier (f l))

/-- What a channel report measures. -/
inductive Measure where
  | cqi (value : Nat)
  | precoding (value : Nat)
  | rank (value : Nat)
  /-- Uplink signal-to-noise ratio, kept as a quality index. -/
  | snr (decibel : Float32)

def Measure.record (m : Measure) (received : Tti) (l : Link) : Link :=
  match m with
  | .cqi value => { l with dlCqi := some ⟨value, received⟩ }
  | .precoding value => { l with dlPmi := some ⟨value, received⟩ }
  | .rank value => { l with dlRi := some ⟨value, received⟩ }
  | .snr decibel => { l with ulCqi := some ⟨snrToCqi decibel, received⟩ }

def reportChannel (t : Terminal) (received : Tti) (carrier : Nat) (m : Measure) :
    Except SchedError Unit × Terminal :=
  t.updateLink carrier (m.record received)

/-- Downlink feedback received at `received`, for the blocks sent a feedback delay before. -/
def acknowledgeDownlink (t : Terminal) (received : Tti) (carrier tb : Nat) (ack : Bool) :
    Except SchedError AckOutcome × Terminal :=
  match t.link? carrier with
  | none => (.error (.invalidCarrier carrier), t)
  | some l =>
      match l.dl.sentAt? received.acknowledgedTx with
      | none => (.error (.harq (.notActive maxCount tb)), t)
      | some pid =>
          let (outcome, dl) := l.dl.setAck pid tb ack
          (outcome.mapError .harq, t.putLink carrier { l with dl })

/-- The outcome of the uplink block received at `received`. -/
def acknowledgeUplink (t : Terminal) (received : Tti) (carrier : Nat) (ack : Bool) :
    Except SchedError AckOutcome × Terminal :=
  match t.link? carrier with
  | none => (.error (.invalidCarrier carrier), t)
  | some l =>
      match l.ul.sentAt? received with
      | none => (.error (.harq (.notActive maxCount 0)), t)
      | some pid =>
          let (outcome, ul) := l.ul.setAck pid 0 ack
          (outcome.mapError .harq, t.putLink carrier { l with ul })

/-- Raises the power command of a direction by one step, up to three. -/
def raisePower (t : Terminal) : Direction → Terminal
  | .downlink => { t with tpcDl := min (t.tpcDl + 1) 3 }
  | .uplink => { t with tpcUl := min (t.tpcUl + 1) 3 }

/-- Lowers the power command of a direction by one step, down to minus one. -/
def lowerPower (t : Terminal) : Direction → Terminal
  | .downlink => { t with tpcDl := max (t.tpcDl - 1) (-1) }
  | .uplink => { t with tpcUl := max (t.tpcUl - 1) (-1) }

end MacScheduler.Terminal
