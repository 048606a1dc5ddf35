/-!
# Bearers and protocol data units

A bearer gives a logical channel its direction, its priority and the group in
which its uplink buffer is reported.  Downlink blocks carry control elements
first and then units of the bearers.
-/

namespace MacScheduler

def nofLcids : Nat := 11

/-- Groups in which uplink buffers are reported. -/
def nofLcgs : Nat := 4

inductive BearerDirection where
  | idle
  | uplink
  | downlink
  | both
deriving DecidableEq

namespace BearerDirection

def hasDownlink : BearerDirection → Bool
  | downlink | both => true
  | idle | uplink => false

def hasUplink : BearerDirection → Bool
  | uplink | both => true
  | idle | downlink => false

def name : BearerDirection → String
  | idle => "idle"
  | uplink => "ul"
  | downlink => "dl"
  | both => "both"

def ofName? (s : String) : Option BearerDirection :=
  [idle, uplink, downlink, both].find? fun d ↦ decide (d.name = s)

end BearerDirection

structure Bearer where
  direction : BearerDirection
  /-- Lower values are served first. -/
  priority : Nat
  /-- Group of the uplink buffer reports. -/
  lcg : Nat
deriving DecidableEq

inductive BearerError where
  | invalidLcid (lcid : Nat)
  | unsupportedDirection (lcid : Nat)
deriving DecidableEq

def BearerError.message : BearerError → String
  | invalidLcid lcid => s!"invalid logical channel id {lcid}"
  | unsupportedDirection lcid => s!"unsupported bearer direction for lcid {lcid}"

/-- The highest channel for signalling, which has to carry traffic both ways. -/
def maxSignallingLcid : Nat := 2

def Bearer.check (b : Bearer) (lcid : Nat) : Except BearerError Unit :=
  if nofLcids ≤ lcid ∨ nofLcgs ≤ b.lcg then .error (.invalidLcid lcid)
  else
    match b.direction with
    | .idle => .error (.unsupportedDirection lcid)
    | .both => .ok ()
    | .uplink | .downlink =>
        if lcid ≤ maxSignallingLcid then .error (.unsupportedDirection lcid) else .ok ()

/-- A control element of the medium access layer. -/
inductive MacCe where
  | timingAdvance (command : Nat)
  /-- The active secondary carriers, bit `i` for the carrier at position `i`. -/
  | scellActivation (bitmap : Nat)
deriving DecidableEq

namespace MacCe

def size (_ : MacCe) : Nat := 2

def isTimingAdvance : MacCe → Bool
  | timingAdvance _ => true
  | scellActivation _ => false

def isScellActivation : MacCe → Bool
  | timingAdvance _ => false
  | scellActivation _ => true

end MacCe

def rlcSubheader : Nat := 3

inductive DlPdu where
  | ce (element : MacCe)
  | rlc (lcid nbytes : Nat)
deriving DecidableEq

def DlPdu.size : DlPdu → Nat
  | ce element => element.size
  | rlc _ nbytes => nbytes + rlcSubheader

end MacScheduler
