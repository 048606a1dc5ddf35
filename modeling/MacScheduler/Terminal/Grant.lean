import MacScheduler.Buffer.Bearer
import MacScheduler.Control.Dci
import MacScheduler.Grid.Prb
import MacScheduler.Grid.Rbg
import MacScheduler.Harq.Block
import MacScheduler.Link.Direction

/-!
# Grants

A grant tells a terminal where, when and on which process it sends or receives,
and describes each transport block.  A downlink grant also lists what the blocks
carry.
-/

namespace MacScheduler

structure DlGrant where
  rnti : Rnti
  carrier : Nat
  txTti : Tti
  mask : RbgMask
  nofPrb : Nat
  dci : DciLocation
  pid : Nat
  tbs : List TbGrant
  /-- Power command for the control channel. -/
  tpc : Int
  pdus : List DlPdu
deriving DecidableEq

namespace DlGrant

def totalBytes (g : DlGrant) : Nat := grantedBytes g.tbs

def isRetx (g : DlGrant) : Bool := g.tbs.any (·.isRetx)

end DlGrant

structure UlGrant where
  rnti : Rnti
  carrier : Nat
  txTti : Tti
  interval : PrbInterval
  /-- Absent for a retransmission on the same resource blocks. -/
  dci : Option DciLocation
  pid : Nat
  tb : TbGrant
  /-- Power command for the data channel. -/
  tpc : Int
  cqiRequest : Bool
deriving DecidableEq

inductive GrantError where
  | carrierInactive (index : Nat)
  | zeroTbs
  | noHarq
  | sizeMismatch (expected got : Nat)
deriving DecidableEq

def GrantError.message : GrantError → String
  | carrierInactive index => s!"carrier {index} is not active for this terminal"
  | zeroTbs => "computed transport block size is zero"
  | noHarq => "no HARQ process available"
  | sizeMismatch expected got => s!"retransmission needs {expected} resource units, got {got}"

end MacScheduler
