/-!
# Directions and terminals

A grant, a process table or a policy average belongs to one of the two
directions.  Terminals are known by a scheduling identifier that orders every
list of them.
-/

namespace MacScheduler

inductive Direction where
  | downlink
  | uplink
deriving DecidableEq, Repr

def Direction.name : Direction → String
  | downlink => "dl"
  | uplink => "ul"

/-- The scheduling identifier of a terminal. -/
structure Rnti where
  val : Nat
deriving DecidableEq, Repr

namespace Rnti

/-- Hexadecimal, in lower case, after `0x`. -/
def text (r : Rnti) : String :=
  "0x" ++ String.ofList (Nat.toDigits 16 r.val)

end Rnti

end MacScheduler
