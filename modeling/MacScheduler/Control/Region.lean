import MacScheduler.Control.Dci
import MacScheduler.Grid.Bits
import MacScheduler.Link.Direction

/-!
# The control region

The grant messages of one subframe share the control elements of its region.
A request is served by the first of its candidates that lies inside the region
and touches no element already taken; a message can be taken back.
-/

namespace MacScheduler

structure DciAlloc where
  rnti : Rnti
  dir : Direction
  loc : DciLocation
deriving DecidableEq

/-- A terminal asking for a place, with its candidates in the order tried. -/
structure DciRequest where
  rnti : Rnti
  dir : Direction
  level : Nat
  candidates : List Nat

/-- The messages placed in a region of `size` control elements, and the elements
they take. -/
structure ControlRegion where
  size : Nat
  used : BitVec 128
  allocs : List DciAlloc

namespace ControlRegion

def maxSize : Nat := 128

def empty (size : Nat) : ControlRegion := ⟨min size maxSize, 0, []⟩

def nofUsed (r : ControlRegion) : Nat := Bits.count r.used

/-- The elements of a message, as far as the word of the region goes: the bit of the first
one wraps around. -/
def elements (loc : DciLocation) : BitVec 128 :=
  Bits.span 128 (loc.first % 128) loc.size

def fits (r : ControlRegion) (loc : DciLocation) : Bool :=
  decide (loc.level ≤ maxAggrLevel) && decide (loc.stop ≤ r.size) &&
    (r.used &&& elements loc == 0)

def place? (r : ControlRegion) (level : Nat) (candidates : List Nat) : Option DciLocation :=
  (candidates.map fun first ↦ ⟨first, level⟩).find? r.fits

/-- Takes the first candidate that fits; the region is unchanged when none does. -/
def alloc (r : ControlRegion) (rnti : Rnti) (dir : Direction) (level : Nat)
    (candidates : List Nat) : Option DciLocation × ControlRegion :=
  match r.place? level candidates with
  | none => (none, r)
  | some loc =>
      (some loc,
        { r with used := r.used ||| elements loc, allocs := r.allocs ++ [⟨rnti, dir, loc⟩] })

/-- Frees the oldest message of a terminal and direction, if there is one. -/
def rollback (r : ControlRegion) (rnti : Rnti) (dir : Direction) : Bool × ControlRegion :=
  let owned : DciAlloc → Bool := fun a ↦ decide (a.rnti = rnti) && decide (a.dir = dir)
  match r.allocs.find? owned with
  | none => (false, r)
  | some a =>
      (true, { r with used := r.used &&& ~~~ elements a.loc, allocs := r.allocs.eraseP owned })

/-- Requests are served by ascending terminal, downlink first. -/
def servedBefore (a b : DciRequest) : Bool :=
  decide (a.rnti.val < b.rnti.val) ||
    decide (a.rnti = b.rnti) && (decide (a.dir = .downlink) || decide (b.dir = .uplink))

def allocAll (r : ControlRegion) :
    List DciRequest → List (DciRequest × Option DciLocation) × ControlRegion
  | [] => ([], r)
  | q :: qs =>
      let (loc, r) := r.alloc q.rnti q.dir q.level q.candidates
      let (rest, r) := allocAll r qs
      ((q, loc) :: rest, r)

/-- Serves requests by ascending terminal, downlink before uplink. -/
def allocBatch (r : ControlRegion) (requests : List DciRequest) :
    List (DciRequest × Option DciLocation) × ControlRegion :=
  r.allocAll (requests.mergeSort servedBefore)

end ControlRegion

end MacScheduler
