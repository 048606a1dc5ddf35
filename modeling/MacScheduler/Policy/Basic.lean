import MacScheduler.Clock.Tti
import MacScheduler.Config.Basic
import MacScheduler.Policy.Candidate

/-!
# Allocation policies

A policy puts the candidates of a pass into the order in which they are served
and is told afterwards what each was granted.  Rotation starts with another
terminal every subframe; proportional fairness prefers the terminal whose
achievable rate is highest relative to its averaged throughput.
-/

namespace MacScheduler

structure ServiceKey where
  rnti : Rnti
  carrier : Nat
  dir : Direction
deriving DecidableEq

/-- Averaged throughput of the terminals served so far. -/
abbrev Averages := List (ServiceKey × Float)

namespace Averages

def get : Averages → ServiceKey → Float
  | [], _ => 0
  | (k, x) :: rest, key => if k = key then x else get rest key

def set : Averages → ServiceKey → Float → Averages
  | [], key, x => [(key, x)]
  | (k, y) :: rest, key, x => if k = key then (k, x) :: rest else (k, y) :: set rest key x

theorem get_set (averages : Averages) (key k : ServiceKey) (x : Float) :
    (averages.set key x).get k = if key = k then x else averages.get k := by
  induction averages with
  | nil => rfl
  | cons entry rest ih =>
      obtain ⟨k', y⟩ := entry
      by_cases hkey : k' = key
      · subst hkey
        by_cases hk : k' = k <;> simp [set, get, hk]
      · by_cases hk : k' = k
        · subst hk
          simp [set, get, hkey, Ne.symm hkey]
        · simp [set, get, hkey, hk, ih]

end Averages

inductive Policy where
  | roundRobin
  /-- `weight` is the share of the newest sample in an average. -/
  | proportionalFair (weight : Float) (averages : Averages)

namespace Policy

/-- Candidates by ascending terminal, beginning with another one every subframe. -/
def rotate (t : Tti) (candidates : List Candidate) : List Candidate :=
  (candidates.mergeSort fun a b ↦ decide (a.rnti.val ≤ b.rnti.val)).rotateLeft
    (t.index % candidates.length)

/-- Achievable rate over averaged throughput, which counts as at least one byte. -/
def fairRatio (averages : Averages) (carrier : Nat) (dir : Direction) (c : Candidate) : Float :=
  let served := averages.get ⟨c.rnti, carrier, dir⟩
  c.bytesPerUnit / (if 1 < served then served else 1)

/-- Whether `a` is at least as deserving as `b`: by ratio, then by terminal. -/
def fairBefore (averages : Averages) (carrier : Nat) (dir : Direction) (a b : Candidate) : Bool :=
  let x := floatRank (fairRatio averages carrier dir a)
  let y := floatRank (fairRatio averages carrier dir b)
  decide (y < x) || decide (x = y) && decide (a.rnti.val ≤ b.rnti.val)

/-- Proportional fairness without history; the weight is kept between the
smallest step above one and one. -/
def fair (weight : Float) : Policy :=
  let epsilon : Float := Float.ofScientific 2220446049250313 true 31
  .proportionalFair (if weight < epsilon then epsilon else if 1 < weight then 1 else weight) []

def ofConfig (c : PolicyConfig) : Policy :=
  match c.kind with
  | .roundRobin => .roundRobin
  | .proportionalFair => fair c.weight

def kind : Policy → PolicyKind
  | roundRobin => .roundRobin
  | proportionalFair _ _ => .proportionalFair

def average? : Policy → ServiceKey → Option Float
  | roundRobin, _ => none
  | proportionalFair _ averages, key => some (averages.get key)

def prioritize (p : Policy) (t : Tti) (carrier : Nat) (dir : Direction)
    (candidates : List Candidate) : List Candidate :=
  match p with
  | roundRobin => rotate t candidates
  | proportionalFair _ averages => candidates.mergeSort (fairBefore averages carrier dir)

/-- Takes in the bytes granted to each candidate of a pass. -/
def record (p : Policy) (carrier : Nat) (dir : Direction) (served : List (Rnti × Nat)) : Policy :=
  match p with
  | roundRobin => .roundRobin
  | proportionalFair weight averages =>
      .proportionalFair weight <|
        served.foldl
          (fun averages (rnti, bytes) ↦
            let key : ServiceKey := ⟨rnti, carrier, dir⟩
            averages.set key ((1 - weight) * averages.get key + weight * Float.ofNat bytes))
          averages

def forget (p : Policy) (rnti : Rnti) : Policy :=
  match p with
  | roundRobin => .roundRobin
  | proportionalFair weight averages =>
      .proportionalFair weight (averages.filter fun (key, _) ↦ decide (key.rnti ≠ rnti))

end Policy

end MacScheduler
