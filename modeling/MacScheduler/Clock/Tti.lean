/-!
# The transmission clock

Subframes are numbered on a clock of 1024 radio frames of ten subframes each,
so a point of the clock is a residue modulo 10240.  The distance between two
points is signed and takes the shorter way round, which orders the points of
any window shorter than half a turn.

Feedback and grants follow fixed delays: what is decided at reception point
`t` is sent downlink at `t + 4` and uplink at `t + 8`, and feedback received
at `t` answers the downlink transmission of `t - 4`.
-/

namespace MacScheduler

structure Tti where
  index : Nat
  index_lt : index < 10240
deriving DecidableEq

namespace Tti

def period : Nat := 10240

/-- Subframes between a transmission and its feedback. -/
def feedbackDelay : Nat := 4

/-- The point reached `n` subframes after the origin. -/
def ofNat (n : Nat) : Tti :=
  ⟨n % period, Nat.mod_lt n (by decide)⟩

instance : Inhabited Tti := ⟨ofNat 0⟩

@[simp] theorem index_ofNat (n : Nat) : (ofNat n).index = n % 10240 := rfl

def subframe (t : Tti) : Nat := t.index % 10

def frame (t : Tti) : Nat := t.index / 10

/-- Signed distance from `b` to `a`, the shorter way round. -/
def diff (a b : Tti) : Int :=
  ((a.index : Int) - b.index + 5120) % 10240 - 5120

def isAfter (a b : Tti) : Bool := decide (0 < a.diff b)

def isBefore (a b : Tti) : Bool := decide (a.diff b < 0)

instance : HAdd Tti Nat Tti :=
  ⟨fun t n ↦ ofNat (t.index + n % period)⟩

instance : HSub Tti Nat Tti :=
  ⟨fun t n ↦ ofNat (t.index + period - n % period)⟩

theorem index_add (t : Tti) (n : Nat) : (t + n).index = (t.index + n) % 10240 := by
  change (t.index + n % 10240) % 10240 = _
  omega

theorem index_sub (t : Tti) (n : Nat) :
    (t - n).index = (t.index + 10240 - n % 10240) % 10240 := rfl

theorem diff_lower (a b : Tti) : -5120 ≤ a.diff b := by
  unfold diff
  omega

theorem diff_upper (a b : Tti) : a.diff b ≤ 5119 := by
  unfold diff
  omega

@[simp] theorem diff_self (a : Tti) : a.diff a = 0 := by
  unfold diff
  omega

/-- When the downlink decided at reception point `t` is sent. -/
def downlinkTx (t : Tti) : Tti := t + feedbackDelay

/-- When the uplink granted at reception point `t` is sent. -/
def uplinkTx (t : Tti) : Tti := t + 2 * feedbackDelay

/-- The downlink transmission that feedback received at `t` answers. -/
def acknowledgedTx (t : Tti) : Tti := t - feedbackDelay

def text (t : Tti) : String := s!"{t.frame}.{t.subframe}"

end Tti

end MacScheduler
