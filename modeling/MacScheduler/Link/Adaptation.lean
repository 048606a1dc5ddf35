import MacScheduler.Grid.Rbg
import MacScheduler.Link.Direction

/-!
# Link adaptation tables

Channel quality decides the modulation and coding scheme, the scheme and the
number of resource blocks decide the size of a transport block, and channel
quality again decides how many control elements carry a grant.  Thresholds in
decibels and code rates are compared in single precision.
-/

namespace MacScheduler

def maxMcs : Nat := 28

def maxCqi : Nat := 15

/-- Bits of the largest single-layer transport block. -/
def maxTbsBits : Nat := 75376

def cqiMcsTable : List Nat :=
  [0, 0, 1, 3, 5, 7, 9, 11, 13, 15, 17, 19, 21, 23, 25, 27]

/-- Bits per resource element at each channel quality index. -/
def cqiEfficiencyTable : List Float32 :=
  [0.0, 0.1523, 0.2344, 0.3770, 0.6016, 0.8770, 1.1758, 1.4766, 1.9141, 2.4063, 2.7305,
    3.3223, 3.9023, 4.5234, 5.1152, 5.5547]

/-- Transport block bits per resource block at each size index. -/
def tbsPerPrbTable : List Nat :=
  [16, 24, 32, 40, 56, 72, 88, 104, 120, 136, 144, 176, 208, 224, 256, 280, 328, 336, 376, 408,
    440, 488, 520, 552, 584, 616, 712]

def snrThresholds : List Float32 :=
  [-6.7, -4.7, -2.3, 0.2, 2.4, 4.3, 5.9, 8.1, 10.3, 11.7, 14.1, 16.3, 18.7, 21.0, 22.7]

def cqiToMcs (cqi : Nat) : Nat := cqiMcsTable.getD (min cqi maxCqi) 0

/-- The thresholds reached before the first one missed; no number reaches none. -/
def snrToCqi (snr : Float32) : Nat :=
  (snrThresholds.takeWhile fun threshold ↦ decide (threshold ≤ snr)).length

def mcsToItbs (mcs : Nat) (dir : Direction) : Nat :=
  let mcs := min mcs maxMcs
  match dir with
  | .downlink => if mcs ≤ 9 then mcs else if mcs ≤ 16 then mcs - 1 else mcs - 2
  | .uplink => if mcs ≤ 10 then mcs else if mcs ≤ 20 then mcs - 1 else mcs - 2

/-- Bytes of a transport block on `nofPrb` resource blocks. -/
def tbsBytes (mcs nofPrb : Nat) (dir : Direction) : Nat :=
  min (tbsPerPrbTable.getD (mcsToItbs mcs dir) 0 * nofPrb) maxTbsBits / 8

/-- The lowest scheme up to `cap` whose block holds `bytes`, or the cap itself
when none does. -/
def minMcsForBytes (bytes nofPrb cap : Nat) (dir : Direction) : Nat :=
  let cap := min cap maxMcs
  ((List.range (cap + 1)).find? fun mcs ↦ decide (bytes ≤ tbsBytes mcs nofPrb dir)).getD cap

/-- Approximate payload of a grant message on a carrier of `nofPrb` blocks. -/
def dciBits (nofPrb : Nat) : Nat := 15 + nofRbgs nofPrb

/-- Code rate of a payload of `bits` with its 16 check bits on the
control elements of a level, of 72 bits each. -/
def dciCodeRate (bits level : Nat) : Float32 :=
  (bits + 16).toUInt32.toFloat32 / ((72 : UInt32) <<< level.toUInt32).toFloat32

/-- Highest code rate accepted at a channel quality: half its efficiency, and
at most three quarters. -/
def maxCodeRate (cqi : Nat) : Float32 :=
  let half := cqiEfficiencyTable.getD (min cqi maxCqi) 0 / 2
  if half < 0.75 then half else 0.75

/-- The lowest aggregation level up to `cap` whose code rate is accepted, or the
cap itself when none is.  A level has to fit the width of a word. -/
def aggrLevelForCqi (cqi bits cap : Nat) : Nat :=
  ((List.range (min cap 31 + 1)).find? fun level ↦
    decide (dciCodeRate bits level ≤ maxCodeRate cqi)).getD cap

end MacScheduler
