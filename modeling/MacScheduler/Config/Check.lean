import MacScheduler.Config.Basic
import MacScheduler.Count

/-!
# Configuration checks

A configuration is accepted when it breaks no rule.  Every field has its own
rule; a rule that relates several fields of a section is looked at only when
each field of the section is in order, and only the first such rule that is
broken is reported.
-/

namespace MacScheduler

inductive ConfigRule where
  | range
  | length
  | invalidNofPrb
  | nrbPucchExceedsBandwidth
  | invalidSrPeriod
  | invalidCqiPeriod
  | srOffsetsTooShort
  | cqiOffsetsTooShort
  | srOffsetsOutOfRange
  | cqiOffsetsOutOfRange
deriving DecidableEq

def ConfigRule.code : ConfigRule → String
  | range => "range"
  | length => "length"
  | invalidNofPrb => "invalid_nof_prb"
  | nrbPucchExceedsBandwidth => "nrb_pucch_exceeds_bandwidth"
  | invalidSrPeriod => "invalid_sr_period"
  | invalidCqiPeriod => "invalid_cqi_period"
  | srOffsetsTooShort => "sr_sf_mapping_too_short"
  | cqiOffsetsTooShort => "cqi_sf_mapping_too_short"
  | srOffsetsOutOfRange => "sr_sf_mapping_out_of_range"
  | cqiOffsetsOutOfRange => "cqi_sf_mapping_out_of_range"

structure Violation where
  path : String
  rule : ConfigRule
deriving DecidableEq

def Violation.text (v : Violation) : String := v.path ++ ":" ++ v.rule.code

namespace Violation

/-- The violation of `rule` at a field, unless the field is in order. -/
def require (ok : Bool) (field : String) (rule : ConfigRule) : List Violation :=
  if ok then [] else [⟨field, rule⟩]

/-- The same violations seen from an enclosing section. -/
def within (owner : String) (vs : List Violation) : List Violation :=
  vs.map fun v ↦ { v with path := owner ++ "." ++ v.path }

/-- Field violations, or the first broken rule of the whole section when the
fields are in order. -/
def orSection (fields : List Violation) (rule : Option ConfigRule) : List Violation :=
  if fields.isEmpty then (rule.map fun r ↦ ⟨"__all__", r⟩).toList else fields

end Violation

open Violation

def inRange (lo hi n : Nat) : Bool := decide (lo ≤ n) && decide (n ≤ hi)

/-- Bandwidths supported, in resource blocks. -/
def bandwidths : List Nat := [6, 15, 25, 50, 75, 100]

def CellConfig.violations (c : CellConfig) : List Violation :=
  orSection
    (require (bandwidths.contains c.nofPrb) "nof_prb" .invalidNofPrb ++
      require (inRange 1 3 c.cfi) "cfi" .range ++
      require (c.nofCce.all (inRange 1 88)) "nof_cce" .range ++
      require (inRange 0 28 c.maxMcsDl) "max_mcs_dl" .range ++
      require (inRange 0 28 c.maxMcsUl) "max_mcs_ul" .range ++
      require (inRange 1 3 c.deltaPucchShift) "delta_pucch_shift" .range)
    (if c.nofPrb ≤ wrap (2 * c.nrbPucch) then some .nrbPucchExceedsBandwidth else none)

def HarqConfig.violations (h : HarqConfig) : List Violation :=
  require (inRange 8 16 h.roundTrip) "round_trip_delay" .range ++
    require (inRange 1 28 h.maxRetx) "max_retx" .range

/-- The first broken rule that relates the fields of the pools: each mapping
covers its subframes, and its offsets fall inside the shortest period they may
be used with. -/
def PucchConfig.brokenRule (p : PucchConfig) : Option ConfigRule :=
  if p.sr.offsets.length < p.sr.nofSubframes then some .srOffsetsTooShort
  else if p.cqi.offsets.length < p.cqi.nofSubframes then some .cqiOffsetsTooShort
  else if p.sr.offsets.any (fun sf ↦ decide (5 ≤ sf)) then some .srOffsetsOutOfRange
  else if p.cqi.offsets.any (fun sf ↦ decide (p.cqi.period ≤ sf)) then some .cqiOffsetsOutOfRange
  else none

def PucchConfig.violations (p : PucchConfig) : List Violation :=
  orSection
    (require (inRange 1 4 p.sr.nofPrb) "sr_nof_prb" .range ++
      require (inRange 1 10 p.sr.nofSubframes) "sr_nof_subframes" .range ++
      require (isSrPeriod p.sr.period) "sr_period" .invalidSrPeriod ++
      require (inRange 1 4 p.cqi.nofPrb) "cqi_nof_prb" .range ++
      require (inRange 1 10 p.cqi.nofSubframes) "cqi_nof_subframes" .range ++
      require (isCqiPeriod p.cqi.period) "cqi_period" .invalidCqiPeriod)
    p.brokenRule

/-- The weight is positive and at most one; no other number passes. -/
def PolicyConfig.violations (p : PolicyConfig) : List Violation :=
  require (decide (0 < p.weight) && decide (p.weight ≤ 1)) "pf_ewma_coeff" .range

def TimingConfig.violations (t : TimingConfig) : List Violation :=
  require (t.deadline.all fun us ↦ decide (50 ≤ us)) "tti_deadline_us" .range ++
    require (inRange 1 5119 t.staleness) "cqi_staleness_ttis" .range ++
    require (inRange 0 28 t.fallbackMcs) "fallback_mcs" .range

/-- Violations of the carriers; a wrong number of carriers hides those inside. -/
def cellViolations (cells : List CellConfig) : List Violation :=
  if inRange 1 8 cells.length then
    (cells.mapIdx fun i c ↦ within s!"cells[{i}]" c.violations).flatten
  else [⟨"cells", .length⟩]

namespace Config

def violations (c : Config) : List Violation :=
  cellViolations c.cells ++ within "harq" c.harq.violations ++
    within "pucch" c.pucch.violations ++ within "policy" c.policy.violations ++
    within "timing" c.timing.violations

end Config

inductive ConfigError where
  /-- A document could not be read, or a field has a value of the wrong kind. -/
  | unreadable
  | invalid (violations : List Violation)
deriving DecidableEq

/-- One text per violation, in ascending order. -/
def ConfigError.codes : ConfigError → List String
  | unreadable => []
  | invalid vs => (vs.map Violation.text).mergeSort fun a b ↦ decide (a ≤ b)

namespace Config

def check (c : Config) : Except ConfigError Unit :=
  if c.violations.isEmpty then .ok () else .error (.invalid c.violations)

end Config

end MacScheduler
