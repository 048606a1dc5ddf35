import MacScheduler.Config.Check
import MacScheduler.Count
import MacScheduler.Document.Value

/-!
# Configurations as documents

Every configuration has a document that states all of its fields, and a
document denotes a configuration when each field it states has a value of the
right kind.  Absent fields take their defaults, unknown ones are ignored, and a
null is a value: it stands for absence only where a field is optional.  A list
may stand for a section and gives the fields in their order.
-/

namespace MacScheduler

/-- How a list that stands for a section may end: `exact` refuses more items than
the section has fields, and `lenient` ignores them. -/
inductive Arity where
  | exact
  | lenient
deriving DecidableEq

namespace Value

/-- The entries of a section whose fields have the given names. -/
def section? (arity : Arity) (names : List String) : Value → Option (List (String × Value))
  | .dict entries => some entries
  | .list items =>
      if arity = .exact ∧ names.length < items.length then none
      else some (names.zip items)
  | _ => none

/-- Reads a field, or gives the default when it is absent. -/
def field? {α : Type} (read : Value → Option α) (default : α) (name : String)
    (entries : List (String × Value)) : Option α :=
  match lookup name entries with
  | none => some default
  | some value => read value

def nat? (most : Nat) : Value → Option Nat
  | .int i => if 0 ≤ i ∧ i ≤ most then some i.toNat else none
  | _ => none

def word? : Value → Option Nat := nat? maxCount

def bool? : Value → Option Bool
  | .bool b => some b
  | _ => none

def float? : Value → Option Float
  | .float x => some x
  | .int i => some (Float.ofInt i)
  | _ => none

def option? {α : Type} (read : Value → Option α) : Value → Option (Option α)
  | .null => some none
  | value => (read value).map some

def list? {α : Type} (read : Value → Option α) : Value → Option (List α)
  | .list items => items.mapM read
  | _ => none

def ofNat (n : Nat) : Value := .int n

def ofOption : Option Nat → Value
  | none => .null
  | some n => ofNat n

def ofNats (ns : List Nat) : Value := .list (ns.map ofNat)

end Value

open Value

namespace PolicyKind

def name : PolicyKind → String
  | roundRobin => "round_robin"
  | proportionalFair => "proportional_fair"

def ofName? (s : String) : Option PolicyKind :=
  if s = "round_robin" then some .roundRobin
  else if s = "proportional_fair" then some .proportionalFair
  else none

theorem ofName?_name (k : PolicyKind) : ofName? k.name = some k := by
  cases k <;> rfl

/-- The name alone, or the only key of a dictionary that binds it to null. -/
def ofValue? : Value → Option PolicyKind
  | .text s => ofName? s
  | .dict [(key, .null)] => ofName? key
  | _ => none

end PolicyKind

namespace CellConfig

def toValue (c : CellConfig) : Value :=
  .dict [("nof_prb", ofNat c.nofPrb), ("cfi", ofNat c.cfi), ("nof_cce", ofOption c.nofCce),
    ("nrb_pucch", ofNat c.nrbPucch), ("max_mcs_dl", ofNat c.maxMcsDl),
    ("max_mcs_ul", ofNat c.maxMcsUl), ("delta_pucch_shift", ofNat c.deltaPucchShift),
    ("extended_cp", .bool c.extendedCp), ("ncs_an", ofNat c.ncsAn)]

def ofValue? (arity : Arity) (v : Value) : Option CellConfig := do
  let entries ← v.section? arity
    ["nof_prb", "cfi", "nof_cce", "nrb_pucch", "max_mcs_dl", "max_mcs_ul",
      "delta_pucch_shift", "extended_cp", "ncs_an"]
  let base : CellConfig := {}
  let nofPrb ← field? word? base.nofPrb "nof_prb" entries
  let cfi ← field? word? base.cfi "cfi" entries
  let nofCce ← field? (option? word?) base.nofCce "nof_cce" entries
  let nrbPucch ← field? word? base.nrbPucch "nrb_pucch" entries
  let maxMcsDl ← field? word? base.maxMcsDl "max_mcs_dl" entries
  let maxMcsUl ← field? word? base.maxMcsUl "max_mcs_ul" entries
  let deltaPucchShift ← field? word? base.deltaPucchShift "delta_pucch_shift" entries
  let extendedCp ← field? bool? base.extendedCp "extended_cp" entries
  let ncsAn ← field? word? base.ncsAn "ncs_an" entries
  some { nofPrb, cfi, nofCce, nrbPucch, maxMcsDl, maxMcsUl, deltaPucchShift, extendedCp, ncsAn }

end CellConfig

namespace HarqConfig

def toValue (h : HarqConfig) : Value :=
  .dict [("round_trip_delay", ofNat h.roundTrip), ("max_retx", ofNat h.maxRetx)]

def ofValue? (arity : Arity) (v : Value) : Option HarqConfig := do
  let entries ← v.section? arity ["round_trip_delay", "max_retx"]
  let base : HarqConfig := {}
  let roundTrip ← field? word? base.roundTrip "round_trip_delay" entries
  let maxRetx ← field? word? base.maxRetx "max_retx" entries
  some { roundTrip, maxRetx }

end HarqConfig

namespace PucchConfig

def toValue (p : PucchConfig) : Value :=
  .dict [("sr_nof_prb", ofNat p.sr.nofPrb), ("sr_nof_subframes", ofNat p.sr.nofSubframes),
    ("sr_sf_mapping", ofNats p.sr.offsets), ("sr_period", ofNat p.sr.period),
    ("cqi_nof_prb", ofNat p.cqi.nofPrb), ("cqi_nof_subframes", ofNat p.cqi.nofSubframes),
    ("cqi_sf_mapping", ofNats p.cqi.offsets),
    ("cqi_period", ofNat p.cqi.period)]

def ofValue? (arity : Arity) (v : Value) : Option PucchConfig := do
  let entries ← v.section? arity
    ["sr_nof_prb", "sr_nof_subframes", "sr_sf_mapping", "sr_period",
      "cqi_nof_prb", "cqi_nof_subframes", "cqi_sf_mapping", "cqi_period"]
  let base : PucchConfig := {}
  let srPrb ← field? word? base.sr.nofPrb "sr_nof_prb" entries
  let srSubframes ← field? word? base.sr.nofSubframes "sr_nof_subframes" entries
  let srOffsets ← field? (list? word?) base.sr.offsets "sr_sf_mapping" entries
  let srPeriod ← field? word? base.sr.period "sr_period" entries
  let cqiPrb ← field? word? base.cqi.nofPrb "cqi_nof_prb" entries
  let cqiSubframes ← field? word? base.cqi.nofSubframes "cqi_nof_subframes" entries
  let cqiOffsets ← field? (list? word?) base.cqi.offsets "cqi_sf_mapping" entries
  let cqiPeriod ← field? word? base.cqi.period "cqi_period" entries
  some ⟨⟨srPrb, srSubframes, srOffsets, srPeriod⟩, ⟨cqiPrb, cqiSubframes, cqiOffsets, cqiPeriod⟩⟩

end PucchConfig

namespace PolicyConfig

def toValue (p : PolicyConfig) : Value :=
  .dict [("kind", .text p.kind.name), ("pf_ewma_coeff", .float p.weight)]

def ofValue? (arity : Arity) (v : Value) : Option PolicyConfig := do
  let entries ← v.section? arity ["kind", "pf_ewma_coeff"]
  let base : PolicyConfig := {}
  let kind ← field? PolicyKind.ofValue? base.kind "kind" entries
  let weight ← field? float? base.weight "pf_ewma_coeff" entries
  some { kind, weight }

end PolicyConfig

namespace TimingConfig

def toValue (t : TimingConfig) : Value :=
  .dict [("tti_deadline_us", ofOption t.deadline), ("cqi_staleness_ttis", ofNat t.staleness),
    ("fallback_mcs", ofNat t.fallbackMcs)]

def ofValue? (arity : Arity) (v : Value) : Option TimingConfig := do
  let entries ← v.section? arity ["tti_deadline_us", "cqi_staleness_ttis", "fallback_mcs"]
  let base : TimingConfig := {}
  let deadline ← field? (option? (nat? 0xFFFFFFFFFFFFFFFF)) base.deadline "tti_deadline_us" entries
  let staleness ← field? word? base.staleness "cqi_staleness_ttis" entries
  let fallbackMcs ← field? word? base.fallbackMcs "fallback_mcs" entries
  some { deadline, staleness, fallbackMcs }

end TimingConfig

namespace Config

def toValue (c : Config) : Value :=
  .dict [("cells", .list (c.cells.map CellConfig.toValue)), ("harq", c.harq.toValue),
    ("pucch", c.pucch.toValue), ("policy", c.policy.toValue), ("timing", c.timing.toValue)]

/-- The configuration that a document denotes; it has to state the carriers. -/
def ofValue? (arity : Arity) (v : Value) : Option Config := do
  let entries ← v.section? arity ["cells", "harq", "pucch", "policy", "timing"]
  let cells ← lookup "cells" entries
  let cells ← list? (CellConfig.ofValue? arity) cells
  let harq ← field? (HarqConfig.ofValue? arity) {} "harq" entries
  let pucch ← field? (PucchConfig.ofValue? arity) {} "pucch" entries
  let policy ← field? (PolicyConfig.ofValue? arity) {} "policy" entries
  let timing ← field? (TimingConfig.ofValue? arity) {} "timing" entries
  some { cells, harq, pucch, policy, timing }

end Config

end MacScheduler
