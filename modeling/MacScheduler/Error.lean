import MacScheduler.Buffer.Bearer
import MacScheduler.Clock.Tti
import MacScheduler.Config.Check
import MacScheduler.Harq.Block
import MacScheduler.Link.Direction

/-!
# Scheduler errors

Configuration errors refuse a change.  Protocol violations concern a report
that does not match any terminal or any transmission.  Fatal errors mean that
the retransmission state may no longer be trusted.
-/

namespace MacScheduler

inductive Clash where
  | rbgMasks (a b : Rnti) (t : Tti)
  | puschIntervals (a b : Rnti) (t : Tti)
deriving DecidableEq

def Clash.message : Clash → String
  | rbgMasks a b t => s!"RBG masks of {a.text} and {b.text} overlap at TTI {t.text}"
  | puschIntervals a b t => s!"PUSCH intervals of {a.text} and {b.text} overlap at TTI {t.text}"

inductive SchedError where
  | invalidCarrier (index : Nat)
  | invalidPeriod (period : Nat)
  | bearer (cause : BearerError)
  | cellsInUse (nofTerminals : Nat)
  | notConfigured
  | invalidConfig (cause : ConfigError)
  | unknownRnti (rnti : Rnti)
  | harq (cause : HarqError)
  /-- A pass took longer than its budget, both in microseconds. -/
  | deadlineMissed (t : Tti) (elapsed budget : Nat)
  | ttiOutOfOrder (t last : Tti)
  | corrupted (clash : Clash)
deriving DecidableEq

namespace SchedError

def message : SchedError → String
  | invalidCarrier index => s!"invalid eNB carrier index {index}"
  | invalidPeriod period => s!"invalid reporting period {period}"
  | bearer cause => cause.message
  | cellsInUse n => s!"cell configuration cannot change while {n} terminals are attached"
  | notConfigured => "cells are not configured"
  | invalidConfig cause => "invalid cell configuration: " ++ ", ".intercalate cause.codes
  | unknownRnti rnti => s!"unknown rnti {rnti.text}"
  | harq cause => cause.message
  | deadlineMissed t elapsed budget =>
      s!"TTI {t.text} deadline missed: pass took {elapsed}us, budget {budget}us"
  | ttiOutOfOrder t last => s!"TTI {t.text} arrived after TTI {last.text}"
  | corrupted clash => s!"corrupted scheduler state: {clash.message}"

/-- Whether going on would risk inconsistent retransmission state. -/
def isFatal : SchedError → Bool
  | deadlineMissed .. | ttiOutOfOrder .. | corrupted .. => true
  | _ => false

/-- Whether a report matched no terminal or no transmission. -/
def isProtocolViolation : SchedError → Bool
  | unknownRnti _ | harq _ => true
  | _ => false

end SchedError

end MacScheduler
