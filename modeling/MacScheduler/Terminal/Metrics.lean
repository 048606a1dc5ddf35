import MacScheduler.Terminal.Snapshot

/-!
# Metrics

Read-only figures of one terminal and totals over all attached terminals.
-/

namespace MacScheduler

structure CarrierMetrics where
  carrier : Nat
  state : Activation
  dlCqi : Option Nat
  dlRi : Option Nat
  ulCqi : Option Nat
  /-- Bytes in downlink blocks that are not resolved. -/
  dlHarqBytes : Nat
deriving DecidableEq

structure TerminalMetrics where
  rnti : Rnti
  dlPending : Nat
  ulPending : Nat
  totals : GrantTotals
  dlFailures : Nat
  ulFailures : Nat
  headroom : Option Int
  srPending : Bool
  srResource : Option PucchResource
  cqiResource : Option PucchResource
  carriers : List CarrierMetrics
deriving DecidableEq

def Link.metrics (l : Link) : CarrierMetrics :=
  { carrier := l.carrier
    state := l.state
    dlCqi := l.dlCqi.map (·.value)
    dlRi := l.dlRi.map (·.value)
    ulCqi := l.ulCqi.map (·.value)
    dlHarqBytes := l.dl.pendingBytes }

def Terminal.metrics (t : Terminal) : TerminalMetrics :=
  { rnti := t.rnti
    dlPending := t.downlinkPending
    ulPending := t.uplinkPending
    totals := t.totals
    dlFailures := t.channels.dlFailures
    ulFailures := t.channels.ulFailures
    headroom := t.headroom
    srPending := t.srPending
    srResource := t.srLease.map (·.resource)
    cqiResource := t.cqiLease.map (·.resource)
    carriers := t.links.map Link.metrics }

structure SchedulerMetrics where
  nofTerminals : Nat
  dlBytes : Nat
  ulBytes : Nat
  dlFailures : Nat
  ulFailures : Nat
deriving DecidableEq

def SchedulerMetrics.ofTerminals (ms : List TerminalMetrics) : SchedulerMetrics :=
  { nofTerminals := ms.length
    dlBytes := total (ms.map (·.totals.dlBytes))
    ulBytes := total (ms.map (·.totals.ulBytes))
    dlFailures := total (ms.map (·.dlFailures))
    ulFailures := total (ms.map (·.ulFailures)) }

end MacScheduler
