import MacScheduler.Terminal.Snapshot

/-!
# Making grants

A planned allocation becomes a grant when the terminal commits to it: blocks
start or are sent again, buffers give up what the blocks carry, and the power
command is spent.  A refusal leaves the terminal as it was.
-/

namespace MacScheduler.Terminal

/-- Makes the downlink grant of a process: a retransmission when one is due at
`tx`, otherwise new data sized from the pending buffers. -/
def grantDownlink (t : Terminal) (tx : Tti) (carrier pid : Nat) (mask : RbgMask)
    (dci : DciLocation) : Except GrantError DlGrant × Terminal :=
  match t.link? carrier with
  | none => (.error (.carrierInactive carrier), t)
  | some l =>
      let grant := fun tbs pdus ↦
        ({ rnti := t.rnti, carrier, txTti := tx, mask, nofPrb := mask.nofPrb l.params.nofPrb,
           dci, pid, tbs, tpc := t.tpcDl, pdus } : DlGrant)
      if (l.dl.get? pid).any (·.hasPendingRetx tx) then
        match l.resendDownlink tx pid mask with
        | (.error e, l) => (.error e, t.putLink carrier l)
        | (.ok tbs, l) =>
            (.ok (grant tbs []),
              { t.putLink carrier l with
                tpcDl := 0
                totals := { t.totals with dlGrants := t.totals.dlGrants + 1 } })
      else
        match l.startDownlink tx pid mask t.downlinkPending with
        | (.error e, l) => (.error e, t.putLink carrier l)
        | (.ok tbs, l) =>
            let bytes := grantedBytes tbs
            let (pdus, channels) := t.channels.fill bytes
            (.ok (grant tbs pdus),
              { t.putLink carrier l with
                channels
                tpcDl := 0
                totals :=
                  { t.totals with
                    dlGrants := t.totals.dlGrants + 1
                    dlBytes := t.totals.dlBytes + bytes } })

/-- Whether the terminal has no fresh channel report on its primary carrier. -/
def isPrimaryStale (t : Terminal) : Bool :=
  ((t.config.primary?.bind t.link?).map Link.isDlCqiStale).getD true

/-- Makes the uplink grant of a process; `dci` is absent only for a
retransmission on the same resource blocks, which spends no power command. -/
def grantUplink (t : Terminal) (tx : Tti) (carrier pid : Nat) (interval : PrbInterval)
    (dci : Option DciLocation) : Except GrantError UlGrant × Terminal :=
  match t.link? carrier with
  | none => (.error (.carrierInactive carrier), t)
  | some l =>
      let tpc := if dci.isSome then t.tpcUl else 0
      let tpcLeft := if dci.isSome then 0 else t.tpcUl
      let grant := fun tb cqiRequest ↦
        ({ rnti := t.rnti, carrier, txTti := tx, interval, dci, pid, tb, tpc,
           cqiRequest } : UlGrant)
      if (l.ul.get? pid).any (·.hasPendingRetx tx) then
        match l.resendUplink tx pid interval with
        | (.error e, l) => (.error e, t.putLink carrier l)
        | (.ok tb, l) =>
            (.ok (grant tb false),
              { t.putLink carrier l with
                tpcUl := tpcLeft
                totals := { t.totals with ulGrants := t.totals.ulGrants + 1 } })
      else
        match l.startUplink tx pid interval t.uplinkPending with
        | (.error e, l) => (.error e, t.putLink carrier l)
        | (.ok tb, l) =>
            (.ok (grant tb (decide (t.config.primary? = some carrier) && t.isPrimaryStale)),
              { t.putLink carrier l with
                channels := t.channels.grantUplink tb.tbs
                srPending := false
                tpcUl := tpcLeft
                totals :=
                  { t.totals with
                    ulGrants := t.totals.ulGrants + 1
                    ulBytes := t.totals.ulBytes + tb.tbs } })

def buffer? (t : Terminal) (carrier pid tb : Nat) : Except SchedError ByteArray :=
  match t.link? carrier with
  | none => .error (.invalidCarrier carrier)
  | some l => (l.buffer? pid tb).mapError .harq

end MacScheduler.Terminal
