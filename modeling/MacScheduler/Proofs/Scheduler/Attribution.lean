import MacScheduler.Proofs.Harq.Answer
import MacScheduler.Proofs.Scheduler.Sweeps

/-!
# Feedback and the transmission it is for

The clock returns to a point every 10240 subframes, and processes keep their points.
In a run that sweeps the carriers every unresolved process was granted at most half a
turn ago, and no two of one table at the same point.  So the point that feedback names
tells its transmission: feedback reaches that one, or changes nothing.
-/

namespace MacScheduler

def Flight.sending {α : Type} (carrier : Nat) (f : Flight α) : Sending :=
  ⟨f.rnti, carrier, f.pid, f.sent⟩

/-- A grant of the log, at most half a turn before point `n`, is for the transmission. -/
def Announced (sendings : SubframeResult → List Sending) (log : List RanPass) (n : Nat)
    (x : Sending) : Prop :=
  ∃ e ∈ log, e.point ≤ n ∧ n ≤ e.point + 5120 ∧ x ∈ sendings e.result

/-! ## Every transmission in flight has its grant -/

namespace Roster

variable {α : Type} {tab : Link → HarqTable α} {sendings : SubframeResult → List Sending}
  {txOf : Tti → Tti} {cells : List CellParams} {k : Nat} {log log' : List RanPass} {r r' : Roster}

/-- What is in flight at point `k` was granted at most one round trip before, by a pass of the
log that it was sent with. -/
def Traced (tab : Link → HarqTable α) (sendings : SubframeResult → List Sending)
    (txOf : Tti → Tti) (cells : List CellParams) (k : Nat) (log : List RanPass) (r : Roster) :
    Prop :=
  ∀ c f, r.Flies tab c f → ∃ p, cells[c]? = some p ∧ ∃ e ∈ log, e.point ≤ k ∧
    k ≤ e.point + p.harq.roundTrip ∧ f.sent = txOf (.ofNat e.point) ∧
    f.sending c ∈ sendings e.result

theorem Traced.fades (h : r.Traced tab sendings txOf cells k log) (hf : r.Fades tab r') :
    r'.Traced tab sendings txOf cells k log :=
  fun c f hflies ↦ h c f (hf.flies hflies)

/-- As the clock moves on in pace, what stays in flight is still no older than a round trip. -/
theorem Traced.move (h : r.Traced tab sendings txOf cells k log) {d : Nat}
    (hadd : ∀ (t : Tti) (d : Nat), txOf (t + d) = txOf t + d) (hd : CellParams.InPace cells d)
    (hf : r.Fades tab r')
    (hkeeps : ∀ c p, cells[c]? = some p →
      r'.Keeps tab c p.harq.roundTrip (txOf (.ofNat (k + d)))) :
    r'.Traced tab sendings txOf cells (k + d) log := by
  intro c f hflies
  obtain ⟨p, hp, e, he, hle, hge, hsent, hmem⟩ := h c f (hf.flies hflies)
  refine ⟨p, hp, e, he, by omega, ?_, hsent, hmem⟩
  obtain ⟨t, ht, -, l, hl, hcarrier, hcarries⟩ := hflies
  obtain ⟨elapsed, helapsed, hnow⟩ := (hkeeps c p hp t ht l hl hcarrier).elapsed_le hcarries
  have hpace := hd p (List.mem_of_getElem? hp)
  -- the subframes since the grant and those since the transmission differ by full turns
  have hpoint : k + d = e.point + (k + d - e.point) := by omega
  rw [hpoint, Tti.ofNat_add, hadd, ← hsent] at hnow
  have hmod := Tti.add_eq_add_iff.mp hnow
  omega

/-- A pass is logged with the grants for all that it sends. -/
theorem Traced.send (h : r.Traced tab sendings txOf cells k log) {carrier : Nat} {p : CellParams}
    (hp : cells[carrier]? = some p) {e : RanPass} (hpoint : e.point = k)
    (hback : ∀ c f, r'.Flies tab c f → r.Flies tab c f ∨
      c = carrier ∧ f.sent = txOf (.ofNat k) ∧ f.sending c ∈ sendings e.result) :
    r'.Traced tab sendings txOf cells k (e :: log) := by
  intro c f hflies
  rcases hback c f hflies with hold | ⟨rfl, hsent, hmem⟩
  · obtain ⟨q, hq, e', he', hrest⟩ := h c f hold
    exact ⟨q, hq, e', List.mem_cons_of_mem e he', hrest⟩
  · subst hpoint
    exact ⟨p, hp, e, List.mem_cons_self, Nat.le_refl _, Nat.le_add_right _ _, hsent, hmem⟩

/-! ## What an unresolved process tells -/

/-- Every unresolved process of a table has a point of its own, and its grant in the log. -/
structure Vouched (sendings : SubframeResult → List Sending) (log : List RanPass) (n : Nat)
    (rnti : Rnti) (carrier : Nat) (h : HarqTable α) : Prop where
  apart : h.Apart
  announced : ∀ p ∈ h.procs, p.isEmpty = false →
    ∃ tx, p.txTti = some tx ∧ Announced sendings log n ⟨rnti, carrier, p.pid, tx⟩

section

variable {overlaps : α → α → Bool} {t : Terminal} {l : Link} {roundTrip : Nat} {tx : Tti}
  (ht : t ∈ r) (hl : l ∈ t.links) (hsteady : (tab l).Steady roundTrip tx)

include ht hl hsteady

theorem Separate.apart (hs : r.Separate tab overlaps l.carrier) : (tab l).Apart := by
  intro p hp q hq hpBusy hqBusy hsame
  obtain ⟨sent, a, hsent, hf⟩ := flies_of_busy ht hl hsteady hp hpBusy
  obtain ⟨sent', b, hsent', hg⟩ := flies_of_busy ht hl hsteady hq hqBusy
  rw [hsent, hsent'] at hsame
  obtain rfl := Option.some.inj hsame
  rcases hs _ _ hf hg rfl with heq | ⟨hne, -⟩
  · have hpid : p.pid = q.pid := congrArg Flight.pid heq
    have hget := hsteady.timely.sound.get?_pid hp
    rw [hpid, hsteady.timely.sound.get?_pid hq] at hget
    exact (Option.some.inj hget).symm
  · exact (hne rfl).elim

theorem Traced.vouched (h : r.Traced tab sendings txOf cells k log) {n d : Nat} (hn : n = k + d)
    (hd : CellParams.InPace cells d) (hs : r.Separate tab overlaps l.carrier) :
    Vouched sendings log n t.rnti l.carrier (tab l) where
  apart := hs.apart ht hl hsteady
  announced := by
    intro p hp hbusy
    obtain ⟨sent, alloc, hsent, hflies⟩ := flies_of_busy ht hl hsteady hp hbusy
    obtain ⟨c, hc, e, he, hle, hge, -, hmem⟩ := h _ _ hflies
    have hpace := hd c (List.mem_of_getElem? hc)
    exact ⟨sent, hsent, e, he, by omega, by omega, hmem⟩

end

end Roster

/-! ## What feedback changes -/

def Link.withDl (l : Link) (dl : HarqTable RbgMask) : Link := { l with dl }

def Link.withUl (l : Link) (ul : HarqTable PrbInterval) : Link := { l with ul }

namespace Terminal

variable {α : Type} {tab : Link → HarqTable α} {cells : List CellParams} {now : Tti} {t : Terminal}
  {carrier : Nat}

/-- `t'` is `t` after an answer to the unresolved block `tb` of a process of one table. -/
def Hears (tab : Link → HarqTable α) (put : Link → HarqTable α → Link) (carrier : Nat) (tx : Tti)
    (tb : Nat) (t t' : Terminal) : Prop :=
  ∃ l h, t.link? carrier = some l ∧ (tab l).Hears tx tb h ∧ t' = t.putLink carrier (put l h)

theorem putLink_setAck (put : Link → HarqTable α → Link) {l : Link}
    (hl : t.link? carrier = some l) (hs : (tab l).Sound) (hself : put l (tab l) = l) {tx : Tti}
    {pid : Nat} (hpid : (tab l).sentAt? tx = some pid) (tb : Nat) (ack : Bool) :
    (Unheard .ignored ((tab l).setAck pid tb ack).1 ∧
      t.putLink carrier (put l ((tab l).setAck pid tb ack).2) = t) ∨
    t.Hears tab put carrier tx tb (t.putLink carrier (put l ((tab l).setAck pid tb ack).2)) := by
  rcases hs.setAck_sentAt? hpid tb ack with ⟨hunheard, hsame⟩ | hhears
  · refine .inl ⟨hunheard, ?_⟩
    rw [hsame, hself, putLink_self hl]
  · exact .inr ⟨l, _, hl, hhears, rfl⟩

theorem Steady.acknowledgeDownlink_cases (h : t.Steady cells now) (received : Tti)
    (carrier tb : Nat) (ack : Bool) :
    (Unheard .ignored (t.acknowledgeDownlink received carrier tb ack).1 ∧
      (t.acknowledgeDownlink received carrier tb ack).2 = t) ∨
    t.Hears Link.dl Link.withDl carrier received.acknowledgedTx tb
      (t.acknowledgeDownlink received carrier tb ack).2 := by
  unfold Terminal.acknowledgeDownlink
  cases hl : t.link? carrier with
  | none => exact .inl ⟨.inr ⟨_, rfl⟩, rfl⟩
  | some l =>
      have hsound := (h.links l (of_link? hl).1).dl.timely.sound
      dsimp only
      cases hpid : l.dl.sentAt? received.acknowledgedTx with
      | none => exact .inl ⟨.inr ⟨_, rfl⟩, rfl⟩
      | some pid =>
          exact (putLink_setAck Link.withDl hl hsound rfl hpid tb ack).imp_left
            fun hsame ↦ ⟨hsame.1.mapError SchedError.harq, hsame.2⟩

theorem Steady.acknowledgeUplink_cases (h : t.Steady cells now) (received : Tti) (carrier : Nat)
    (ack : Bool) :
    (Unheard .ignored (t.acknowledgeUplink received carrier ack).1 ∧
      (t.acknowledgeUplink received carrier ack).2 = t) ∨
    t.Hears Link.ul Link.withUl carrier received 0
      (t.acknowledgeUplink received carrier ack).2 := by
  unfold Terminal.acknowledgeUplink
  cases hl : t.link? carrier with
  | none => exact .inl ⟨.inr ⟨_, rfl⟩, rfl⟩
  | some l =>
      have hsound := (h.links l (of_link? hl).1).ul.timely.sound
      dsimp only
      cases hpid : l.ul.sentAt? received with
      | none => exact .inl ⟨.inr ⟨_, rfl⟩, rfl⟩
      | some pid =>
          exact (putLink_setAck Link.withUl hl hsound rfl hpid 0 ack).imp_left
            fun hsame ↦ ⟨hsame.1.mapError SchedError.harq, hsame.2⟩

end Terminal

namespace Scheduler

variable {α : Type} {tab : Link → HarqTable α} {put : Link → HarqTable α → Link}
  {sendings : SubframeResult → List Sending} {log : List RanPass} {n : Nat} {rnti : Rnti}
  {carrier : Nat} {tx : Tti} {tb : Nat} {s : Scheduler}

/-- A process of the terminal, last sent at `tx` on the carrier, has not resolved block `tb`. -/
def Awaits (s : Scheduler) (tab : Link → HarqTable α) (rnti : Rnti) (carrier : Nat) (tx : Tti)
    (tb : Nat) : Prop :=
  ∃ t l, s.terminals.get? rnti = some t ∧ t.link? carrier = some l ∧ (tab l).Unresolved tx tb

/-- Feedback for block `tb` of what was sent at `tx` changes at most a process that was last
sent then and waits for it.  Where none does, or nothing was granted for that point in the
last half turn, it is ignored or refused. -/
structure Attributes (s : Scheduler) (tab : Link → HarqTable α) (put : Link → HarqTable α → Link)
    (sendings : SubframeResult → List Sending) (log : List RanPass) (n : Nat) (rnti : Rnti)
    (carrier : Nat) (tx : Tti) (tb : Nat)
    (out : Except SchedError Terminal.Answer × Scheduler) : Prop where
  reaches : out.2 = s ∨ ∃ t t', s.terminals.get? rnti = some t ∧
    t.Hears tab put carrier tx tb t' ∧ out.2 = { s with terminals := s.terminals.update t' }
  ignores : (¬s.Awaits tab rnti carrier tx tb ∨
    ∀ pid, ¬Announced sendings log n ⟨rnti, carrier, pid, tx⟩) →
      Unheard (.outcome .ignored) out.1 ∧ out.2 = s

theorem Attributes.of_hears {t t' : Terminal} (hget : s.terminals.get? rnti = some t)
    (hvouched : ∀ l ∈ t.links, Roster.Vouched sendings log n t.rnti l.carrier (tab l))
    (hhears : t.Hears tab put carrier tx tb t') (r : Except SchedError Terminal.Answer) :
    s.Attributes tab put sendings log n rnti carrier tx tb
      (r, { s with terminals := s.terminals.update t' }) where
  reaches := .inr ⟨t, t', hget, hhears, rfl⟩
  ignores := by
    obtain ⟨l, h, hl, hh, -⟩ := hhears
    have hunresolved := hh.unresolved
    rintro (hnot | hnot)
    · exact (hnot ⟨t, l, hget, hl, hunresolved⟩).elim
    · obtain ⟨p, hp, hsent, hholds⟩ := hunresolved
      obtain ⟨hlmem, hcarrier⟩ := Terminal.of_link? hl
      obtain ⟨tx', hsent', hannounced⟩ := (hvouched l hlmem).announced p hp hholds.not_isEmpty
      obtain rfl := Option.some.inj (hsent.symm.trans hsent')
      rw [(Roster.of_get? hget).2, hcarrier] at hannounced
      exact (hnot p.pid hannounced).elim

theorem Attributes.of_unheard {out : Except SchedError Terminal.Answer × Scheduler}
    (h : Unheard (.outcome .ignored) out.1 ∧ out.2 = s) :
    s.Attributes tab put sendings log n rnti carrier tx tb out :=
  ⟨.inl h.2, fun _ ↦ h⟩

/-- Feedback that a terminal takes over for one of its processes, or leaves unheard, is such
feedback for the scheduler. -/
theorem attributes_act (hnodup : (s.terminals.map (·.rnti)).Nodup)
    (hvouched : ∀ t ∈ s.terminals, ∀ l ∈ t.links,
      Roster.Vouched sendings log n t.rnti l.carrier (tab l)) {action : Terminal.Action}
    (hcases : ∀ t ∈ s.terminals,
      (Unheard (.outcome .ignored) (t.perform action).1 ∧ (t.perform action).2 = t) ∨
        t.Hears tab put carrier tx tb (t.perform action).2) :
    s.Attributes tab put sendings log n rnti carrier tx tb (s.act rnti action) := by
  unfold act
  cases hget : s.terminals.get? rnti with
  | none => exact .of_unheard ⟨.inr ⟨_, rfl⟩, rfl⟩
  | some t =>
      obtain ⟨ht, -⟩ := Roster.of_get? hget
      rcases hcases t ht with ⟨hunheard, hsame⟩ | hhears
      · apply Attributes.of_unheard
        refine ⟨hunheard, ?_⟩
        dsimp only
        rw [hsame, Roster.update_self hnodup ht]
      · exact .of_hears hget (hvouched t ht) hhears _

end Scheduler

/-! ## Runs -/

namespace Scheduler

variable {s s' : Scheduler} {n : Nat} {waiting : List Nat} {log : List RanPass} {cells : CellSet}

namespace Executes

variable {carrier : Nat} {e : RanPass} {before : Roster} {plan : SubframePlan} {k d : Nat}

theorem traced_dl (h : Executes cells n carrier s s' e before plan)
    (ht : s.terminals.Traced Link.dl SubframeResult.dlSendings Tti.downlinkTx cells.params k log)
    (hn : n = k + d) (hd : CellParams.InPace cells.params d) :
    s'.terminals.Traced Link.dl SubframeResult.dlSendings Tti.downlinkTx cells.params n
      (e :: log) := by
  subst hn
  have hbefore := ht.move Tti.downlinkTx_add hd h.fades_dl fun c p hp ↦ h.orderly.keeps_dl hp
  refine hbefore.send h.params h.point_eq fun c f hf ↦ (h.flies_dl c f hf).imp_right ?_
  rintro ⟨rfl, hsent, d, hd, hrnti, hpid, -⟩
  refine ⟨rfl, hsent, ?_⟩
  rw [h.dl, Flight.sending, hsent, ← hrnti, ← hpid]
  exact List.mem_map_of_mem hd

theorem traced_ul (h : Executes cells n carrier s s' e before plan)
    (ht : s.terminals.Traced Link.ul SubframeResult.ulSendings Tti.uplinkTx cells.params k log)
    (hn : n = k + d) (hd : CellParams.InPace cells.params d) :
    s'.terminals.Traced Link.ul SubframeResult.ulSendings Tti.uplinkTx cells.params n
      (e :: log) := by
  subst hn
  have hbefore := ht.move Tti.uplinkTx_add hd h.fades_ul fun c p hp ↦ h.orderly.keeps_ul hp
  refine hbefore.send h.params h.point_eq fun c f hf ↦ (h.flies_ul c f hf).imp_right ?_
  rintro ⟨rfl, hsent, u, hu, hrnti, hpid, -⟩
  refine ⟨rfl, hsent, ?_⟩
  rw [h.ul, Flight.sending, hsent, ← hrnti, ← hpid]
  exact List.mem_map_of_mem hu

end Executes

/-- What is in flight at the point that the terminals have reached has its grant in the log. -/
structure TracedOn (cells : CellSet) (n : Nat) (waiting : List Nat) (log : List RanPass)
    (r : Roster) (k : Nat) : Prop where
  reached : cells.Reached n waiting k
  dl : r.Traced Link.dl SubframeResult.dlSendings Tti.downlinkTx cells.params k log
  ul : r.Traced Link.ul SubframeResult.ulSendings Tti.uplinkTx cells.params k log

theorem TracedOn.nil (cells : CellSet) (n : Nat) (waiting : List Nat) (log : List RanPass) :
    TracedOn cells n waiting log [] n := by
  refine ⟨.inl rfl, ?_, ?_⟩ <;> simp [Roster.Traced, Roster.Flies]

theorem invariant_traced :
    Sweeps.Invariant fun cells n waiting log r ↦ ∃ k, TracedOn cells n waiting log r k where
  start := fun cells n ↦ ⟨n, .nil cells n [] []⟩
  replaced := by
    intro _ fresh n waiting log _ _
    exact ⟨n, .nil fresh n waiting log⟩
  eased := by
    intro cells after n waiting log r r' now hpasses heased htraced
    obtain ⟨k, htraced⟩ := htraced
    have hparams := CellSet.params_of_passes hpasses
    refine ⟨k, htraced.reached.of_passes hpasses, ?_, ?_⟩
    · exact hparams ▸ htraced.dl.fades heased.fades_dl
    · exact hparams ▸ htraced.ul.fades heased.fades_ul
  idle := by
    intro cells n waiting waiting' log r hreached htraced
    obtain ⟨k, htraced⟩ := htraced
    exact ⟨k, hreached k htraced.reached, htraced.dl, htraced.ul⟩
  pass := by
    intro cells after n carrier s s' e before plan waiting waiting' log hconfigured hexecutes
      hparams htraced
    obtain ⟨k, htraced⟩ := htraced
    obtain ⟨d, hn, hd⟩ := htraced.reached.inPace hconfigured
    refine ⟨n, .inl rfl, ?_, ?_⟩
    · exact hparams ▸ hexecutes.traced_dl htraced.dl hn hd
    · exact hparams ▸ hexecutes.traced_ul htraced.ul hn hd
  next := by
    intro cells n log r d hswept hpace htraced
    obtain ⟨k, htraced⟩ := htraced
    obtain rfl := hswept.reached_eq htraced.reached
    exact ⟨k, CellSet.Swept.reached_next hpace, htraced.dl, htraced.ul⟩

/-- Every unresolved process was granted in the last half turn and shares its point with no
other one of its table; so feedback changes the process that it is for, or nothing. -/
theorem feedback_reaches_its_transmission (h : s.Sweeps n waiting log) :
    (∀ t ∈ s.terminals, ∀ l ∈ t.links,
      Roster.Vouched SubframeResult.dlSendings log n t.rnti l.carrier l.dl ∧
      Roster.Vouched SubframeResult.ulSendings log n t.rnti l.carrier l.ul) ∧
    ∀ (rnti : Rnti) (received : Tti) (carrier : Nat) (ack : Bool),
      (∀ tb, s.Attributes Link.dl Link.withDl SubframeResult.dlSendings log n rnti carrier
        received.acknowledgedTx tb (s.act rnti (.acknowledgeDownlink received carrier tb ack))) ∧
      s.Attributes Link.ul Link.withUl SubframeResult.ulSendings log n rnti carrier
        received 0 (s.act rnti (.acknowledgeUplink received carrier ack)) := by
  obtain ⟨cells, -, hswept, k, htraced⟩ := h.of_invariant invariant_traced
  obtain ⟨_, -, horderly⟩ := hswept.roster
  obtain ⟨d, hn, hd⟩ := htraced.reached.inPace hswept.configured
  have hdl : ∀ t ∈ s.terminals, ∀ l ∈ t.links,
      Roster.Vouched SubframeResult.dlSendings log n t.rnti l.carrier l.dl := fun t ht l hl ↦
    htraced.dl.vouched ht hl ((horderly.steady t ht).links l hl).dl hn hd (horderly.dl l.carrier)
  have hul : ∀ t ∈ s.terminals, ∀ l ∈ t.links,
      Roster.Vouched SubframeResult.ulSendings log n t.rnti l.carrier l.ul := fun t ht l hl ↦
    htraced.ul.vouched ht hl ((horderly.steady t ht).links l hl).ul hn hd (horderly.ul l.carrier)
  refine ⟨fun t ht l hl ↦ ⟨hdl t ht l hl, hul t ht l hl⟩, fun rnti received carrier ack ↦ ?_⟩
  constructor
  · intro tb
    apply attributes_act horderly.rntis hdl
    intro t ht
    exact ((horderly.steady t ht).acknowledgeDownlink_cases received carrier tb ack).imp_left
      fun hsame ↦ ⟨hsame.1.map Terminal.Answer.outcome, hsame.2⟩
  · apply attributes_act horderly.rntis hul
    intro t ht
    exact ((horderly.steady t ht).acknowledgeUplink_cases received carrier ack).imp_left
      fun hsame ↦ ⟨hsame.1.map Terminal.Answer.outcome, hsame.2⟩

/-- An uplink block is sent at point 9 and received, and the clock goes round once. -/
def afterTurn : Scheduler × List RanPass :=
  let x := sweepAlone (uplinkRun 0, []) 0 [1, 7]
  let s := (x.1.handle (.act ⟨70⟩ (.acknowledgeUplink (.ofNat 9) 0 true))).2
  sweepAlone (s, x.2) 8 [1, 5000, 5000, 232, 8]

theorem sweeps_afterTurn : afterTurn.1.Sweeps 10249 [] afterTurn.2 := by
  have hsent := ((sweeps_uplinkRun 0).sweepAlone (r := 8) (by decide +kernel) [1, 7] (by decide)).1
  have hanswered := hsent.request (r := .act ⟨70⟩ (.acknowledgeUplink (.ofNat 9) 0 true)) rfl
  exact (hanswered.sweepAlone (r := 8) (by decide +kernel) [1, 5000, 5000, 232, 8]
    (by decide)).1

/-- When the clock comes back to the point, the process still keeps it; but feedback for the
point is ignored, for no block waits. -/
theorem afterTurn_ignores :
    (∃ t l p, afterTurn.1.terminals.get? ⟨70⟩ = some t ∧ t.link? 0 = some l ∧ p ∈ l.ul.procs ∧
      p.txTti = some (.ofNat 10249) ∧ p.isEmpty = true) ∧
    (afterTurn.1.act ⟨70⟩ (.acknowledgeUplink (.ofNat 10249) 0 true)).1 =
      .ok (.outcome .ignored) ∧
    (afterTurn.1.act ⟨70⟩ (.acknowledgeUplink (.ofNat 10249) 0 true)).2 = afterTurn.1 := by
  have hpoint : ((afterTurn.1.terminals.get? ⟨70⟩).bind (·.link? 0)).map (fun l ↦
      (l.ul.procs.filter fun p ↦ decide (p.txTti = some (.ofNat 10249))).map (·.isEmpty)) =
        some [true] := by
    decide +kernel
  have hanswer : (afterTurn.1.act ⟨70⟩ (.acknowledgeUplink (.ofNat 10249) 0 true)).1 =
      .ok (.outcome .ignored) := by
    decide +kernel
  obtain ⟨l, hlink, hl⟩ := Option.map_eq_some_iff.mp hpoint
  obtain ⟨t, hget, hlink⟩ := Option.bind_eq_some_iff.mp hlink
  obtain ⟨p, hp, hidle⟩ := List.map_eq_singleton_iff.mp hl
  obtain ⟨hmem, hsent⟩ := List.mem_filter.mp (hp.symm ▸ List.mem_singleton_self p)
  have hnot : ¬afterTurn.1.Awaits Link.ul ⟨70⟩ 0 (.ofNat 10249) 0 := by
    rintro ⟨t', l', hget', hlink', q, hq, hsentq, hholds⟩
    obtain rfl := Option.some.inj (hget.symm.trans hget')
    obtain rfl := Option.some.inj (hlink.symm.trans hlink')
    have hfound : q ∈ [p] := hp ▸ List.mem_filter.mpr ⟨hq, decide_eq_true hsentq⟩
    rw [List.mem_singleton.mp hfound] at hholds
    exact Bool.false_ne_true (hholds.not_isEmpty.symm.trans hidle)
  have hattributes := (feedback_reaches_its_transmission sweeps_afterTurn).2 ⟨70⟩ (.ofNat 10249) 0
    true
  exact ⟨⟨t, l, p, hget, hlink, hmem, of_decide_eq_true hsent, hidle⟩, hanswer,
    (hattributes.2.ignores (.inl hnot)).2⟩

end Scheduler

end MacScheduler
