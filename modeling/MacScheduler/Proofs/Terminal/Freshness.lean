import MacScheduler.Proofs.Clock.Tti
import MacScheduler.Proofs.Config.Check
import MacScheduler.Proofs.Terminal.Commit
import MacScheduler.Terminal.Report

/-!
# Fresh reports

A report on the channel counts while it is young.  A link knows only the point
of the clock at which it was received, and a boundary forgets it once its signed
age exceeds the bound; only so does a report stay old when the clock comes
round.  With a bound of at most 5118 subframes the two agree: what counts is
exactly what was last heard at most that long ago.  With a bound of 5119, the
largest that a configuration may ask for, no age ever exceeds the bound, and a
report counts again for one half of every turn of the clock.
-/

namespace MacScheduler

/-- What a channel report is about. -/
inductive Aspect where
  | downlinkQuality
  | precoding
  | rank
  | uplinkQuality
deriving DecidableEq

namespace Terminal.Measure

def aspect : Measure → Aspect
  | .cqi _ => .downlinkQuality
  | .precoding _ => .precoding
  | .rank _ => .rank
  | .snr _ => .uplinkQuality

def index : Measure → Nat
  | .cqi value => value
  | .precoding value => value
  | .rank value => value
  | .snr decibel => snrToCqi decibel

end Terminal.Measure

/-! ## Runs of a link -/

/-- Whatever happens to a link. -/
inductive LinkEvent where
  | boundary (now : Tti)
  | report (m : Terminal.Measure) (received : Tti)
  | startDownlink (t : Tti) (pid : Nat) (mask : RbgMask) (bytes : Nat)
  | resendDownlink (t : Tti) (pid : Nat) (mask : RbgMask)
  | startUplink (t : Tti) (pid : Nat) (interval : PrbInterval) (bytes : Nat)
  | resendUplink (t : Tti) (pid : Nat) (interval : PrbInterval)
  | acknowledgeDownlink (pid tb : Nat) (ack : Bool)
  | acknowledgeUplink (pid tb : Nat) (ack : Bool)
  | advance (dlTx ulTx : Tti)
  | resetHarq
  | enter (state : Activation)

namespace Link

def report? (l : Link) : Aspect → Option Report
  | .downlinkQuality => l.dlCqi
  | .precoding => l.dlPmi
  | .rank => l.dlRi
  | .uplinkQuality => l.ulCqi

def step (l : Link) : LinkEvent → Link
  | .boundary now => (l.newTti now).2
  | .report m received => m.record received l
  | .startDownlink t pid mask bytes => (l.startDownlink t pid mask bytes).2
  | .resendDownlink t pid mask => (l.resendDownlink t pid mask).2
  | .startUplink t pid interval bytes => (l.startUplink t pid interval bytes).2
  | .resendUplink t pid interval => (l.resendUplink t pid interval).2
  | .acknowledgeDownlink pid tb ack => { l with dl := (l.dl.setAck pid tb ack).2 }
  | .acknowledgeUplink pid tb ack => { l with ul := (l.ul.setAck pid tb ack).2 }
  | .advance dlTx ulTx => (l.advance dlTx ulTx).2
  | .resetHarq => l.resetHarq
  | .enter state => { l with state }

def run (l : Link) (events : List LinkEvent) : Link := events.foldl step l

theorem record_eq (l : Link) (m : Terminal.Measure) (received : Tti) :
    (m.record received l).now = l.now ∧ (m.record received l).params = l.params ∧
      ∀ a, (m.record received l).report? a =
        if m.aspect = a then some ⟨m.index, received⟩ else l.report? a := by
  refine ⟨by cases m <;> rfl, by cases m <;> rfl, fun a ↦ ?_⟩
  cases m <;> cases a <;> rfl

end Link

/-- What was last heard on an aspect, and for how many subframes it has been known. -/
structure Heard where
  value : Nat
  age : Nat
deriving DecidableEq

namespace LinkEvent

def heard (a : Aspect) (before : Option Heard) : LinkEvent → Option Heard
  | boundary _ => before.map fun h ↦ { h with age := h.age + 1 }
  | report m _ => if m.aspect = a then some ⟨m.index, 0⟩ else before
  | _ => before

def lastHeard (a : Aspect) (events : List LinkEvent) : Option Heard :=
  events.foldl (heard a) none

def clock (now : Option Tti) : LinkEvent → Option Tti
  | boundary t => some t
  | _ => now

/-- A boundary follows the one before it, and a report is received at the latest one. -/
def InTime (now : Option Tti) : LinkEvent → Prop
  | boundary t => ∀ last, now = some last → t = last + 1
  | report _ received => now = some received
  | _ => True

def Consecutive : Option Tti → List LinkEvent → Prop
  | _, [] => True
  | now, e :: events => e.InTime now ∧ Consecutive (e.clock now) events

/-- The link after an event: a boundary and a report change what is known of the channel,
everything else leaves it alone. -/
inductive Effect (l : Link) : LinkEvent → Link → Prop
  | boundary (now : Tti) (dl : HarqTable RbgMask) (ul : HarqTable PrbInterval) :
      Effect l (.boundary now)
        { l with
          now
          dlCqi := l.unexpired now l.dlCqi
          dlPmi := l.unexpired now l.dlPmi
          dlRi := l.unexpired now l.dlRi
          ulCqi := l.unexpired now l.ulCqi
          dl, ul }
  | report (m : Terminal.Measure) (received : Tti) :
      Effect l (.report m received) (m.record received l)
  | other {e : LinkEvent} (hheard : ∀ a before, e.heard a before = before)
      (hclock : ∀ now, e.clock now = now) (state : Activation) (dl : HarqTable RbgMask)
      (ul : HarqTable PrbInterval) (buffers : List (List ByteArray)) :
      Effect l e { l with state, dl, ul, buffers }

theorem effect_step (l : Link) (e : LinkEvent) : e.Effect l (l.step e) := by
  cases e with
  | boundary now => exact .boundary now _ _
  | report m received => exact .report m received
  | startDownlink t pid mask bytes =>
      rw [Link.step]
      rcases l.startDownlink_cases t pid mask bytes with
        ⟨e, heq⟩ | ⟨p, sizes, buffers, -, -, -, -, heq⟩ <;> rw [heq]
      · exact .other (fun _ _ ↦ rfl) (fun _ ↦ rfl) l.state l.dl l.ul l.buffers
      · exact .other (fun _ _ ↦ rfl) (fun _ ↦ rfl) l.state _ l.ul buffers
  | resendDownlink t pid mask =>
      rw [Link.step]
      rcases l.resendDownlink_cases t pid mask with
        ⟨e, heq⟩ | ⟨p, alloc, -, -, -, -, -, heq⟩ <;> rw [heq]
      · exact .other (fun _ _ ↦ rfl) (fun _ ↦ rfl) l.state l.dl l.ul l.buffers
      · exact .other (fun _ _ ↦ rfl) (fun _ ↦ rfl) l.state _ l.ul l.buffers
  | startUplink t pid interval bytes =>
      rw [Link.step]
      rcases l.startUplink_cases t pid interval bytes with
        ⟨e, heq⟩ | ⟨p, size, -, -, -, -, heq⟩ <;> rw [heq]
      · exact .other (fun _ _ ↦ rfl) (fun _ ↦ rfl) l.state l.dl l.ul l.buffers
      · exact .other (fun _ _ ↦ rfl) (fun _ ↦ rfl) l.state l.dl _ l.buffers
  | resendUplink t pid interval =>
      rw [Link.step]
      rcases l.resendUplink_cases t pid interval with
        ⟨e, heq⟩ | ⟨p, alloc, -, -, -, -, -, heq⟩ <;> rw [heq]
      · exact .other (fun _ _ ↦ rfl) (fun _ ↦ rfl) l.state l.dl l.ul l.buffers
      · exact .other (fun _ _ ↦ rfl) (fun _ ↦ rfl) l.state l.dl _ l.buffers
  | acknowledgeDownlink pid tb ack =>
      exact .other (fun _ _ ↦ rfl) (fun _ ↦ rfl) l.state _ l.ul l.buffers
  | acknowledgeUplink pid tb ack =>
      exact .other (fun _ _ ↦ rfl) (fun _ ↦ rfl) l.state l.dl _ l.buffers
  | advance dlTx ulTx => exact .other (fun _ _ ↦ rfl) (fun _ ↦ rfl) l.state _ _ l.buffers
  | resetHarq => exact .other (fun _ _ ↦ rfl) (fun _ ↦ rfl) l.state _ _ l.buffers
  | enter state => exact .other (fun _ _ ↦ rfl) (fun _ ↦ rfl) state l.dl l.ul l.buffers

end LinkEvent

/-! ## What a link stores -/

/-- What a link stores of an aspect on which something was last heard: the report while it is
young enough or the bound is too large to forget it, and nothing once it was forgotten. -/
inductive Recalls (bound : Nat) (now : Tti) : Option Heard → Option Report → Prop
  | silent : Recalls bound now none none
  | stored {h : Heard} {received : Tti} (hnow : now = received + h.age)
      (hage : h.age ≤ bound ∨ bound = 5119) :
      Recalls bound now (some h) (some ⟨h.value, received⟩)
  | forgotten {h : Heard} (hsmall : bound ≠ 5119) (hage : bound < h.age) :
      Recalls bound now (some h) none

namespace Recalls

variable {bound : Nat} {now : Tti} {h : Option Heard} {r : Option Report} {l : Link}

theorem boundary (hr : Recalls bound now h r) (hmax : l.params.maxAge = bound)
    (hbound : bound ≤ 5119) :
    Recalls bound (now + 1) (h.map fun h ↦ { h with age := h.age + 1 })
      (l.unexpired (now + 1) r) := by
  cases hr with
  | silent => exact .silent
  | forgotten hsmall hage => exact .forgotten hsmall (Nat.lt_succ_of_lt hage)
  | @stored h received hnow hage =>
      have hnext : now + 1 = received + (h.age + 1) := by rw [hnow, Tti.add_add]
      unfold Link.unexpired
      rw [Option.filter_some, hmax]
      by_cases hlarge : bound = 5119
      · have hnever : (now + 1).diff received ≤ (bound : Int) := by
          rw [hlarge]
          exact Tti.diff_upper _ _
        rw [if_pos (decide_eq_true hnever)]
        exact .stored hnext (.inr hlarge)
      · -- a report is forgotten while its signed age is still its age
        have hage : h.age ≤ bound := hage.resolve_right hlarge
        have hdiff : (now + 1).diff received = ((h.age + 1 : Nat) : Int) := by
          rw [hnext, Tti.diff_add_self (by omega)]
        rw [hdiff]
        by_cases hyoung : h.age + 1 ≤ bound
        · rw [if_pos (decide_eq_true (Int.ofNat_le.mpr hyoung))]
          exact .stored hnext (.inl hyoung)
        · rw [if_neg (by simp only [decide_eq_true_eq, Int.ofNat_le, hyoung, not_false_eq_true])]
          exact .forgotten hlarge (Nat.lt_of_not_le hyoung)

/-- With a bound that leaves room below half a turn, a report counts while it is young. -/
theorem fresh?_eq (hr : Recalls bound l.now h r) (hmax : l.params.maxAge = bound)
    (hbound : bound ≤ 5118) :
    l.fresh? r = (h.filter fun h ↦ decide (h.age ≤ bound)).map (·.value) := by
  cases hr with
  | silent => rfl
  | forgotten _ hage => simp [Link.fresh?, Option.filter_some, Nat.not_le.mpr hage]
  | @stored h received hnow hage =>
      have hage : h.age ≤ bound := hage.resolve_right (by omega)
      have hdiff : l.now.diff received = (h.age : Int) := by
        rw [hnow, Tti.diff_add_self (by omega)]
      simp [Link.fresh?, Option.filter_some, hdiff, hmax, hage]

/-- With the largest bound a report counts during the first half of every turn of the clock. -/
theorem fresh?_of_largest (hr : Recalls 5119 l.now h r) (hmax : l.params.maxAge = 5119) :
    l.fresh? r = (h.filter fun h ↦ decide (h.age % 10240 ≤ 5119)).map (·.value) := by
  cases hr with
  | silent => rfl
  | forgotten hsmall => exact absurd rfl hsmall
  | @stored h received hnow =>
      have hdiff : l.now.diff received = ((h.age : Int) + 5120) % 10240 - 5120 := by
        have hadd := Tti.diff_add_add received h.age 0
        rw [Tti.add_zero, ← hnow] at hadd
        simpa using hadd
      have hiff : 0 ≤ l.now.diff received ↔ h.age % 10240 ≤ 5119 := by
        rw [hdiff]
        omega
      simp [Link.fresh?, Option.filter_some, hmax, Tti.diff_upper, hiff]

end Recalls

/-! ## What a run leaves -/

theorem CellParams.maxAge_eq {p : CellParams} (h : p.staleness ≤ 5119) :
    p.maxAge = p.staleness := by
  unfold maxAge maxCount
  exact Int.bmod_eq_of_le (by omega) (by omega)

/-- The link recalls everything that was heard, at the latest boundary. -/
structure Recollects (now : Option Tti) (heard : Aspect → Option Heard) (l : Link) : Prop where
  clock : ∀ t, now = some t → l.now = t
  silent : now = none → ∀ a, heard a = none
  recalls : ∀ a, Recalls l.params.staleness l.now (heard a) (l.report? a)

namespace Recollects

variable {now : Option Tti} {heard : Aspect → Option Heard} {l : Link}

theorem boundary (h : Recollects now heard l) (hbound : l.params.staleness ≤ 5119) {t : Tti}
    (ht : ∀ last, now = some last → t = last + 1) (a : Aspect) :
    Recalls l.params.staleness t ((heard a).map fun h ↦ { h with age := h.age + 1 })
      (l.unexpired t (l.report? a)) := by
  have hrecall := h.recalls a
  cases hnow : now with
  | none =>
      rw [h.silent hnow a] at hrecall ⊢
      generalize l.report? a = r at hrecall ⊢
      cases hrecall
      exact .silent
  | some last =>
      rw [ht last hnow, ← h.clock last hnow]
      exact hrecall.boundary (CellParams.maxAge_eq hbound) hbound

theorem step (h : Recollects now heard l) (hbound : l.params.staleness ≤ 5119) {e : LinkEvent}
    (he : e.InTime now) :
    Recollects (e.clock now) (fun a ↦ e.heard a (heard a)) (l.step e) ∧
      (l.step e).params = l.params := by
  have heffect := e.effect_step l
  generalize l.step e = l' at heffect ⊢
  cases heffect with
  | boundary t dl ul =>
      refine ⟨⟨fun last hlast ↦ Option.some.inj hlast, by simp [LinkEvent.clock], fun a ↦ ?_⟩, rfl⟩
      have hrecalls := h.boundary hbound he a
      cases a <;> exact hrecalls
  | report m received =>
      obtain ⟨hnow, hparams, hreport⟩ := l.record_eq m received
      refine ⟨⟨fun t ht ↦ hnow.trans (h.clock t ht), fun hnone ↦ ?_, fun a ↦ ?_⟩, hparams⟩
      · have hsome : now = some received := he
        rw [show now = none from hnone] at hsome
        cases hsome
      · rw [hnow, hparams, hreport, LinkEvent.heard]
        split
        · exact .stored ((h.clock received he).trans (Tti.add_zero received).symm)
            (.inl (Nat.zero_le _))
        · exact h.recalls a
  | other hheard hclock state dl ul buffers =>
      simp only [hheard, hclock]
      refine ⟨⟨h.clock, h.silent, fun a ↦ ?_⟩, trivial⟩
      have hrecalls := h.recalls a
      cases a <;> exact hrecalls

theorem run {events : List LinkEvent} (h : Recollects now heard l)
    (hbound : l.params.staleness ≤ 5119) (hevents : LinkEvent.Consecutive now events) :
    ∃ now', Recollects now' (fun a ↦ events.foldl (LinkEvent.heard a) (heard a)) (l.run events) ∧
      (l.run events).params = l.params := by
  induction events generalizing now heard l with
  | nil => exact ⟨now, h, rfl⟩
  | cons e events ih =>
      obtain ⟨he, hrest⟩ := hevents
      obtain ⟨hstep, hparams⟩ := h.step hbound he
      obtain ⟨now', hrun, hparams'⟩ := ih hstep (hparams ▸ hbound) hrest
      exact ⟨now', hrun, hparams'.trans hparams⟩

theorem of_silent (h : ∀ a, l.report? a = none) : Recollects none (fun _ ↦ none) l where
  clock := by simp
  silent := fun _ _ ↦ rfl
  recalls := by
    intro a
    rw [h a]
    exact .silent

end Recollects

namespace Link

/-- The link takes the channel to be what is known of it. -/
structure Judges (known : Aspect → Option Nat) (l : Link) : Prop where
  fresh : ∀ a, l.fresh? (l.report? a) = known a
  stale : l.isDlCqiStale = (known .downlinkQuality).isNone
  downlinkMcs : l.maxMcs .downlink =
    min (((known .downlinkQuality).map cqiToMcs).getD l.params.fallbackMcs) l.mcsCapDl
  uplinkMcs : l.maxMcs .uplink =
    min (((known .uplinkQuality).map cqiToMcs).getD l.params.fallbackMcs) l.mcsCapUl
  layers : l.nofLayers .downlink = if known .rank = some 2 then 2 else 1
  level : l.aggrLevel = ((known .downlinkQuality).map fun cqi ↦
    aggrLevelForCqi cqi l.params.dciBits l.maxAggrLevel).getD l.maxAggrLevel

theorem Judges.of_fresh {known : Aspect → Option Nat} {l : Link}
    (h : ∀ a, l.fresh? (l.report? a) = known a) : l.Judges known where
  fresh := h
  stale := congrArg Option.isNone (h .downlinkQuality)
  downlinkMcs := by
    rw [← h .downlinkQuality]
    rfl
  uplinkMcs := by
    rw [← h .uplinkQuality]
    rfl
  layers := by
    rw [← h .rank]
    rfl
  level := by
    rw [← h .downlinkQuality, aggrLevel, report?]
    cases l.fresh? l.dlCqi <;> rfl

variable {l : Link} {events : List LinkEvent}

/-- With a bound below the largest, a report counts exactly while it is young, however often
the clock comes round. -/
theorem judges_by_age (hsilent : ∀ a, l.report? a = none) (hbound : l.params.staleness ≤ 5118)
    (hevents : LinkEvent.Consecutive none events) :
    (l.run events).Judges fun a ↦ ((LinkEvent.lastHeard a events).filter fun h ↦
      decide (h.age ≤ l.params.staleness)).map (·.value) := by
  obtain ⟨now, hrun, hparams⟩ := (Recollects.of_silent hsilent).run (by omega) hevents
  apply Judges.of_fresh
  intro a
  have hrecalls := hrun.recalls a
  rw [hparams] at hrecalls
  exact hrecalls.fresh?_eq (by rw [hparams, CellParams.maxAge_eq (by omega)]) hbound

/-- The quality is reported before the clock comes round, the rank after it. -/
def wrappingReports : List LinkEvent :=
  [.boundary (Tti.ofNat 10238), .report (.cqi 15) (Tti.ofNat 10238), .boundary (Tti.ofNat 10239),
    .boundary (Tti.ofNat 0), .report (.rank 2) (Tti.ofNat 0), .resetHarq, .boundary (Tti.ofNat 1)]

def impatientLink : Link :=
  create ⟨70⟩ 0 { index := 0, cell := {}, harq := {}, staleness := 2, fallbackMcs := 0 } true 3
    none none

theorem consecutive_wrappingReports : LinkEvent.Consecutive none wrappingReports := by
  refine ⟨fun _ hnone ↦ (by cases hnone), rfl, fun last hlast ↦ ?_, fun last hlast ↦ ?_, rfl,
    trivial, fun last hlast ↦ ?_, trivial⟩ <;>
  · obtain rfl := Option.some.inj hlast
    decide

theorem judges_wrappingReports :
    (∀ a, impatientLink.report? a = none) ∧ impatientLink.params.staleness ≤ 5118 ∧
      LinkEvent.Consecutive none wrappingReports ∧
      ((impatientLink.run wrappingReports).Judges fun a ↦
        ((LinkEvent.lastHeard a wrappingReports).filter fun h ↦
          decide (h.age ≤ impatientLink.params.staleness)).map (·.value)) ∧
      LinkEvent.lastHeard .downlinkQuality wrappingReports = some ⟨15, 3⟩ ∧
      LinkEvent.lastHeard .rank wrappingReports = some ⟨2, 1⟩ := by
  have hsilent : ∀ a, impatientLink.report? a = none := by
    intro a
    cases a <;> rfl
  exact ⟨hsilent, by decide, consecutive_wrappingReports,
    judges_by_age hsilent (by decide) consecutive_wrappingReports, rfl, rfl⟩

/-- With the largest bound a report counts whenever its age, taken round the clock, does. -/
theorem judges_of_largest (hsilent : ∀ a, l.report? a = none) (hbound : l.params.staleness = 5119)
    (hevents : LinkEvent.Consecutive none events) :
    (l.run events).Judges fun a ↦ ((LinkEvent.lastHeard a events).filter fun h ↦
      decide (h.age % 10240 ≤ 5119)).map (·.value) := by
  obtain ⟨now, hrun, hparams⟩ := (Recollects.of_silent hsilent).run (by omega) hevents
  apply Judges.of_fresh
  intro a
  have hrecalls := hrun.recalls a
  rw [hparams, hbound] at hrecalls
  refine hrecalls.fresh?_of_largest ?_
  rw [hparams, CellParams.maxAge_eq (by omega), hbound]
  rfl

end Link

/-! ## A whole turn -/

namespace LinkEvent

def boundariesAfter (t : Tti) : Nat → List LinkEvent
  | 0 => []
  | n + 1 => .boundary (t + 1) :: boundariesAfter (t + 1) n

/-- A report of the best quality, and `n` boundaries after it. -/
def reportAndWait (n : Nat) : List LinkEvent :=
  .boundary (Tti.ofNat 0) :: .report (.cqi 15) (Tti.ofNat 0) :: boundariesAfter (Tti.ofNat 0) n

theorem heard_boundariesAfter (a : Aspect) (h : Option Heard) (t : Tti) (n : Nat) :
    (boundariesAfter t n).foldl (heard a) h = h.map fun h ↦ { h with age := h.age + n } := by
  induction n generalizing t h with
  | zero => cases h <;> rfl
  | succ n ih =>
      rw [boundariesAfter, List.foldl_cons, ih, heard, Option.map_map]
      cases h with
      | none => rfl
      | some h => simp [Nat.add_assoc, Nat.add_comm 1]

theorem consecutive_boundariesAfter (t : Tti) (n : Nat) :
    Consecutive (some t) (boundariesAfter t n) := by
  induction n generalizing t with
  | zero => trivial
  | succ n ih => exact ⟨fun last hlast ↦ Option.some.inj hlast ▸ rfl, ih (t + 1)⟩

theorem consecutive_reportAndWait (n : Nat) : Consecutive none (reportAndWait n) :=
  ⟨fun _ hnone ↦ (by cases hnone), rfl, consecutive_boundariesAfter (Tti.ofNat 0) n⟩

theorem lastHeard_reportAndWait (n : Nat) :
    lastHeard .downlinkQuality (reportAndWait n) = some ⟨15, n⟩ := by
  have h := heard_boundariesAfter .downlinkQuality (some ⟨15, 0⟩) (Tti.ofNat 0) n
  rw [Option.map_some, Nat.zero_add] at h
  exact h

end LinkEvent

def patientConfig : Config := { timing := { staleness := 5119 } }

def patientLink : Link :=
  Link.create ⟨70⟩ 0 { index := 0, cell := {}, harq := {}, staleness := 5119, fallbackMcs := 0 }
    true 3 none none

/-- With the largest bound a report that is 10240 subframes old counts as fresh. -/
theorem expired_report_counts_again :
    patientConfig.check = .ok () ∧ patientLink.params ∈ CellParams.all patientConfig ∧
      LinkEvent.Consecutive none (LinkEvent.reportAndWait 10240) ∧
      LinkEvent.lastHeard .downlinkQuality (LinkEvent.reportAndWait 10240) = some ⟨15, 10240⟩ ∧
      (patientLink.run (LinkEvent.reportAndWait 10240)).isDlCqiStale = false := by
  have hturn := LinkEvent.consecutive_reportAndWait 10240
  have hheard := LinkEvent.lastHeard_reportAndWait 10240
  have hjudges := Link.judges_of_largest (l := patientLink) (fun a ↦ by cases a <;> rfl) rfl hturn
  have hvalid : patientConfig.violations = [] := by decide +kernel
  refine ⟨by rw [Config.check, hvalid]; rfl, List.mem_of_getElem? (i := 0) rfl, hturn, hheard, ?_⟩
  rw [hjudges.stale, hheard]
  decide

end MacScheduler
