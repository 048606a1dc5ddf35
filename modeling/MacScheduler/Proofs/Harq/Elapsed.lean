import MacScheduler.Proofs.Harq.Transmissions

/-!
# True time

A table sees only points of the clock, and compares them by their signed
distance.  Here the subframes gone by are counted beside it, however often the
clock comes round, and for every slot it is written down when its block was
first sent and when it was last sent.  While the clock keeps pace, the count
agrees with what the table concludes from the points: a block is answered, sent
again or given up one round trip after each transmission, and never outlives the
transmissions it is allowed.
-/

namespace MacScheduler

namespace Tti

/-- Subframes until the clock shows `b`, counted from `a`. -/
def stepsTo (a b : Tti) : Nat := (b.index + period - a.index) % period

theorem stepsTo_add {t : Tti} {d : Nat} (hd : d < 10240) : t.stepsTo (t + d) = d := by
  unfold stepsTo period
  rw [index_add]
  have := t.index_lt
  omega

end Tti

/-- When a block was first and last sent, in subframes gone by. -/
structure Span where
  first : Nat
  last : Nat

/-- The times written down for a slot, after a transmission from it at `time` if there was one. -/
def Span.after (time : Nat) (before : Option Span) : Option Sent → Option Span
  | none => before
  | some s =>
      if s.grant.isRetx then before.map fun span ↦ { span with last := time }
      else some ⟨time, time⟩

/-- Subframes by which an operation moves the clock on.  The count starts with the first point. -/
def HarqOp.subframes {α : Type} (now : Option Tti) : HarqOp α → Nat
  | .advance t => (now.map fun last ↦ last.stepsTo t).getD 0
  | _ => 0

/-- A table, the subframes gone by, and the times of every slot. -/
structure Chronicle (α : Type) where
  table : HarqTable α
  time : Nat := 0
  span : Nat → Nat → Option Span := fun _ _ ↦ none

namespace Chronicle

variable {α : Type}

def perform (c : Chronicle α) (op : HarqOp α) : Chronicle α where
  table := (c.table.perform op).2
  time := c.time + op.subframes c.table.lastTti
  span pid tb :=
    Span.after (c.time + op.subframes c.table.lastTti) (c.span pid tb) (c.table.sentAt pid tb op)

def run (c : Chronicle α) (ops : List (HarqOp α)) : Chronicle α := ops.foldl perform c

end Chronicle

/-! ## A block in flight, dated -/

/-- The block of a slot was last sent `elapsed` subframes ago, and each of its transmissions
one round trip after the one before it. -/
structure Dated (roundTrip maxRetx : Nat) (now : Tti) (time : Nat) (tx : Option Tti) (b : TbSlot)
    (span : Span) (elapsed : Nat) : Prop where
  sent : ∃ t, tx = some t ∧ now = t + elapsed
  time_eq : time = span.last + elapsed
  within : elapsed ≤ roundTrip
  last_eq : span.last = span.first + b.nofRetx * roundTrip
  bounded : b.nofRetx ≤ maxRetx
  pending : b.isPendingRetx = true → b.nofRetx < maxRetx

/-- A slot that sent nothing carries nothing it did not carry before. -/
theorem SlotMove.stays {roundTrip maxRetx : Nat} {tx tx' : Option Tti} {b b' : TbSlot}
    (h : SlotMove roundTrip maxRetx tx b tx' b' none) (hstate : b'.state ≠ .empty) :
    b.state ≠ .empty := by
  cases h with
  | quiet _ kept _ => exact (kept hstate).1

namespace Dated

variable {roundTrip maxRetx time elapsed d : Nat} {now : Tti} {tx tx' : Option Tti}
  {b b' : TbSlot} {span : Span} {out : Option Sent}

theorem start (now : Tti) (time : Nat) (b : TbSlot) (tbs mcs : Nat) :
    Dated roundTrip maxRetx now time (some now) (b.start tbs mcs) ⟨time, time⟩ 0 where
  sent := ⟨now, rfl, (Tti.add_zero now).symm⟩
  time_eq := rfl
  within := Nat.zero_le _
  last_eq := by simp [TbSlot.start]
  bounded := Nat.zero_le _
  pending := by simp [TbSlot.isPendingRetx, TbSlot.start]

theorem resend {t : Tti} (h : Dated roundTrip maxRetx (t + roundTrip) time (some t) b span elapsed)
    (hr : roundTrip ≤ 5119) (hpending : b.isPendingRetx = true) :
    Dated roundTrip maxRetx (t + roundTrip) time (some (t + roundTrip)) b.resend
      { span with last := time } 0 where
  sent := ⟨t + roundTrip, rfl, (Tti.add_zero _).symm⟩
  time_eq := rfl
  within := Nat.zero_le _
  last_eq := by
    obtain ⟨t', ht', hnow⟩ := h.sent
    cases ht'
    -- the point one round trip later is reached for the first time
    have helapsed : elapsed = roundTrip := by
      have := Tti.add_eq_add_iff.mp hnow
      have := h.within
      omega
    calc time = span.last + roundTrip := by rw [h.time_eq, helapsed]
      _ = span.first + b.resend.nofRetx * roundTrip := by
        rw [h.last_eq, TbSlot.resend, Nat.add_mul, Nat.one_mul, Nat.add_assoc]
  bounded := h.pending hpending
  pending := by simp [TbSlot.isPendingRetx, TbSlot.resend]

/-- A block that stays as it is gets older. -/
theorem age (h : Dated roundTrip maxRetx now time tx b span elapsed) (hr : roundTrip ≤ 5119)
    (hd : d + roundTrip ≤ 5120) {t : Tti} {e : Nat} (ht : tx = some t) (hnow : now + d = t + e)
    (he : e ≤ roundTrip) (hretx : b'.nofRetx = b.nofRetx)
    (hpending : b'.isPendingRetx = true → b.nofRetx < maxRetx) :
    Dated roundTrip maxRetx (now + d) (time + d) tx b' span (elapsed + d) := by
  obtain ⟨t', ht', hbefore⟩ := h.sent
  obtain rfl : t = t' := Option.some.inj (ht.symm.trans ht')
  have helapsed : now + d = t + (elapsed + d) := by rw [hbefore, Tti.add_add]
  have hwithin : elapsed + d = e := by
    have := Tti.add_eq_add_iff.mp (helapsed.symm.trans hnow)
    have := h.within
    omega
  exact
    { sent := ⟨t, ht, helapsed⟩
      time_eq := by rw [h.time_eq, Nat.add_assoc]
      within := hwithin ▸ he
      last_eq := by rw [hretx, h.last_eq]
      bounded := hretx ▸ h.bounded
      pending := fun hp ↦ hretx ▸ hpending hp }

/-- A slot makes a move while the clock goes on by `d`: what it then carries is dated. -/
theorem move (hr : roundTrip ≤ 5119) (hd : d + roundTrip ≤ 5120)
    {before : Option Span}
    (h : b.state ≠ .empty → ∃ span elapsed, before = some span ∧
      Dated roundTrip maxRetx now time tx b span elapsed)
    (hmove : SlotMove roundTrip maxRetx tx b tx' b' out)
    (hout : ∀ s, out = some s → d = 0 ∧ s.t = now)
    (hlive : ∃ t e, tx' = some t ∧ now + d = t + e ∧ e ≤ roundTrip) (hstate : b'.state ≠ .empty) :
    ∃ span elapsed, Span.after (time + d) before out = some span ∧
      Dated roundTrip maxRetx (now + d) (time + d) tx' b' span elapsed := by
  cases hmove with
  | quiet _ kept bound =>
      obtain ⟨hbefore, -, -, hretx, rfl⟩ := kept hstate
      obtain ⟨t, e, ht, hnow, he⟩ := hlive
      obtain ⟨span, elapsed, hspan, hdated⟩ := h hbefore
      exact ⟨span, elapsed + d, hspan, hdated.age hr hd ht hnow he hretx
        fun hp ↦ (bound hp).elim hdated.pending id⟩
  | started t tbs mcs =>
      obtain ⟨rfl, rfl⟩ := hout _ rfl
      rw [Tti.add_zero]
      exact ⟨⟨time, time⟩, 0, rfl, .start t time b tbs mcs⟩
  | @resent t _ hpending =>
      obtain ⟨rfl, rfl⟩ := hout _ rfl
      have hbefore : b.state ≠ .empty := by simp [(TbSlot.isPendingRetx_iff.mp hpending).1]
      obtain ⟨span, elapsed, rfl, hdated⟩ := h hbefore
      rw [Tti.add_zero]
      exact ⟨{ span with last := time }, 0, rfl, hdated.resend hr hpending⟩

end Dated

/-! ## Runs -/

namespace HarqOp

variable {α : Type} {op : HarqOp α}

theorem KeepsPace.moves {roundTrip : Nat} {now : Tti} (hr : roundTrip ≤ 5119)
    (hop : op.KeepsPace roundTrip (some now)) :
    op.subframes (some now) + roundTrip ≤ 5120 ∧
      op.clock (some now) = some (now + op.subframes (some now)) := by
  cases op with
  | advance t =>
      obtain ⟨d, -, hle, rfl⟩ := hop now rfl
      have hsteps : now.stepsTo (now + d) = d := Tti.stepsTo_add (by omega)
      simp only [subframes, clock, Option.map_some, Option.getD_some, hsteps]
      exact ⟨hle, trivial⟩
  | _ =>
      simp only [subframes, clock, Tti.add_zero]
      exact ⟨by omega, trivial⟩

end HarqOp

namespace HarqTable

variable {α : Type} {h : HarqTable α} {pid tb : Nat} {b : TbSlot} {op : HarqOp α}

theorem t_of_sentAt (hop : op.KeepsPace h.roundTrip h.lastTti) {s : Sent}
    (hs : h.sentAt pid tb op = some s) :
    h.lastTti = some s.t ∧ op.subframes h.lastTti = 0 := by
  unfold sentAt at hs
  split at hs
  · split at hs
    · obtain ⟨g, -, rfl⟩ := Option.map_eq_some_iff.mp hs
      exact ⟨hop, rfl⟩
    · cases hs
  · split at hs
    · obtain ⟨g, -, rfl⟩ := Option.map_eq_some_iff.mp hs
      exact ⟨hop, rfl⟩
    · cases hs
  · cases hs

/-- The process of a block in flight was sent at most a round trip ago. -/
theorem Timely.sent (ht : h.Timely) {now : Tti} (hlast : h.lastTti = some now)
    (hb : h.slot? pid tb = some b) (hstate : b.state ≠ .empty) :
    ∃ t e, h.txAt pid = some t ∧ now = t + e ∧ e ≤ h.roundTrip := by
  obtain ⟨p, hp, hslot⟩ := of_slot? hb
  rcases (ht now (.inr hlast)).of_get? hp with hempty | ⟨t, e, hflight⟩
  · exact absurd (HarqProcess.isEmpty_iff.mp hempty b (List.mem_of_getElem? hslot)) hstate
  · exact ⟨t, e, (txAt_eq hp).trans hflight.sent, hflight.now_eq, hflight.within⟩

end HarqTable

namespace Chronicle

variable {α : Type} {c : Chronicle α}

def start (roundTrip nofTbs maxRetx : Nat) : Chronicle α :=
  { table := .empty roundTrip nofTbs maxRetx }

/-- The table is timely, and every block in flight is dated. -/
structure Kept (c : Chronicle α) : Prop where
  timely : c.table.Timely
  dated : ∀ pid tb b, c.table.slot? pid tb = some b → b.state ≠ .empty →
    ∃ now, c.table.lastTti = some now ∧ ∃ span elapsed, c.span pid tb = some span ∧
      Dated c.table.roundTrip c.table.maxRetx now c.time (c.table.txAt pid) b span elapsed

theorem Kept.start (roundTrip nofTbs maxRetx : Nat) :
    (Chronicle.start roundTrip nofTbs maxRetx : Chronicle α).Kept where
  timely := .empty roundTrip nofTbs maxRetx
  dated := by
    intro pid tb b hb hstate
    obtain ⟨p, hp, hslot⟩ := HarqTable.of_slot? hb
    obtain ⟨i, -, rfl⟩ := List.mem_map.mp (List.mem_of_getElem? hp)
    obtain rfl : b = {} := List.eq_of_mem_replicate (List.mem_of_getElem? hslot)
    exact absurd rfl hstate

theorem Kept.perform (hc : c.Kept) (hpos : 0 < c.table.roundTrip) (hr : c.table.roundTrip ≤ 5119)
    {op : HarqOp α} (hop : op.KeepsPace c.table.roundTrip c.table.lastTti) :
    (c.perform op).Kept := by
  have htimely := hc.timely.perform hpos hr hop
  refine ⟨htimely, fun pid tb b' hb' hstate ↦ ?_⟩
  obtain ⟨hround, hmax⟩ := c.table.perform_bounds op
  have hclock := HarqTable.lastTti_perform hpos hop
  obtain ⟨b, hb⟩ : ∃ b, c.table.slot? pid tb = some b := by
    cases hslot : c.table.slot? pid tb with
    | none => exact absurd hb' (by simp [Chronicle.perform, (HarqTable.sentAt_of_none hslot op).2])
    | some b => exact ⟨b, rfl⟩
  obtain ⟨b'', hb'', hmove⟩ := HarqTable.move_perform hc.timely hr hop hb
  obtain rfl : b'' = b' := Option.some.inj (hb''.symm.trans hb')
  simp only [Chronicle.perform, hround, hmax, hclock]
  cases hlast : c.table.lastTti with
  | none =>
      -- before the first point nothing is sent, and nothing is in flight
      cases hsent : c.table.sentAt pid tb op with
      | some s => simp [(HarqTable.t_of_sentAt hop hsent).1] at hlast
      | none =>
          obtain ⟨now, hnow, -⟩ := hc.dated pid tb b hb ((hsent ▸ hmove).stays hstate)
          simp [hnow] at hlast
  | some now =>
      rw [hlast] at hop hclock
      obtain ⟨hd, hnow⟩ := hop.moves hr
      refine ⟨now + op.subframes (some now), hnow, ?_⟩
      refine Dated.move hr hd (fun hbefore ↦ ?_) hmove (fun s hs ↦ ?_) ?_ hstate
      · obtain ⟨now', hnow', hdated⟩ := hc.dated pid tb b hb hbefore
        obtain rfl : now = now' := Option.some.inj (hlast.symm.trans hnow')
        exact hdated
      · rw [← hlast] at hop
        obtain ⟨ht, hzero⟩ := HarqTable.t_of_sentAt hop hs
        rw [hlast] at ht hzero
        exact ⟨hzero, (Option.some.inj ht).symm⟩
      · rw [← hround]
        exact htimely.sent (hclock.trans hnow) hb' hstate

theorem bounds_perform (c : Chronicle α) (op : HarqOp α) :
    (c.perform op).table.roundTrip = c.table.roundTrip ∧
      (c.perform op).table.maxRetx = c.table.maxRetx := c.table.perform_bounds op

theorem Kept.run {ops : List (HarqOp α)} (hc : c.Kept) (hpos : 0 < c.table.roundTrip)
    (hr : c.table.roundTrip ≤ 5119) (hpaced : Paced c.table.roundTrip c.table.lastTti ops) :
    (c.run ops).Kept ∧ (c.run ops).table.roundTrip = c.table.roundTrip ∧
      (c.run ops).table.maxRetx = c.table.maxRetx := by
  induction ops generalizing c with
  | nil => exact ⟨hc, rfl, rfl⟩
  | cons op ops ih =>
      obtain ⟨hop, hrest⟩ := hpaced
      obtain ⟨hround, hmax⟩ := c.bounds_perform op
      have hclock : (c.perform op).table.lastTti = op.clock c.table.lastTti :=
        HarqTable.lastTti_perform hpos hop
      have hnext := ih (hc.perform hpos hr hop)
      rw [hround, hmax, hclock] at hnext
      exact hnext hpos hr hrest

/-- A block that is not resolved waits for feedback, or for a retransmission yet to come; and
it is younger than the transmissions it is allowed. -/
structure OnSchedule (roundTrip maxRetx : Nat) (now : Tti) (time : Nat) (p : HarqProcess α)
    (b : TbSlot) (span : Span) : Prop where
  waits : (b.awaiting = true ∧ time < span.last + roundTrip) ∨
    (b.isPendingRetx = true ∧ ∃ left, time + left = span.last + roundTrip ∧
      p.retxTti = some (now + left))
  ends : time < span.first + (maxRetx + 1) * roundTrip

theorem Kept.onSchedule (hc : c.Kept) (hpos : 0 < c.table.roundTrip)
    (hr : c.table.roundTrip ≤ 5119) {pid tb : Nat} {p : HarqProcess α} {b : TbSlot}
    (hp : c.table.get? pid = some p) (hb : p.slots[tb]? = some b) (hstate : b.state ≠ .empty) :
    ∃ now span, c.table.lastTti = some now ∧ c.span pid tb = some span ∧
      OnSchedule c.table.roundTrip c.table.maxRetx now c.time p b span := by
  have hslot : c.table.slot? pid tb = some b := (HarqTable.slot?_eq hp tb).trans hb
  obtain ⟨now, hlast, span, elapsed, hspan, hdated⟩ := hc.dated pid tb b hslot hstate
  refine ⟨now, span, hlast, hspan, ?_⟩
  have hmem := List.mem_of_getElem? hb
  have hlast_eq := hdated.last_eq
  have htime := hdated.time_eq
  rcases (hc.timely now (.inr hlast)).of_get? hp with hempty | ⟨t, e, hflight⟩
  · exact absurd (HarqProcess.isEmpty_iff.mp hempty b hmem) hstate
  have hwithin := hflight.within
  obtain rfl : e = elapsed := by
    obtain ⟨t', ht', hnow⟩ := hdated.sent
    obtain rfl : t = t' := Option.some.inj
      (hflight.sent.symm.trans ((HarqTable.txAt_eq hp).symm.trans ht'))
    have := Tti.add_eq_add_iff.mp (hflight.now_eq.symm.trans hnow)
    have := hdated.within
    omega
  cases hawait : b.awaiting with
  | true =>
      have hlt := hflight.awaiting b hmem hawait
      have hle := Nat.mul_le_mul_right c.table.roundTrip hdated.bounded
      refine ⟨.inl ⟨hawait, by omega⟩, ?_⟩
      rw [Nat.add_mul]
      omega
  | false =>
      have hsound := (hc.timely.sound.of_get? hp).1 b hmem
      have hpending := hsound.isPendingRetx hstate hawait
      have hle := Nat.mul_le_mul_right c.table.roundTrip (hdated.pending hpending)
      refine ⟨.inr ⟨hpending, c.table.roundTrip - e, by omega, ?_⟩, ?_⟩
      · rw [hflight.pending b hmem hpending, hflight.now_eq, Tti.add_add,
          Nat.add_sub_cancel' hwithin]
      · rw [Nat.succ_mul] at hle
        rw [Nat.add_mul]
        omega

/-- Every block that is not resolved is on schedule, and a process takes fresh data once its
blocks have had the time of all their transmissions. -/
structure Punctual (roundTrip maxRetx : Nat) (c : Chronicle α) : Prop where
  blocks : ∀ pid p tb b, c.table.get? pid = some p → p.slots[tb]? = some b → b.state ≠ .empty →
    ∃ now span, c.table.lastTti = some now ∧ c.span pid tb = some span ∧
      OnSchedule roundTrip maxRetx now c.time p b span
  free : ∀ pid p, c.table.get? pid = some p →
    (∀ tb span, c.span pid tb = some span →
      span.first + (maxRetx + 1) * roundTrip ≤ c.time) →
    ∀ t sizes alloc, sizes.length - 1 < c.table.nofTbs →
      ∃ grants, (c.table.newTx pid t sizes alloc).1 = .ok grants

theorem Kept.punctual (hc : c.Kept) (hpos : 0 < c.table.roundTrip)
    (hr : c.table.roundTrip ≤ 5119) : c.Punctual c.table.roundTrip c.table.maxRetx where
  blocks := fun _ _ _ _ hp hb hstate ↦ hc.onSchedule hpos hr hp hb hstate
  free := by
    intro pid p hp hold t sizes alloc hsizes
    have hempty : p.isEmpty = true := by
      rw [HarqProcess.isEmpty_iff]
      intro b hmem
      by_contra hstate
      obtain ⟨tb, hb⟩ := List.mem_iff_getElem?.mp hmem
      obtain ⟨now, span, -, hspan, hon⟩ := hc.onSchedule hpos hr hp hb hstate
      exact absurd hon.ends (Nat.not_lt.mpr (hold tb span hspan))
    exact ⟨_, congrArg Prod.fst (HarqTable.newTx_of_isEmpty hp hempty t hsizes alloc)⟩

/-- While the clock keeps pace, every table is punctual, however often the clock comes round. -/
theorem punctual_of_paced {roundTrip : Nat} (hmin : 8 ≤ roundTrip) (hmax : roundTrip ≤ 16)
    (nofTbs maxRetx : Nat) {ops : List (HarqOp α)} (hpaced : Paced roundTrip none ops) :
    ((Chronicle.start roundTrip nofTbs maxRetx).run ops).Punctual roundTrip maxRetx := by
  have hround : (Chronicle.start roundTrip nofTbs maxRetx : Chronicle α).table.roundTrip =
      roundTrip := by
    simp [Chronicle.start, HarqTable.empty, HarqTable.roundTrip]
  have hrun := @Kept.run α _ ops (.start roundTrip nofTbs maxRetx)
  rw [hround] at hrun
  obtain ⟨hkept, hround', hmax'⟩ := hrun (by omega) (by omega) hpaced
  have hpunctual := hkept.punctual (by omega) (by omega)
  rw [hround', hmax'] at hpunctual
  exact hpunctual

/-- The clock comes round while both blocks of a process are in flight. -/
theorem punctual_wrappingOps :
    Paced 8 none HarqTable.wrappingOps ∧
      ((Chronicle.start 8 2 4).run HarqTable.wrappingOps).Punctual 8 4 ∧
      ((Chronicle.start 8 2 4).run HarqTable.wrappingOps).time = 8 :=
  ⟨HarqTable.paced_wrappingOps,
    punctual_of_paced (by decide) (by decide) 2 4 HarqTable.paced_wrappingOps, by decide⟩

end Chronicle

end MacScheduler
