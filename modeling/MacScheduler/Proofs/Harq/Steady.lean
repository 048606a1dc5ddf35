import MacScheduler.Proofs.Harq.Wane
import MacScheduler.Terminal.Snapshot

/-!
# Tables that keep pace

A table that follows the clock subframe by subframe is steady: its blocks are in
time and have an allocation, and whatever is due now was sent one round trip ago.
Sending adds one transmission, at the present point; nothing else adds any.
-/

namespace MacScheduler

namespace HarqProcess

variable {α : Type}

theorem hasPendingRetx_start (p : HarqProcess α) (t : Tti) (sizes : List (Nat × Nat)) (alloc : α)
    (now : Tti) : (p.start t sizes alloc).2.hasPendingRetx now = false := by
  simp [hasPendingRetx, start]

theorem hasPendingRetx_resend (p : HarqProcess α) (t : Tti) (alloc : α) (now : Tti) :
    (p.resend t alloc).2.hasPendingRetx now = false := by
  simp [hasPendingRetx, resend]

theorem grants_resend_ne_nil {p : HarqProcess α} {t : Tti} (hdue : p.hasPendingRetx t = true)
    (alloc : α) : (p.resend t alloc).1 ≠ [] := by
  obtain ⟨-, b, hb, hpending⟩ := hasPendingRetx_iff.mp hdue
  intro hnil
  have hmem : b ∈ p.slots.filter TbSlot.isPendingRetx := List.mem_filter.mpr ⟨hb, hpending⟩
  rw [List.map_eq_nil_iff.mp hnil] at hmem
  cases hmem

theorem isRetx_of_mem_resend {p : HarqProcess α} {t : Tti} {alloc : α} {g : TbGrant}
    (hg : g ∈ (p.resend t alloc).1) : g.isRetx = true := by
  obtain ⟨b, -, rfl⟩ := List.mem_map.mp hg
  rfl

theorem isRetx_of_mem_start {p : HarqProcess α} {t : Tti} {sizes : List (Nat × Nat)} {alloc : α}
    {g : TbGrant} (hg : g ∈ (p.start t sizes alloc).1) : g.isRetx = false := by
  obtain ⟨i, hi⟩ := List.mem_iff_getElem?.mp hg
  have hi : (startSlots p.slots sizes).2[i]? = some g := hi
  rw [getElem?_startSlots_grants] at hi
  split at hi
  · cases hi
    rfl
  · cases hi

end HarqProcess

namespace HarqTable

variable {α : Type} {h h' : HarqTable α} {now : Tti} {roundTrip : Nat}

/-- Process `pid` holds blocks that were last sent at `sent` on `alloc`. -/
def Carries (h : HarqTable α) (pid : Nat) (sent : Tti) (alloc : α) : Prop :=
  ∃ p ∈ h.procs, p.isEmpty = false ∧ p.pid = pid ∧ p.txTti = some sent ∧ p.alloc = some alloc

/-- The table kept pace up to `now`, and all its blocks have an allocation. -/
structure Steady (roundTrip : Nat) (now : Tti) (h : HarqTable α) : Prop where
  timely : h.TimelyAt now
  roundTrip_eq : h.roundTrip = roundTrip
  nofTbs_pos : 0 < h.nofTbs
  slots_pos : ∀ p ∈ h.procs, 0 < p.slots.length
  held : ∀ p ∈ h.procs, p.isEmpty = false → ∃ alloc, p.alloc = some alloc

theorem Wanes.carries (hw : h.Wanes h') {pid : Nat} {sent : Tti} {alloc : α}
    (hc : h'.Carries pid sent alloc) : h.Carries pid sent alloc := by
  obtain ⟨q, hq, hbusy, hpid, hsent, halloc⟩ := hc
  obtain ⟨p, hp, hpq⟩ := hw.procs q hq
  obtain ⟨hbusy', hsent', halloc'⟩ := hpq.kept hbusy
  exact ⟨p, hp, hbusy', hpq.pid_eq ▸ hpid, hsent'.symm.trans hsent, halloc'.symm.trans halloc⟩

theorem Blank.not_carries (hb : h.Blank) {pid : Nat} {sent : Tti} {alloc : α} :
    ¬h.Carries pid sent alloc := by
  rintro ⟨p, hp, hbusy, -⟩
  rw [hb p hp] at hbusy
  cases hbusy

theorem Blank.empty (roundTrip nofTbs maxRetx : Nat) :
    (HarqTable.empty roundTrip nofTbs maxRetx : HarqTable α).Blank := by
  intro p hp
  obtain ⟨pid, -, rfl⟩ := List.mem_map.mp hp
  simp [HarqProcess.isEmpty, HarqProcess.idle, TbSlot.isEmpty]

theorem of_carries_put {pid : Nat} {q : HarqProcess α} {alloc : α} (hpid : q.pid = pid)
    (hsent : q.txTti = some now) (halloc : q.alloc = some alloc) {k : Nat} {sent : Tti} {a : α}
    (hc : (h.put pid q).Carries k sent a) :
    h.Carries k sent a ∨ k = pid ∧ sent = now ∧ a = alloc := by
  obtain ⟨p, hp, hbusy, hk, hpsent, hpalloc⟩ := hc
  rcases of_mem_put hp with hp | rfl
  · exact .inl ⟨p, hp, hbusy, hk, hpsent, hpalloc⟩
  · refine .inr ⟨hk.symm.trans hpid, ?_, ?_⟩
    · exact Option.some.inj (hpsent.symm.trans hsent)
    · exact Option.some.inj (hpalloc.symm.trans halloc)

/-- Where only one process had a retransmission due, sending it leaves the table quiet. -/
theorem Sound.quiet_put (hs : h.Sound) {pid : Nat} {q : HarqProcess α} {t : Tti}
    (honly : ∀ p ∈ h.procs, p.hasPendingRetx t = true → p.pid = pid)
    (hq : q.hasPendingRetx t = false) : (h.put pid q).Quiet t := by
  intro p hp
  obtain ⟨i, hi⟩ := List.mem_iff_getElem?.mp hp
  have hi : (h.put pid q).get? i = some p := hi
  rw [get?_put] at hi
  split at hi
  · obtain rfl := Option.some.inj hi
    exact hq
  · rename_i hne
    by_contra hdue
    have hipid : p.pid = pid := honly p (List.mem_of_getElem? hi) (by simpa using hdue)
    have hlt : i < h.nofProcs := (List.getElem?_eq_some_iff.mp hi).1
    exact hne ⟨hipid.symm.trans (hs.pid_eq i p hi), hlt⟩

theorem Sound.get?_pid (hs : h.Sound) {p : HarqProcess α} (hp : p ∈ h.procs) :
    h.get? p.pid = some p := by
  obtain ⟨i, hi⟩ := List.mem_iff_getElem?.mp hp
  exact (hs.pid_eq i p hi).symm ▸ hi

theorem newRetx_of_due {pid : Nat} {p : HarqProcess α} (hp : h.get? pid = some p) {t : Tti}
    (hdue : p.hasPendingRetx t = true) (htbs : 0 < h.nofTbs) (alloc : α) :
    h.newRetx pid t alloc = (.ok (p.resend t alloc).1, h.put pid (p.resend t alloc).2) := by
  rw [newRetx, refusal?_of_get? hp htbs, hp]
  simp [hdue]

namespace Steady

theorem of_wanes {t : Tti} (hs : h.Steady roundTrip now) (hw : h.Wanes h') (ht : h'.TimelyAt t) :
    h'.Steady roundTrip t where
  timely := ht
  roundTrip_eq := hw.roundTrip_eq.trans hs.roundTrip_eq
  nofTbs_pos := hw.nofTbs_eq ▸ hs.nofTbs_pos
  slots_pos := by
    intro q hq
    obtain ⟨p, hp, hpq⟩ := hw.procs q hq
    exact hpq.length_eq ▸ hs.slots_pos p hp
  held := by
    intro q hq hbusy
    obtain ⟨p, hp, hpq⟩ := hw.procs q hq
    obtain ⟨hbusy', -, halloc⟩ := hpq.kept hbusy
    exact halloc ▸ hs.held p hp hbusy'

theorem empty (roundTrip nofTbs maxRetx : Nat) (now : Tti) :
    (HarqTable.empty roundTrip nofTbs maxRetx : HarqTable α).Steady roundTrip now where
  timely := .of_isEmpty (.empty roundTrip nofTbs maxRetx) (.inl rfl) (Blank.empty _ _ _)
  roundTrip_eq := by simp [HarqTable.empty, HarqTable.roundTrip]
  nofTbs_pos := Nat.lt_of_lt_of_le Nat.one_pos (Nat.le_max_left _ _)
  slots_pos := by
    intro p hp
    obtain ⟨pid, -, rfl⟩ := List.mem_map.mp hp
    simp [HarqProcess.idle, slotsPerProcess]
  held := by
    intro p hp hbusy
    rw [Blank.empty _ _ _ p hp] at hbusy
    cases hbusy

theorem advance (hs : h.Steady roundTrip now) (hpos : 0 < roundTrip) (hr : roundTrip ≤ 16)
    {d : Nat} (hd : d + roundTrip ≤ 5120) :
    (h.advance (now + d)).2.Steady roundTrip (now + d) := by
  have hround := hs.roundTrip_eq
  exact hs.of_wanes (.advance hs.timely.sound _)
    (hs.timely.advance (by omega) (by omega) (by omega))

theorem setAck (hs : h.Steady roundTrip now) (pid tb : Nat) (ack : Bool) :
    (h.setAck pid tb ack).2.Steady roundTrip now :=
  hs.of_wanes (.setAck hs.timely.sound pid tb ack) (hs.timely.setAck pid tb ack)

theorem takeDropped (hs : h.Steady roundTrip now) : h.takeDropped.2.Steady roundTrip now :=
  hs.of_wanes (.takeDropped h) hs.timely.takeDropped

theorem reset (hs : h.Steady roundTrip now) : h.reset.Steady roundTrip now :=
  hs.of_wanes (.reset h) hs.timely.reset

theorem put (hs : h.Steady roundTrip now) {pid : Nat} {p q : HarqProcess α}
    (hp : h.get? pid = some p) (hq : q.Sound) (hpid : q.pid = p.pid)
    (hlen : q.slots.length = p.slots.length) {alloc : α} (halloc : q.alloc = some alloc)
    (hflight : q.InFlight roundTrip now now 0) : (h.put pid q).Steady roundTrip now where
  timely := by
    have hsound := hs.timely.sound.put hq (hpid.trans (hs.timely.sound.of_get? hp).2)
    exact hs.timely.put hsound (.inr ⟨now, 0, hs.roundTrip_eq ▸ hflight⟩)
  roundTrip_eq := (h.roundTrip_put pid q).trans hs.roundTrip_eq
  nofTbs_pos := hs.nofTbs_pos
  slots_pos := by
    intro r hr
    rcases of_mem_put hr with hr | rfl
    · exact hs.slots_pos r hr
    · exact hlen ▸ hs.slots_pos p (List.mem_of_getElem? hp)
  held := by
    intro r hr hbusy
    rcases of_mem_put hr with hr | rfl
    · exact hs.held r hr hbusy
    · exact ⟨alloc, halloc⟩

theorem start (hs : h.Steady roundTrip now) (hpos : 0 < roundTrip) {pid : Nat} {p : HarqProcess α}
    (hp : h.get? pid = some p) (hempty : p.isEmpty = true) (sizes : List (Nat × Nat)) (alloc : α) :
    (h.put pid (p.start now sizes alloc).2).Steady roundTrip now := by
  have hsound := (hs.timely.sound.of_get? hp).1
  exact hs.put hp (hsound.start now sizes alloc) rfl (p.length_start now sizes alloc) rfl
    (.start hsound hempty hpos now sizes alloc)

theorem resend (hs : h.Steady roundTrip now) (hpos : 0 < roundTrip) (hr : roundTrip ≤ 16)
    {pid : Nat} {p : HarqProcess α} (hp : h.get? pid = some p)
    (hdue : p.hasPendingRetx now = true) (alloc : α) :
    (h.put pid (p.resend now alloc).2).Steady roundTrip now := by
  obtain ⟨tx, elapsed, hflight⟩ := hs.timely.inFlight_of_hasPendingRetx hp hdue
  rw [hs.roundTrip_eq] at hflight
  exact hs.put hp ((hs.timely.sound.of_get? hp).1.resend now alloc) rfl
    (p.length_resend now alloc) rfl (hflight.resend hpos (by omega) hdue alloc)

/-- What a steady table carries was sent at most one round trip ago. -/
theorem elapsed_le (hs : h.Steady roundTrip now) {pid : Nat} {sent : Tti} {alloc : α}
    (hc : h.Carries pid sent alloc) : ∃ elapsed, elapsed ≤ roundTrip ∧ now = sent + elapsed := by
  obtain ⟨p, hp, hbusy, -, hsent, -⟩ := hc
  rcases hs.timely.procs p hp with hempty | ⟨tx, elapsed, hflight⟩
  · rw [hempty] at hbusy
    cases hbusy
  · obtain rfl : tx = sent := Option.some.inj (hflight.sent.symm.trans hsent)
    exact ⟨elapsed, hs.roundTrip_eq ▸ hflight.within, hflight.now_eq⟩

/-- What is not resolved was sent, on an allocation. -/
theorem carries_of_busy (hs : h.Steady roundTrip now) {p : HarqProcess α} (hp : p ∈ h.procs)
    (hbusy : p.isEmpty = false) :
    ∃ sent alloc, p.txTti = some sent ∧ p.alloc = some alloc ∧ h.Carries p.pid sent alloc := by
  rcases hs.timely.procs p hp with hempty | ⟨tx, elapsed, hflight⟩
  · rw [hempty] at hbusy
    cases hbusy
  · obtain ⟨alloc, halloc⟩ := hs.held p hp hbusy
    exact ⟨tx, alloc, hflight.sent, halloc, p, hp, hbusy, rfl, hflight.sent, halloc⟩

/-- What is due now was sent exactly one round trip ago. -/
theorem carries_of_due (hs : h.Steady roundTrip now) (hr : roundTrip ≤ 16) {p : HarqProcess α}
    (hp : p ∈ h.procs) (hdue : p.hasPendingRetx now = true) :
    ∃ sent alloc, p.alloc = some alloc ∧ h.Carries p.pid sent alloc ∧ now = sent + roundTrip := by
  have hround := hs.roundTrip_eq
  have hbusy := HarqProcess.not_isEmpty_of_hasPendingRetx hdue
  rcases hs.timely.procs p hp with hempty | ⟨tx, elapsed, hflight⟩
  · rw [hempty] at hbusy
    cases hbusy
  · obtain ⟨alloc, halloc⟩ := hs.held p hp hbusy
    obtain ⟨helapsed, -⟩ := hflight.of_hasPendingRetx (by omega) hdue
    refine ⟨tx, alloc, halloc, ⟨p, hp, hbusy, rfl, hflight.sent, halloc⟩, ?_⟩
    rw [hflight.now_eq, helapsed, hround]

end Steady

/-! ## One transmission -/

/-- Process `pid` sends fresh blocks or blocks that are due, at `now` on `alloc`. -/
inductive Transmits (now : Tti) (pid : Nat) (alloc : α) (h : HarqTable α) : HarqTable α → Prop
  | start {p : HarqProcess α} (hp : h.get? pid = some p) (hempty : p.isEmpty = true)
      (sizes : List (Nat × Nat)) :
      Transmits now pid alloc h (h.put pid (p.start now sizes alloc).2)
  | resend {p : HarqProcess α} (hp : h.get? pid = some p) (hdue : p.hasPendingRetx now = true) :
      Transmits now pid alloc h (h.put pid (p.resend now alloc).2)

namespace Transmits

variable {pid : Nat} {alloc : α}

theorem steady (ht : h.Transmits now pid alloc h') (hs : h.Steady roundTrip now)
    (hpos : 0 < roundTrip) (hr : roundTrip ≤ 16) : h'.Steady roundTrip now := by
  cases ht with
  | start hp hempty sizes => exact hs.start hpos hp hempty sizes alloc
  | resend hp hdue => exact hs.resend hpos hr hp hdue alloc

theorem dropped_eq (ht : h.Transmits now pid alloc h') : h'.dropped = h.dropped := by
  cases ht <;> rfl

theorem of_carries (ht : h.Transmits now pid alloc h') (hs : h.Sound) {k : Nat} {sent : Tti} {a : α}
    (hc : h'.Carries k sent a) : h.Carries k sent a ∨ k = pid ∧ sent = now ∧ a = alloc := by
  cases ht with
  | @start p hp hempty sizes =>
      have hpid : (p.start now sizes alloc).2.pid = pid := (hs.of_get? hp).2
      exact of_carries_put hpid rfl rfl hc
  | @resend p hp hdue =>
      have hpid : (p.resend now alloc).2.pid = pid := (hs.of_get? hp).2
      exact of_carries_put hpid rfl rfl hc

theorem quiet (ht : h.Transmits now pid alloc h') (hs : h.Sound)
    (honly : ∀ p ∈ h.procs, p.hasPendingRetx now = true → p.pid = pid) : h'.Quiet now := by
  cases ht with
  | start hp hempty sizes =>
      exact hs.quiet_put honly (HarqProcess.hasPendingRetx_start _ now sizes alloc now)
  | resend hp hdue => exact hs.quiet_put honly (HarqProcess.hasPendingRetx_resend _ now alloc now)

end Transmits

/-! ## The processes that a snapshot asks for -/

theorem Blank.retxRequest?_eq_none (hb : h.Blank) (t : Tti) : h.retxRequest? t = none := by
  have hfind : h.procs.find? (·.hasPendingRetx t) = none :=
    List.find?_eq_none.mpr fun p hp ↦ by simp [hb.quiet t p hp]
  simp [retxRequest?, pendingProcess?, hfind]

theorem of_find?_due {procs : List (HarqProcess α)} {t : Tti} {p : HarqProcess α}
    (h : procs.find? (·.hasPendingRetx t) = some p) : p ∈ procs ∧ p.hasPendingRetx t = true := by
  constructor
  · exact List.mem_of_find?_eq_some h
  · simpa using (List.find?_eq_some_iff_append.mp h).1

theorem Sound.of_retxRequest? (hs : h.Sound) {t : Tti} {q : RetxRequest α}
    (hq : h.retxRequest? t = some q) :
    ∃ p ∈ h.procs, p.hasPendingRetx t = true ∧ p.pid = q.pid ∧ p.alloc = some q.alloc := by
  obtain ⟨pid, hpid, hq⟩ := Option.bind_eq_some_iff.mp hq
  obtain ⟨alloc, halloc, rfl⟩ := Option.map_eq_some_iff.mp hq
  obtain ⟨p, hfind, rfl⟩ := Option.map_eq_some_iff.mp hpid
  obtain ⟨hp, hdue⟩ := of_find?_due hfind
  rw [hs.get?_pid hp] at halloc
  exact ⟨p, hp, hdue, rfl, halloc⟩

theorem Uses.of_retxRequest? {P : α → Prop} (hu : h.Uses P) (hs : h.Sound) {t : Tti}
    {q : RetxRequest α} (hq : h.retxRequest? t = some q) : P q.alloc := by
  obtain ⟨p, hp, hdue, -, halloc⟩ := hs.of_retxRequest? hq
  exact hu p hp (HarqProcess.not_isEmpty_of_hasPendingRetx hdue) q.alloc halloc

theorem Sound.of_emptyProcess? (hs : h.Sound) {t : Tti} {pid : Nat}
    (hpid : h.emptyProcess? t = some pid) : ∃ p, h.get? pid = some p ∧ p.isEmpty = true := by
  unfold emptyProcess? at hpid
  split at hpid
  · rename_i hany
    obtain rfl := Option.some.inj hpid
    cases hp : h.get? (h.pidFor t) with
    | none =>
        rw [hp] at hany
        cases hany
    | some p =>
        rw [hp] at hany
        exact ⟨p, rfl, hany⟩
  · obtain ⟨p, hfind, rfl⟩ := Option.map_eq_some_iff.mp hpid
    exact ⟨p, hs.get?_pid (List.mem_of_find?_eq_some hfind), List.find?_some hfind⟩

theorem Sound.retxRequest?_of_due (hs : h.Sound) {t : Tti} {p : HarqProcess α} (hp : p ∈ h.procs)
    (hdue : p.hasPendingRetx t = true)
    (honly : ∀ q ∈ h.procs, q.hasPendingRetx t = true → q.pid = p.pid) {alloc : α}
    (halloc : p.alloc = some alloc) : h.retxRequest? t = some ⟨p.pid, alloc⟩ := by
  have hpending : h.pendingProcess? t = some p.pid := by
    unfold pendingProcess?
    cases hfind : h.procs.find? (·.hasPendingRetx t) with
    | none => simp [List.find?_eq_none.mp hfind p hp] at hdue
    | some q =>
        obtain ⟨hq, hqdue⟩ := of_find?_due hfind
        rw [Option.map_some, honly q hq hqdue]
  rw [retxRequest?, hpending, Option.bind_some, hs.get?_pid hp, Option.bind_some, halloc,
    Option.map_some]

end HarqTable

end MacScheduler
