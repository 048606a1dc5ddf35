import MacScheduler.Proofs.Harq.Timing

/-!
# What a table still holds

Between transmissions a table only loses blocks: feedback, the clock and a reset
never bring one back, and a process that still holds blocks keeps its allocation
and the point at which it was sent.
-/

namespace MacScheduler

namespace HarqProcess

variable {α : Type} {p q : HarqProcess α}

/-- `q` is `p` some time later, with nothing sent in between. -/
structure Wanes (p q : HarqProcess α) : Prop where
  pid_eq : q.pid = p.pid
  length_eq : q.slots.length = p.slots.length
  kept : q.isEmpty = false → p.isEmpty = false ∧ q.txTti = p.txTti ∧ q.alloc = p.alloc

namespace Wanes

theorem refl (p : HarqProcess α) : p.Wanes p := ⟨rfl, rfl, fun h ↦ ⟨h, rfl, rfl⟩⟩

theorem trans {r : HarqProcess α} (hpq : p.Wanes q) (hqr : q.Wanes r) : p.Wanes r := by
  refine ⟨hqr.pid_eq.trans hpq.pid_eq, hqr.length_eq.trans hpq.length_eq, fun h ↦ ?_⟩
  obtain ⟨hq, htx, halloc⟩ := hqr.kept h
  obtain ⟨hp, htx', halloc'⟩ := hpq.kept hq
  exact ⟨hp, htx.trans htx', halloc.trans halloc'⟩

theorem settle (h : p.Wanes q) : p.Wanes q.settle := by
  refine ⟨by simpa using h.pid_eq, by simpa using h.length_eq, fun hempty ↦ ?_⟩
  have hq : q.isEmpty = false := by rwa [isEmpty, slots_settle] at hempty
  rw [settle_of_not_isEmpty hq]
  exact h.kept hq

theorem setSlot (tb : Nat) {b : TbSlot} (hb : p.slots[tb]? = some b) (hstate : b.state ≠ .empty)
    (b' : TbSlot) : p.Wanes (p.setSlot tb b') :=
  ⟨rfl, List.length_set, fun _ ↦ ⟨not_isEmpty_of_mem (List.mem_of_getElem? hb) hstate, rfl, rfl⟩⟩

theorem advance (hs : p.Sound) (now : Tti) (roundTrip maxRetx : Nat) :
    p.Wanes (p.advance now roundTrip maxRetx).1 := by
  refine ⟨by simp, p.length_advance now roundTrip maxRetx, fun h ↦ ?_⟩
  have hp : p.isEmpty = false := by
    by_contra hne
    simp [(isEmpty_advance hs (by simpa using hne) now roundTrip maxRetx).1] at h
  rcases p.advance_eq now roundTrip maxRetx with ⟨-, heq⟩ | ⟨tx, -, heq⟩
  · rw [heq]
    exact ⟨hp, rfl, rfl⟩
  · rw [heq] at h ⊢
    rw [isEmpty, slots_settle] at h
    rw [settle_of_not_isEmpty h]
    exact ⟨hp, rfl, rfl⟩

theorem feedback (hs : p.Sound) (tb : Nat) (ack : Bool) (roundTrip maxRetx : Nat) :
    p.Wanes (p.feedback tb ack roundTrip maxRetx).2.1 := by
  have hspec := p.feedback_spec tb ack roundTrip maxRetx
  generalize p.feedback tb ack roundTrip maxRetx = out at hspec
  cases hspec with
  | absent => exact refl p
  | repeated => exact refl p
  | refused => exact refl p
  | lateAck hslot hack hpending =>
      apply settle
      apply setSlot tb hslot
      simp [(TbSlot.isPendingRetx_iff.mp hpending).1]
  | acked hslot hawait =>
      have hstate := (hs _ (List.mem_of_getElem? hslot)).not_empty hawait
      exact (setSlot tb hslot hstate _).settle
  | dropped hslot hawait =>
      have hstate := (hs _ (List.mem_of_getElem? hslot)).not_empty hawait
      exact (setSlot tb hslot hstate _).settle
  | nacked hslot hawait =>
      have hstate := (hs _ (List.mem_of_getElem? hslot)).not_empty hawait
      apply settle
      exact ⟨rfl, List.length_set, (setSlot tb hslot hstate _).kept⟩

theorem reset (p : HarqProcess α) : p.Wanes p.reset := by
  refine ⟨rfl, p.length_reset, fun h ↦ ?_⟩
  simp [p.isEmpty_reset] at h

end Wanes

/-! ## Retransmissions due now -/

theorem hasPendingRetx_of_isEmpty (h : p.isEmpty = true) (t : Tti) :
    p.hasPendingRetx t = false := by
  by_contra hdue
  obtain ⟨-, b, hb, hpending⟩ := hasPendingRetx_iff.mp (by simpa using hdue)
  simp [TbSlot.isPendingRetx, isEmpty_iff.mp h b hb] at hpending

theorem not_isEmpty_of_hasPendingRetx {t : Tti} (h : p.hasPendingRetx t = true) :
    p.isEmpty = false := by
  by_contra hempty
  rw [hasPendingRetx_of_isEmpty (by simpa using hempty)] at h
  cases h

theorem hasPendingRetx_of_settle {t : Tti} (h : p.settle.hasPendingRetx t = true) :
    p.hasPendingRetx t = true := by
  cases hempty : p.isEmpty with
  | false => rwa [settle_of_not_isEmpty hempty] at h
  | true =>
      have hsettle : p.settle.isEmpty = true := by rwa [isEmpty, slots_settle]
      rw [hasPendingRetx_of_isEmpty hsettle] at h
      cases h

theorem hasPendingRetx_of_setSlot {tb : Nat} {b : TbSlot} (hb : b.isPendingRetx = false) {t : Tti}
    (h : (p.setSlot tb b).hasPendingRetx t = true) : p.hasPendingRetx t = true := by
  obtain ⟨hdue, c, hc, hpending⟩ := hasPendingRetx_iff.mp h
  rcases List.mem_or_eq_of_mem_set hc with hc | rfl
  · exact hasPendingRetx_iff.mpr ⟨hdue, c, hc, hpending⟩
  · rw [hb] at hpending
    cases hpending

/-- Feedback never asks for a retransmission at once. -/
theorem InFlight.hasPendingRetx_of_feedback {roundTrip elapsed : Nat} {now tx : Tti}
    (h : p.InFlight roundTrip now tx elapsed) (hr : roundTrip ≤ 5119) {tb : Nat} {ack : Bool}
    {maxRetx : Nat} (hdue : (p.feedback tb ack roundTrip maxRetx).2.1.hasPendingRetx now = true) :
    p.hasPendingRetx now = true := by
  have hspec := p.feedback_spec tb ack roundTrip maxRetx
  generalize p.feedback tb ack roundTrip maxRetx = out at hspec hdue
  cases hspec with
  | absent => exact hdue
  | repeated => exact hdue
  | refused => exact hdue
  | lateAck =>
      apply hasPendingRetx_of_setSlot _ (hasPendingRetx_of_settle hdue)
      simp [TbSlot.isPendingRetx]
  | acked =>
      apply hasPendingRetx_of_setSlot _ (hasPendingRetx_of_settle hdue)
      simp [TbSlot.isPendingRetx]
  | dropped =>
      apply hasPendingRetx_of_setSlot _ (hasPendingRetx_of_settle hdue)
      simp [TbSlot.isPendingRetx]
  | @nacked b tx' hslot hawait htx =>
      obtain rfl : tx = tx' := Option.some.inj (h.sent.symm.trans htx)
      obtain ⟨hretx, -⟩ := hasPendingRetx_iff.mp (hasPendingRetx_of_settle hdue)
      have hnow : tx + roundTrip = tx + elapsed := h.now_eq ▸ Option.some.inj hretx
      have hlt := h.awaiting b (List.mem_of_getElem? hslot) hawait
      have hmod := Tti.add_eq_add_iff.mp hnow
      omega

/-- At the same point of the clock nothing becomes due. -/
theorem InFlight.hasPendingRetx_of_advance {roundTrip elapsed : Nat} {now tx : Tti}
    (h : p.InFlight roundTrip now tx elapsed) (hr : roundTrip ≤ 5119) {maxRetx : Nat}
    (hdue : (p.advance now roundTrip maxRetx).1.hasPendingRetx now = true) :
    p.hasPendingRetx now = true := by
  have hwithin := h.within
  rcases p.advance_eq now roundTrip maxRetx with ⟨-, heq⟩ | ⟨tx', htx', heq⟩
  · rwa [heq] at hdue
  · obtain rfl : tx = tx' := Option.some.inj (h.sent.symm.trans htx')
    have hkept : advanceSlots now tx roundTrip maxRetx p.pid 0 p.retxTti p.slots =
        (p.slots, p.retxTti, []) := by
      apply advanceSlots_kept
      · intro b hb ha
        rw [h.now_eq, Tti.diff_add_self (by omega)]
        exact Int.ofNat_lt.mpr (h.awaiting b hb ha)
      · intro b hb hp
        rw [h.pending b hb hp, h.now_eq, Option.any_some,
          Tti.isBefore_add_add (by omega) (by omega)]
        exact decide_eq_false (by omega)
    rw [heq, hkept] at hdue
    exact hasPendingRetx_of_settle hdue

end HarqProcess

namespace HarqTable

variable {α : Type} {h h' : HarqTable α} {now : Tti}

/-- `h'` is `h` some time later, with nothing sent in between. -/
structure Wanes (h h' : HarqTable α) : Prop where
  roundTrip_eq : h'.roundTrip = h.roundTrip
  nofTbs_eq : h'.nofTbs = h.nofTbs
  procs : ∀ q ∈ h'.procs, ∃ p ∈ h.procs, p.Wanes q

namespace Wanes

theorem refl (h : HarqTable α) : h.Wanes h := ⟨rfl, rfl, fun p hp ↦ ⟨p, hp, .refl p⟩⟩

theorem trans {h'' : HarqTable α} (hw : h.Wanes h') (hw' : h'.Wanes h'') : h.Wanes h'' := by
  refine ⟨hw'.roundTrip_eq.trans hw.roundTrip_eq, hw'.nofTbs_eq.trans hw.nofTbs_eq, fun r hr ↦ ?_⟩
  obtain ⟨q, hq, hqr⟩ := hw'.procs r hr
  obtain ⟨p, hp, hpq⟩ := hw.procs q hq
  exact ⟨p, hp, hpq.trans hqr⟩

theorem advance (hs : h.Sound) (t : Tti) : h.Wanes (h.advance t).2 := by
  rcases h.advance_cases t with ⟨-, heq⟩ | ⟨-, heq⟩
  · rw [heq]
    exact refl h
  · rw [heq]
    refine ⟨List.length_map _, rfl, fun q hq ↦ ?_⟩
    obtain ⟨p, hp, rfl⟩ := List.mem_map.mp hq
    exact ⟨p, hp, .advance (hs.blocks p hp) t h.roundTrip h.maxRetx⟩

theorem setAck (hs : h.Sound) (pid tb : Nat) (ack : Bool) : h.Wanes (h.setAck pid tb ack).2 := by
  rcases h.setAck_cases pid tb ack with ⟨e, heq⟩ | ⟨p, hp, heq⟩
  · rw [heq]
    exact refl h
  · rw [heq]
    refine ⟨h.roundTrip_put pid _, rfl, fun q hq ↦ ?_⟩
    rcases of_mem_put hq with hq | rfl
    · exact ⟨q, hq, .refl q⟩
    · exact ⟨p, List.mem_of_getElem? hp,
        .feedback (hs.of_get? hp).1 tb ack h.roundTrip h.maxRetx⟩

theorem takeDropped (h : HarqTable α) : h.Wanes h.takeDropped.2 :=
  ⟨rfl, rfl, fun p hp ↦ ⟨p, hp, .refl p⟩⟩

theorem reset (h : HarqTable α) : h.Wanes h.reset := by
  refine ⟨List.length_map _, rfl, fun q hq ↦ ?_⟩
  obtain ⟨p, hp, rfl⟩ := List.mem_map.mp hq
  exact ⟨p, hp, .reset p⟩

end Wanes

/-! ## Tables without a retransmission due -/

def Quiet (h : HarqTable α) (t : Tti) : Prop := ∀ p ∈ h.procs, p.hasPendingRetx t = false

def Blank (h : HarqTable α) : Prop := ∀ p ∈ h.procs, p.isEmpty = true

theorem Blank.quiet (hb : h.Blank) (t : Tti) : h.Quiet t :=
  fun p hp ↦ HarqProcess.hasPendingRetx_of_isEmpty (hb p hp) t

theorem Blank.of_wanes (hb : h.Blank) (hw : h.Wanes h') : h'.Blank := by
  intro q hq
  obtain ⟨p, hp, hpq⟩ := hw.procs q hq
  by_contra hne
  obtain ⟨hp', -⟩ := hpq.kept (by simpa using hne)
  rw [hb p hp] at hp'
  cases hp'

theorem Blank.reset (h : HarqTable α) : h.reset.Blank := by
  intro q hq
  obtain ⟨p, -, rfl⟩ := List.mem_map.mp hq
  exact p.isEmpty_reset

/-- The processes that hold blocks have them on allocations with `P`. -/
def Uses (P : α → Prop) (h : HarqTable α) : Prop :=
  ∀ p ∈ h.procs, p.isEmpty = false → ∀ alloc, p.alloc = some alloc → P alloc

section

variable {P : α → Prop}

theorem Blank.uses (hb : h.Blank) : h.Uses P := by
  intro p hp hbusy
  rw [hb p hp] at hbusy
  cases hbusy

theorem Uses.of_wanes (hu : h.Uses P) (hw : h.Wanes h') : h'.Uses P := by
  intro q hq hbusy alloc halloc
  obtain ⟨p, hp, hpq⟩ := hw.procs q hq
  obtain ⟨hbusy', -, hkept⟩ := hpq.kept hbusy
  exact hu p hp hbusy' alloc (hkept ▸ halloc)

theorem Uses.put (hu : h.Uses P) (pid : Nat) {q : HarqProcess α} {alloc : α}
    (halloc : q.alloc = some alloc) (hP : P alloc) : (h.put pid q).Uses P := by
  intro p hp hbusy alloc' halloc'
  rcases of_mem_put hp with hp | rfl
  · exact hu p hp hbusy alloc' halloc'
  · obtain rfl := Option.some.inj (halloc.symm.trans halloc')
    exact hP

end

theorem Quiet.setAck (hq : h.Quiet now) (ht : h.TimelyAt now) (hr : h.roundTrip ≤ 5119)
    (pid tb : Nat) (ack : Bool) : (h.setAck pid tb ack).2.Quiet now := by
  rcases h.setAck_cases pid tb ack with ⟨e, heq⟩ | ⟨p, hp, heq⟩
  · rw [heq]
    exact hq
  · rw [heq]
    intro q hmem
    rcases of_mem_put hmem with hmem | rfl
    · exact hq q hmem
    · have hquiet := hq p (List.mem_of_getElem? hp)
      rcases ht.of_get? hp with hempty | ⟨tx, elapsed, hflight⟩
      · apply HarqProcess.hasPendingRetx_of_isEmpty
        exact HarqProcess.isEmpty_feedback (ht.sound.of_get? hp).1 hempty tb ack _ _
      · by_contra hdue
        have hbefore := hflight.hasPendingRetx_of_feedback hr (by simpa using hdue)
        rw [hquiet] at hbefore
        cases hbefore

theorem Quiet.advance (hq : h.Quiet now) (ht : h.TimelyAt now) (hr : h.roundTrip ≤ 5119) :
    (h.advance now).2.Quiet now := by
  rcases h.advance_cases now with ⟨-, heq⟩ | ⟨-, heq⟩
  · rw [heq]
    exact hq
  · rw [heq]
    intro q hmem
    obtain ⟨p, hp, rfl⟩ := List.mem_map.mp hmem
    rcases ht.procs p hp with hempty | ⟨tx, elapsed, hflight⟩
    · apply HarqProcess.hasPendingRetx_of_isEmpty
      exact (HarqProcess.isEmpty_advance (ht.sound.blocks p hp) hempty now _ _).1
    · by_contra hdue
      have hbefore := hflight.hasPendingRetx_of_advance hr (by simpa using hdue)
      rw [hq p hp] at hbefore
      cases hbefore

theorem of_mem_dropped_setAck {pid tb : Nat} {ack : Bool} {d : DroppedTb}
    (hd : d ∈ (h.setAck pid tb ack).2.dropped) : d ∈ h.dropped ∨ d.reason = .maxRetx := by
  rcases h.setAck_cases pid tb ack with ⟨e, heq⟩ | ⟨p, -, heq⟩
  · rw [heq] at hd
    exact .inl hd
  · rw [heq] at hd
    rcases List.mem_append.mp hd with hd | hd
    · exact .inl hd
    · have hspec := p.feedback_spec tb ack h.roundTrip h.maxRetx
      generalize p.feedback tb ack h.roundTrip h.maxRetx = out at hspec hd
      cases hspec <;> simp_all

/-- A table that is quiet when the clock moves on by one gives no block up for a missed
retransmission. -/
theorem Quiet.not_missed {d : Nat} (hd : d ≤ 1) (hq : d = 1 → h.Quiet now) (ht : h.TimelyAt now)
    (hr : h.roundTrip ≤ 5119) :
    ∀ rec ∈ (h.advance (now + d)).2.dropped, rec ∈ h.dropped ∨ rec.reason ≠ .missedWindow := by
  intro rec hrec
  rcases h.advance_cases (now + d) with ⟨-, heq⟩ | ⟨-, heq⟩
  · rw [heq] at hrec
    exact .inl hrec
  rw [heq] at hrec
  rcases List.mem_append.mp hrec with hrec | hrec
  · exact .inl hrec
  right
  intro hreason
  obtain ⟨_, hlist, hrec⟩ := List.mem_flatten.mp hrec
  obtain ⟨p, hp, rfl⟩ := List.mem_map.mp hlist
  have hs := ht.sound.blocks p hp
  rcases ht.procs p hp with hempty | ⟨tx, elapsed, hflight⟩
  · rw [(HarqProcess.isEmpty_advance hs hempty _ _ _).2] at hrec
    cases hrec
  · have hle := hflight.within
    obtain ⟨hlate, b, hb, hwhy⟩ :=
      (hflight.advance hs hr (by omega) h.maxRetx).missed rec hrec hreason
    have hone : d = 1 := by omega
    rcases hwhy with hawait | hpending
    · have := hflight.awaiting b hb hawait
      omega
    · -- the retransmission was due at `now`, where nothing is
      have helapsed : elapsed = h.roundTrip := by omega
      have hdue : p.hasPendingRetx now = true := by
        refine HarqProcess.hasPendingRetx_iff.mpr ⟨?_, b, hb, hpending⟩
        rw [hflight.pending b hb hpending, hflight.now_eq, helapsed]
      rw [hq hone p hp] at hdue
      cases hdue

end HarqTable

end MacScheduler
