import MacScheduler.Harq.Process

/-!
# Blocks of one process

What each operation of a process does to the block in each of its slots.  The
slots are numbered, and an operation acts on every slot by itself, but for the
due point that `advanceSlots` hands from one slot to the next.
-/

namespace MacScheduler

namespace TbSlot

/-- A block that awaits feedback is in flight, and a block that was just started
awaits feedback. -/
structure Sound (b : TbSlot) : Prop where
  not_empty : b.awaiting = true → b.state ≠ .empty
  awaiting_of_new : b.state = .activeNew → b.awaiting = true

theorem isEmpty_iff {b : TbSlot} : b.isEmpty = true ↔ b.state = .empty := by
  simp [isEmpty]

theorem isPendingRetx_iff {b : TbSlot} :
    b.isPendingRetx = true ↔ b.state = .activeRetx ∧ b.awaiting = false := by
  simp [isPendingRetx]

theorem sound_default : Sound {} := ⟨by simp, by simp⟩

theorem Sound.start (b : TbSlot) (tbs mcs : Nat) : Sound (b.start tbs mcs) :=
  ⟨fun _ ↦ by simp [TbSlot.start], fun _ ↦ rfl⟩

theorem Sound.resend {b : TbSlot} (h : b.isPendingRetx = true) : Sound b.resend := by
  obtain ⟨hstate, -⟩ := isPendingRetx_iff.mp h
  exact ⟨fun _ ↦ by simp [TbSlot.resend, hstate], fun _ ↦ rfl⟩

theorem Sound.drop {b : TbSlot} (h : b.awaiting = false) : Sound b.drop :=
  ⟨fun ha ↦ by simp [TbSlot.drop, h] at ha, fun hn ↦ by simp [TbSlot.drop] at hn⟩

theorem Sound.reset (b : TbSlot) : Sound b.reset := ⟨by simp [TbSlot.reset], by simp [TbSlot.reset]⟩

/-- A block that neither waits for feedback nor to be sent again is no longer there. -/
theorem Sound.eq_empty {b : TbSlot} (hb : b.Sound) (hawait : b.awaiting = false)
    (hpending : b.isPendingRetx = false) : b.state = .empty := by
  cases hstate : b.state with
  | empty => rfl
  | activeNew => simp [hb.awaiting_of_new hstate] at hawait
  | activeRetx => simp [isPendingRetx, hstate, hawait] at hpending

theorem Sound.isPendingRetx {b : TbSlot} (hb : b.Sound) (hstate : b.state ≠ .empty)
    (hawait : b.awaiting = false) : b.isPendingRetx = true := by
  cases hpending : b.isPendingRetx with
  | true => rfl
  | false => exact (hstate (hb.eq_empty hawait hpending)).elim

def open? (b : TbSlot) : Option Nat := if b.isEmpty then none else some b.tbs

theorem open?_of_isEmpty {b : TbSlot} (h : b.isEmpty = true) : b.open? = none := if_pos h

theorem open?_of_state {b : TbSlot} (h : b.state ≠ .empty) : b.open? = some b.tbs := by
  simp [open?, isEmpty, h]

end TbSlot

namespace HarqProcess

variable {α : Type}

@[simp] theorem slots_settle (p : HarqProcess α) : p.settle.slots = p.slots := by
  unfold settle
  split <;> rfl

@[simp] theorem pid_settle (p : HarqProcess α) : p.settle.pid = p.pid := by
  unfold settle
  split <;> rfl

@[simp] theorem txTti_settle (p : HarqProcess α) : p.settle.txTti = p.txTti := by
  unfold settle
  split <;> rfl

theorem settle_of_not_isEmpty {p : HarqProcess α} (h : p.isEmpty = false) : p.settle = p := by
  simp [settle, h]

theorem isEmpty_iff {p : HarqProcess α} : p.isEmpty = true ↔ ∀ b ∈ p.slots, b.state = .empty := by
  simp [isEmpty, TbSlot.isEmpty_iff]

theorem hasPendingRetx_iff {p : HarqProcess α} {t : Tti} :
    p.hasPendingRetx t = true ↔ p.retxTti = some t ∧ ∃ b ∈ p.slots, b.isPendingRetx = true := by
  simp [hasPendingRetx]

/-! ## Moving the clock -/

/-- What moving the clock to `now` does to a block last sent at `tx`: the slot, the due
point of its process, and the block given up. -/
inductive AdvancedSlot (now tx : Tti) (roundTrip maxRetx pid tb : Nat) (due : Option Tti)
    (b : TbSlot) : TbSlot × Option Tti × List DroppedTb → Prop
  | kept (hawait : b.awaiting = true → now.diff tx < roundTrip)
      (hpending : b.isPendingRetx = true → due.any (·.isBefore now) = false) :
      AdvancedSlot now tx roundTrip maxRetx pid tb due b (b, due, [])
  | timedOut (hawait : b.awaiting = true) (hlate : (roundTrip : Int) ≤ now.diff tx)
      (hretx : b.nofRetx < maxRetx) (hbefore : (tx + roundTrip).isBefore now = false) :
      AdvancedSlot now tx roundTrip maxRetx pid tb due b
        ({ b with state := .activeRetx, awaiting := false, lastAck := some false },
          some (tx + roundTrip), [])
  | exhausted (hawait : b.awaiting = true) (hlate : (roundTrip : Int) ≤ now.diff tx)
      (hretx : maxRetx ≤ b.nofRetx) :
      AdvancedSlot now tx roundTrip maxRetx pid tb due b
        ({ b with state := .empty, awaiting := false, lastAck := some false }, due,
          [⟨pid, tb, b.tbs, .maxRetx⟩])
  | overshot (hawait : b.awaiting = true) (hlate : (roundTrip : Int) ≤ now.diff tx)
      (hretx : b.nofRetx < maxRetx) (hbefore : (tx + roundTrip).isBefore now = true) :
      AdvancedSlot now tx roundTrip maxRetx pid tb due b
        ({ b with state := .empty, awaiting := false, lastAck := some false },
          some (tx + roundTrip), [⟨pid, tb, b.tbs, .missedWindow⟩])
  | missed (hpending : b.isPendingRetx = true) (hbefore : due.any (·.isBefore now) = true) :
      AdvancedSlot now tx roundTrip maxRetx pid tb due b
        (b.drop, due, [⟨pid, tb, b.tbs, .missedWindow⟩])

section Advance

variable (now tx : Tti) (roundTrip maxRetx pid tb : Nat) (due : Option Tti)

theorem advanceSlot_spec (b : TbSlot) :
    AdvancedSlot now tx roundTrip maxRetx pid tb due b
      (advanceSlot now tx roundTrip maxRetx pid tb due b) := by
  by_cases hexp : b.awaiting = true ∧ (roundTrip : Int) ≤ now.diff tx
  · obtain ⟨hawait, hlate⟩ := hexp
    have hexpired : (b.awaiting && decide ((roundTrip : Int) ≤ now.diff tx)) = true := by
      simp [hawait, hlate]
    by_cases hmax : maxRetx ≤ b.nofRetx
    · have heq : advanceSlot now tx roundTrip maxRetx pid tb due b =
          ({ b with state := .empty, awaiting := false, lastAck := some false }, due,
            [⟨pid, tb, b.tbs, .maxRetx⟩]) := by
        simp [advanceSlot, hexpired, hmax, TbSlot.answer, Nat.not_lt.mpr hmax]
      exact heq ▸ .exhausted hawait hlate hmax
    · have hretx := Nat.lt_of_not_le hmax
      have hanswer : b.answer false maxRetx =
          { b with state := .activeRetx, awaiting := false, lastAck := some false } := by
        simp [TbSlot.answer, hretx]
      cases hbefore : (tx + roundTrip).isBefore now with
      | false =>
          have heq : advanceSlot now tx roundTrip maxRetx pid tb due b =
              ({ b with state := .activeRetx, awaiting := false, lastAck := some false },
                some (tx + roundTrip), []) := by
            simp [advanceSlot, hexpired, hmax, hanswer, hbefore]
          exact heq ▸ .timedOut hawait hlate hretx hbefore
      | true =>
          have heq : advanceSlot now tx roundTrip maxRetx pid tb due b =
              ({ b with state := .empty, awaiting := false, lastAck := some false },
                some (tx + roundTrip), [⟨pid, tb, b.tbs, .missedWindow⟩]) := by
            simp [advanceSlot, hexpired, hmax, hanswer, hbefore, TbSlot.isPendingRetx,
              TbSlot.drop]
          exact heq ▸ .overshot hawait hlate hretx hbefore
  · have hexpired : (b.awaiting && decide ((roundTrip : Int) ≤ now.diff tx)) = false := by
      simpa using hexp
    cases hmissed : b.isPendingRetx && due.any (·.isBefore now) with
    | false =>
        have heq : advanceSlot now tx roundTrip maxRetx pid tb due b = (b, due, []) := by
          simp [advanceSlot, hexpired, hmissed]
        exact heq ▸ .kept (fun h ↦ by simpa using not_and.mp hexp h)
          (fun h ↦ by simpa [h] using hmissed)
    | true =>
        obtain ⟨hpending, hbefore⟩ := Bool.and_eq_true_iff.mp hmissed
        have heq : advanceSlot now tx roundTrip maxRetx pid tb due b =
            (b.drop, due, [⟨pid, tb, b.tbs, .missedWindow⟩]) := by
          simp [advanceSlot, hexpired, hpending, hbefore]
        exact heq ▸ .missed hpending hbefore

variable {now tx roundTrip maxRetx pid tb due} {b : TbSlot}
  {out : TbSlot × Option Tti × List DroppedTb}

theorem AdvancedSlot.due_eq (h : AdvancedSlot now tx roundTrip maxRetx pid tb due b out) :
    out.2.1 = due ∨ out.2.1 = some (tx + roundTrip) := by
  cases h with
  | kept => exact .inl rfl
  | timedOut => exact .inr rfl
  | exhausted => exact .inl rfl
  | overshot => exact .inr rfl
  | missed => exact .inl rfl

theorem AdvancedSlot.of_mem (h : AdvancedSlot now tx roundTrip maxRetx pid tb due b out) :
    ∀ d ∈ out.2.2, d.pid = pid ∧ d.tb = tb := by
  cases h <;> simp

theorem AdvancedSlot.sound (h : AdvancedSlot now tx roundTrip maxRetx pid tb due b out)
    (hb : b.Sound) : out.1.Sound := by
  cases h with
  | kept => exact hb
  | timedOut => exact ⟨by simp, by simp⟩
  | exhausted => exact ⟨by simp, by simp⟩
  | overshot => exact ⟨by simp, by simp⟩
  | missed hpending => exact .drop (TbSlot.isPendingRetx_iff.mp hpending).2

end Advance

theorem filter_tb_eq_nil {records : List DroppedTb} {k : Nat} (h : ∀ d ∈ records, d.tb ≠ k) :
    records.filter (fun d ↦ decide (d.tb = k)) = [] := by
  simpa [List.filter_eq_nil_iff] using h

theorem advanceSlots_cons (now tx : Tti) (roundTrip maxRetx pid tb : Nat) (due : Option Tti)
    (b : TbSlot) (slots : List TbSlot) :
    advanceSlots now tx roundTrip maxRetx pid tb due (b :: slots) =
      let first := advanceSlot now tx roundTrip maxRetx pid tb due b
      let rest := advanceSlots now tx roundTrip maxRetx pid (tb + 1) first.2.1 slots
      (first.1 :: rest.1, rest.2.1, first.2.2 ++ rest.2.2) := rfl

/-- Slots are advanced one by one: each meets some due point, and the blocks given up
are listed with the process and the index of their slot. -/
theorem advanceSlots_spec (now tx : Tti) (roundTrip maxRetx pid : Nat) (tb : Nat)
    (due : Option Tti) (slots : List TbSlot) :
    let out := advanceSlots now tx roundTrip maxRetx pid tb due slots
    out.1.length = slots.length ∧
      (∀ d ∈ out.2.2, d.pid = pid ∧ tb ≤ d.tb ∧ d.tb < tb + slots.length) ∧
      ∀ i b, slots[i]? = some b → ∃ due', (due' = due ∨ due' = some (tx + roundTrip)) ∧
        out.1[i]? = some (advanceSlot now tx roundTrip maxRetx pid (tb + i) due' b).1 ∧
        out.2.2.filter (fun d ↦ decide (d.tb = tb + i)) =
          (advanceSlot now tx roundTrip maxRetx pid (tb + i) due' b).2.2 := by
  induction slots generalizing tb due with
  | nil => exact ⟨rfl, by simp [advanceSlots], by simp⟩
  | cons b slots ih =>
      have hb := advanceSlot_spec now tx roundTrip maxRetx pid tb due b
      obtain ⟨hlen, hmem, hslots⟩ :=
        ih (tb + 1) (advanceSlot now tx roundTrip maxRetx pid tb due b).2.1
      rw [advanceSlots_cons]
      refine ⟨by simp [hlen], ?_, fun i b' hi ↦ ?_⟩
      · intro d hd
        rcases List.mem_append.mp hd with hd | hd
        · obtain ⟨hpid, rfl⟩ := hb.of_mem d hd
          exact ⟨hpid, Nat.le_refl _, by simp⟩
        · obtain ⟨hpid, hlow, hhigh⟩ := hmem d hd
          exact ⟨hpid, by omega, by rw [List.length_cons]; omega⟩
      · cases i with
        | zero =>
            obtain rfl : b = b' := by simpa using hi
            refine ⟨due, .inl rfl, rfl, ?_⟩
            have hfirst : (advanceSlot now tx roundTrip maxRetx pid tb due b).2.2.filter
                (fun d ↦ decide (d.tb = tb)) =
                (advanceSlot now tx roundTrip maxRetx pid tb due b).2.2 :=
              List.filter_eq_self.mpr fun d hd ↦ by simp [(hb.of_mem d hd).2]
            simp only [Nat.add_zero]
            rw [List.filter_append, hfirst,
              filter_tb_eq_nil fun d hd ↦ Nat.ne_of_gt (hmem d hd).2.1, List.append_nil]
        | succ i =>
            obtain ⟨due', hdue', hslot, hdropped⟩ := hslots i b' (by simpa using hi)
            rw [show tb + 1 + i = tb + (i + 1) by omega] at hslot hdropped
            refine ⟨due', ?_, by simpa using hslot, ?_⟩
            · rcases hdue' with rfl | rfl
              · exact hb.due_eq
              · exact .inr rfl
            · have hne : ∀ d ∈ (advanceSlot now tx roundTrip maxRetx pid tb due b).2.2,
                  d.tb ≠ tb + (i + 1) := fun d hd ↦ by
                have := (hb.of_mem d hd).2
                omega
              rw [List.filter_append, filter_tb_eq_nil hne, hdropped, List.nil_append]

theorem advance_eq (p : HarqProcess α) (now : Tti) (roundTrip maxRetx : Nat) :
    (p.txTti = none ∧ p.advance now roundTrip maxRetx = (p, [])) ∨
      ∃ tx, p.txTti = some tx ∧ p.advance now roundTrip maxRetx =
        (({ p with
            slots := (advanceSlots now tx roundTrip maxRetx p.pid 0 p.retxTti p.slots).1
            retxTti := (advanceSlots now tx roundTrip maxRetx p.pid 0 p.retxTti p.slots).2.1 } :
            HarqProcess α).settle,
          (advanceSlots now tx roundTrip maxRetx p.pid 0 p.retxTti p.slots).2.2) := by
  unfold advance
  cases htx : p.txTti with
  | none => exact .inl ⟨rfl, rfl⟩
  | some tx => exact .inr ⟨tx, rfl, rfl⟩

/-! ## Sending -/

theorem getElem?_startSlots (slots : List TbSlot) (sizes : List (Nat × Nat)) (i : Nat) :
    (startSlots slots sizes).1[i]? =
      match slots[i]?, sizes[i]? with
      | some b, some size => some (b.start size.1 size.2)
      | b, _ => b := by
  induction slots generalizing sizes i with
  | nil => simp [startSlots]
  | cons b slots ih =>
      cases sizes with
      | nil =>
          simp only [startSlots, List.getElem?_nil]
          cases (b :: slots)[i]? <;> rfl
      | cons size sizes =>
          cases i with
          | zero => simp [startSlots]
          | succ i => simpa [startSlots] using ih sizes i

theorem getElem?_startSlots_grants (slots : List TbSlot) (sizes : List (Nat × Nat)) (i : Nat) :
    (startSlots slots sizes).2[i]? =
      match slots[i]?, sizes[i]? with
      | some b, some size => some ((b.start size.1 size.2).grant false)
      | _, _ => none := by
  induction slots generalizing sizes i with
  | nil => simp [startSlots]
  | cons b slots ih =>
      cases sizes with
      | nil =>
          simp only [startSlots, List.getElem?_nil]
          cases (b :: slots)[i]? <;> rfl
      | cons size sizes =>
          cases i with
          | zero => simp [startSlots]
          | succ i => simpa [startSlots] using ih sizes i

/-! ## Feedback -/

def setSlot (p : HarqProcess α) (tb : Nat) (b : TbSlot) : HarqProcess α :=
  { p with slots := p.slots.set tb b }

@[simp] theorem slots_setSlot (p : HarqProcess α) (tb : Nat) (b : TbSlot) :
    (p.setSlot tb b).slots = p.slots.set tb b := rfl

/-- What feedback does: the answer, the process, and the block given up. -/
inductive FedBack (p : HarqProcess α) (tb : Nat) (ack : Bool) (roundTrip maxRetx : Nat) :
    Except HarqError AckOutcome × HarqProcess α × List DroppedTb → Prop
  | absent (hslot : p.slots[tb]? = none) :
      FedBack p tb ack roundTrip maxRetx (.error (.notActive p.pid tb), p, [])
  | lateAck {b : TbSlot} (hslot : p.slots[tb]? = some b) (hack : ack = true)
      (hpending : b.isPendingRetx = true) :
      FedBack p tb ack roundTrip maxRetx (.ok (.acked b.tbs),
        (p.setSlot tb { b with state := .empty, lastAck := some true }).settle, [])
  | repeated {b : TbSlot} (hslot : p.slots[tb]? = some b)
      (hlate : (ack && b.isPendingRetx) = false) (hawait : b.awaiting = false)
      (hrepeats : b.repeats ack = true) :
      FedBack p tb ack roundTrip maxRetx (.ok .ignored, p, [])
  | refused {b : TbSlot} (hslot : p.slots[tb]? = some b)
      (hlate : (ack && b.isPendingRetx) = false)
      (hwhy : b.awaiting = false ∧ b.repeats ack = false ∨ p.txTti = none) :
      FedBack p tb ack roundTrip maxRetx (.error (.notActive p.pid tb), p, [])
  | acked {b : TbSlot} (hslot : p.slots[tb]? = some b) (hawait : b.awaiting = true)
      (hack : ack = true) :
      FedBack p tb ack roundTrip maxRetx (.ok (.acked b.tbs),
        (p.setSlot tb { b with state := .empty, awaiting := false, lastAck := some true }).settle,
        [])
  | nacked {b : TbSlot} {tx : Tti} (hslot : p.slots[tb]? = some b) (hawait : b.awaiting = true)
      (htx : p.txTti = some tx) (hack : ack = false) (hretx : b.nofRetx < maxRetx) :
      FedBack p tb ack roundTrip maxRetx (.ok (.retransmit (tx + roundTrip)),
        ({ p.setSlot tb { b with state := .activeRetx, awaiting := false, lastAck := some false }
            with retxTti := some (tx + roundTrip) } : HarqProcess α).settle, [])
  | dropped {b : TbSlot} (hslot : p.slots[tb]? = some b) (hawait : b.awaiting = true)
      (hack : ack = false) (hretx : maxRetx ≤ b.nofRetx) :
      FedBack p tb ack roundTrip maxRetx (.ok (.dropped b.tbs),
        (p.setSlot tb { b with state := .empty, awaiting := false, lastAck := some false }).settle,
        [⟨p.pid, tb, b.tbs, .maxRetx⟩])

theorem feedback_spec (p : HarqProcess α) (tb : Nat) (ack : Bool) (roundTrip maxRetx : Nat) :
    FedBack p tb ack roundTrip maxRetx (p.feedback tb ack roundTrip maxRetx) := by
  cases hslot : p.slots[tb]? with
  | none =>
      have heq : p.feedback tb ack roundTrip maxRetx = (.error (.notActive p.pid tb), p, []) := by
        simp [feedback, hslot]
      exact heq ▸ .absent hslot
  | some b =>
      cases hlate : ack && b.isPendingRetx with
      | true =>
          obtain ⟨hack, hpending⟩ := Bool.and_eq_true_iff.mp hlate
          simp only [feedback, hslot, hlate, if_true]
          exact .lateAck hslot hack hpending
      | false =>
          cases hawait : b.awaiting with
          | false =>
              cases hrepeats : b.repeats ack with
              | true =>
                  simp only [feedback, hslot, hlate, hawait, hrepeats]
                  exact .repeated hslot hlate hawait hrepeats
              | false =>
                  simp only [feedback, hslot, hlate, hawait, hrepeats]
                  exact .refused hslot hlate (.inl ⟨hawait, hrepeats⟩)
          | true =>
              cases htx : p.txTti with
              | none =>
                  simp only [feedback, hslot, hlate, hawait, htx]
                  exact .refused hslot hlate (.inr htx)
              | some tx =>
                  cases ack with
                  | true =>
                      have hpending : b.isPendingRetx = false := hlate
                      have heq : p.feedback tb true roundTrip maxRetx = (.ok (.acked b.tbs),
                          (p.setSlot tb { b with
                            state := .empty, awaiting := false, lastAck := some true }).settle,
                          []) := by
                        simp [feedback, setSlot, hslot, hpending, hawait, htx, TbSlot.answer]
                      exact heq ▸ .acked hslot hawait rfl
                  | false =>
                      by_cases hretx : b.nofRetx < maxRetx
                      · have heq : p.feedback tb false roundTrip maxRetx =
                            (.ok (.retransmit (tx + roundTrip)),
                              ({ p.setSlot tb { b with
                                  state := .activeRetx, awaiting := false, lastAck := some false }
                                with retxTti := some (tx + roundTrip) } :
                                HarqProcess α).settle, []) := by
                          simp [feedback, setSlot, hslot, hawait, htx, TbSlot.answer, hretx]
                        exact heq ▸ .nacked hslot hawait htx rfl hretx
                      · have heq : p.feedback tb false roundTrip maxRetx =
                            (.ok (.dropped b.tbs),
                              (p.setSlot tb { b with
                                state := .empty, awaiting := false, lastAck := some false }).settle,
                              [⟨p.pid, tb, b.tbs, .maxRetx⟩]) := by
                          simp [feedback, setSlot, hslot, hawait, htx, TbSlot.answer, hretx]
                        exact heq ▸ .dropped hslot hawait rfl (Nat.le_of_not_lt hretx)

end HarqProcess

end MacScheduler
