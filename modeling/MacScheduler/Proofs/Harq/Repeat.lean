import MacScheduler.Proofs.Harq.Answer

/-!
# Feedback that is repeated

Every accepted answer leaves behind what is needed to recognise it: the block no
longer awaits feedback, and it is either resolved with this answer as its last one,
or it waits to be sent again.  So the same answer a second time is ignored, and an
answer that is ignored or refused changes nothing in its table.
-/

namespace MacScheduler

namespace TbSlot

/-- Nothing is awaited of the block, and `ack` repeats what is known of it. -/
structure Knows (ack : Bool) (b : TbSlot) : Prop where
  awaiting_eq : b.awaiting = false
  repeats_eq : b.repeats ack = true

theorem knows_of_empty {ack : Bool} {b : TbSlot} (hstate : b.state = .empty)
    (hawait : b.awaiting = false) (hlast : b.lastAck = some ack) : b.Knows ack :=
  ⟨hawait, by simp [repeats, hstate, hlast]⟩

/-- A block that waits to be sent again repeats negative answers only. -/
theorem Knows.not_late {ack : Bool} {b : TbSlot} (hb : b.Knows ack) :
    (ack && b.isPendingRetx) = false := by
  cases hpending : b.isPendingRetx with
  | false => exact Bool.and_false ack
  | true =>
      obtain ⟨hstate, -⟩ := isPendingRetx_iff.mp hpending
      have hrepeats := hb.repeats_eq
      cases ack <;> simp_all [repeats]

end TbSlot

namespace HarqProcess

variable {α : Type} {p : HarqProcess α} {tb roundTrip maxRetx : Nat} {ack : Bool}
  {out : Except HarqError AckOutcome × HarqProcess α × List DroppedTb}

/-- The answer `ack` for block `tb` was given before. -/
def Heard (tb : Nat) (ack : Bool) (p : HarqProcess α) : Prop :=
  ∃ b, p.slots[tb]? = some b ∧ b.Knows ack

theorem Heard.settle (hp : p.Heard tb ack) : p.settle.Heard tb ack := by
  rw [Heard, slots_settle]
  exact hp

theorem heard_setSlot {b b' : TbSlot} (hslot : p.slots[tb]? = some b) (hb : b'.Knows ack) :
    (p.setSlot tb b').Heard tb ack := by
  have hlt : tb < p.slots.length := (List.getElem?_eq_some_iff.mp hslot).1
  exact ⟨b', List.getElem?_set_self hlt, hb⟩

theorem Heard.feedback_eq (hp : p.Heard tb ack) (roundTrip maxRetx : Nat) :
    p.feedback tb ack roundTrip maxRetx = (.ok .ignored, p, []) := by
  obtain ⟨b, hslot, hb⟩ := hp
  simp only [feedback, hslot, hb.not_late, hb.awaiting_eq, hb.repeats_eq]
  rfl

theorem FedBack.eq_of_unheard (hout : FedBack p tb ack roundTrip maxRetx out)
    (hunheard : Unheard .ignored out.1) : out.2 = (p, []) := by
  cases hout with
  | absent | repeated | refused => rfl
  | lateAck | acked | nacked | dropped =>
      rcases hunheard with hok | ⟨e, he⟩
      · cases hok
      · cases he

/-- Whatever was accepted is recognised from then on. -/
theorem FedBack.heard (hout : FedBack p tb ack roundTrip maxRetx out) {o : AckOutcome}
    (ho : out.1 = .ok o) : out.2.1.Heard tb ack := by
  cases hout with
  | absent | refused => cases ho
  | repeated hslot _ hawait hrepeats => exact ⟨_, hslot, hawait, hrepeats⟩
  | lateAck hslot hack hpending =>
      subst hack
      obtain ⟨-, hawait⟩ := TbSlot.isPendingRetx_iff.mp hpending
      refine (heard_setSlot hslot ?_).settle
      exact TbSlot.knows_of_empty rfl hawait rfl
  | acked hslot _ hack =>
      subst hack
      exact (heard_setSlot hslot (TbSlot.knows_of_empty rfl rfl rfl)).settle
  | nacked hslot _ _ hack =>
      subst hack
      exact Heard.settle (heard_setSlot hslot ⟨rfl, rfl⟩)
  | dropped hslot _ hack =>
      subst hack
      exact (heard_setSlot hslot (TbSlot.knows_of_empty rfl rfl rfl)).settle

end HarqProcess

namespace HarqTable

variable {α : Type} {h : HarqTable α} {pid tb : Nat} {ack : Bool} {p : HarqProcess α}

theorem setAck_eq (hplace : h.refusal? pid tb = none) (hp : h.get? pid = some p) (ack : Bool) :
    h.setAck pid tb ack = ((p.feedback tb ack h.roundTrip h.maxRetx).1,
      { h.put pid (p.feedback tb ack h.roundTrip h.maxRetx).2.1 with
        dropped := h.dropped ++ (p.feedback tb ack h.roundTrip h.maxRetx).2.2 }) := by
  rw [setAck, hplace, hp]

theorem refusal?_setAck (h : HarqTable α) (pid tb k i : Nat) (ack : Bool) :
    (h.setAck pid tb ack).2.refusal? k i = h.refusal? k i := by
  rcases h.setAck_cases pid tb ack with ⟨e, heq⟩ | ⟨p, -, heq⟩
  · rw [heq]
  · rw [heq, refusal?, refusal?, ← h.nofProcs_put pid]
    rfl

theorem get?_setAck_self (hplace : h.refusal? pid tb = none) (hp : h.get? pid = some p)
    (ack : Bool) :
    (h.setAck pid tb ack).2.get? pid = some (p.feedback tb ack h.roundTrip h.maxRetx).2.1 := by
  have hlt : pid < h.nofProcs := (List.getElem?_eq_some_iff.mp hp).1
  rw [setAck_eq hplace hp]
  exact (h.get?_put pid pid _).trans (if_pos ⟨rfl, hlt⟩)

/-- An answer is accepted for a block the table has a place for. -/
theorem of_setAck_eq_ok {o : AckOutcome} (ho : (h.setAck pid tb ack).1 = .ok o) :
    h.refusal? pid tb = none ∧ ∃ p, h.get? pid = some p := by
  unfold setAck at ho
  cases hplace : h.refusal? pid tb with
  | some e => simp [hplace] at ho
  | none =>
      cases hp : h.get? pid with
      | none => simp [hplace, hp] at ho
      | some p => exact ⟨rfl, p, rfl⟩

/-- An answer that is refused or ignored changes nothing. -/
theorem setAck_of_unheard (hunheard : Unheard .ignored (h.setAck pid tb ack).1) :
    (h.setAck pid tb ack).2 = h := by
  rcases h.setAck_cases pid tb ack with ⟨e, heq⟩ | ⟨p, hp, heq⟩
  · rw [heq]
  · rw [heq] at hunheard ⊢
    have hsame := (p.feedback_spec tb ack h.roundTrip h.maxRetx).eq_of_unheard hunheard
    rw [hsame]
    dsimp only
    rw [List.append_nil, put_self hp]

/-- An answer that a process recognises is ignored. -/
theorem setAck_of_heard (hplace : h.refusal? pid tb = none) (hp : h.get? pid = some p)
    (hheard : p.Heard tb ack) : h.setAck pid tb ack = (.ok .ignored, h) := by
  have hok : (h.setAck pid tb ack).1 = .ok .ignored := by
    rw [setAck_eq hplace hp, hheard.feedback_eq]
  exact Prod.ext hok (setAck_of_unheard (.inl hok))

/-- The same answer a second time is ignored. -/
theorem setAck_setAck {o : AckOutcome} (ho : (h.setAck pid tb ack).1 = .ok o) :
    (h.setAck pid tb ack).2.setAck pid tb ack = (.ok .ignored, (h.setAck pid tb ack).2) := by
  obtain ⟨hplace, p, hp⟩ := of_setAck_eq_ok ho
  have hfed : (p.feedback tb ack h.roundTrip h.maxRetx).1 = .ok o := by
    rw [← ho, setAck_eq hplace hp]
  exact setAck_of_heard ((h.refusal?_setAck pid tb pid tb ack).trans hplace)
    (get?_setAck_self hplace hp ack) ((p.feedback_spec tb ack h.roundTrip h.maxRetx).heard hfed)

/-- Feedback is idempotent: refused or ignored, it leaves the whole table as it was, the queue
of blocks given up included; accepted, it is ignored when it comes again. -/
theorem feedback_idempotent (h : HarqTable α) (pid tb : Nat) (ack : Bool) :
    (∀ e, (h.setAck pid tb ack).1 = .error e → (h.setAck pid tb ack).2 = h) ∧
    ((h.setAck pid tb ack).1 = .ok .ignored → (h.setAck pid tb ack).2 = h) ∧
    ∀ o, (h.setAck pid tb ack).1 = .ok o →
      (h.setAck pid tb ack).2.setAck pid tb ack = (.ok .ignored, (h.setAck pid tb ack).2) :=
  ⟨fun e he ↦ setAck_of_unheard (.inr ⟨e, he⟩), fun hok ↦ setAck_of_unheard (.inl hok),
    fun _ ho ↦ setAck_setAck ho⟩

end HarqTable

end MacScheduler
