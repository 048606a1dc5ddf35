import Mathlib.Tactic.ByContra
import MacScheduler.Proofs.Clock.Tti
import MacScheduler.Proofs.Harq.Run

/-!
# Blocks in time

Both blocks of a process share one point of transmission and one due point.
While the clock moves forward by less than half a turn at a time, a process that
is not empty was sent at most one round trip ago, a block that still waits for
feedback was sent less than that ago, and whatever is to be sent again is due
exactly one round trip after its transmission.
-/

namespace MacScheduler

namespace HarqProcess

variable {α : Type}

/-- The process was sent at `tx`, which is `elapsed` subframes before `now`. -/
structure InFlight (roundTrip : Nat) (now tx : Tti) (elapsed : Nat) (p : HarqProcess α) :
    Prop where
  sent : p.txTti = some tx
  now_eq : now = tx + elapsed
  within : elapsed ≤ roundTrip
  due : p.retxTti = none ∨ p.retxTti = some (tx + roundTrip)
  awaiting : ∀ b ∈ p.slots, b.awaiting = true → elapsed < roundTrip
  pending : ∀ b ∈ p.slots, b.isPendingRetx = true → p.retxTti = some (tx + roundTrip)

/-- The process is empty, or its blocks are in flight at `now`. -/
def Timely (roundTrip : Nat) (now : Tti) (p : HarqProcess α) : Prop :=
  p.isEmpty = true ∨ ∃ tx elapsed, p.InFlight roundTrip now tx elapsed

theorem InFlight.settle {roundTrip : Nat} {now tx : Tti} {elapsed : Nat} {p : HarqProcess α}
    (h : p.InFlight roundTrip now tx elapsed) : p.settle.Timely roundTrip now := by
  cases hempty : p.isEmpty with
  | true =>
      left
      rw [isEmpty, slots_settle]
      exact hempty
  | false => exact .inr ⟨tx, elapsed, (settle_of_not_isEmpty hempty).symm ▸ h⟩

theorem not_isEmpty_of_mem {p : HarqProcess α} {b : TbSlot} (hb : b ∈ p.slots)
    (h : b.state ≠ .empty) : p.isEmpty = false := by
  by_contra hne
  exact h (isEmpty_iff.mp (by simpa using hne) b hb)

theorem isEmpty_reset (p : HarqProcess α) : p.reset.isEmpty = true := by
  simp [isEmpty, reset, TbSlot.isEmpty, TbSlot.reset]

theorem Sound.idle_of_isEmpty {p : HarqProcess α} (hs : p.Sound) (hempty : p.isEmpty = true) :
    ∀ b ∈ p.slots, b.awaiting = false ∧ b.isPendingRetx = false := by
  intro b hb
  have hstate := isEmpty_iff.mp hempty b hb
  refine ⟨?_, by simp [TbSlot.isPendingRetx, hstate]⟩
  by_contra hawait
  exact (hs b hb).not_empty (by simpa using hawait) hstate

/-! ## Moving the clock -/

section Advance

variable {roundTrip maxRetx pid tb elapsed : Nat} {tx : Tti} {due : Option Tti}

theorem isBefore_due (hr : roundTrip ≤ 5119) (hele : elapsed ≤ roundTrip + 5120) :
    (tx + roundTrip).isBefore (tx + elapsed) = decide (roundTrip < elapsed) :=
  Tti.isBefore_add_add (by omega) hele

/-- What is known of a slot that the clock passed `elapsed` subframes after its block was
sent: of the due point, of the block that stays and of the one given up. -/
structure TimedSlot (roundTrip elapsed : Nat) (tx : Tti) (due : Option Tti) (b : TbSlot)
    (out : TbSlot × Option Tti × List DroppedTb) : Prop where
  due_keep : due = some (tx + roundTrip) → out.2.1 = some (tx + roundTrip)
  pending : out.1.isPendingRetx = true → out.2.1 = some (tx + roundTrip) ∧ elapsed ≤ roundTrip
  awaiting : out.1.awaiting = true → elapsed < roundTrip
  missed : ∀ d ∈ out.2.2, d.reason = .missedWindow →
    roundTrip < elapsed ∧ (b.awaiting = true ∨ b.isPendingRetx = true)

theorem AdvancedSlot.timed {b : TbSlot} {out : TbSlot × Option Tti × List DroppedTb}
    (h : AdvancedSlot (tx + elapsed) tx roundTrip maxRetx pid tb due b out)
    (hr : roundTrip ≤ 5119) (hele : elapsed ≤ roundTrip + 5120)
    (hawait : b.awaiting = true → elapsed ≤ 5119)
    (hpending : b.isPendingRetx = true → due = some (tx + roundTrip)) :
    TimedSlot roundTrip elapsed tx due b out := by
  have hbefore := @isBefore_due roundTrip elapsed tx hr hele
  cases h with
  | kept hkept hstays =>
      refine ⟨fun hd ↦ hd, fun hp ↦ ⟨hpending hp, ?_⟩, fun ha ↦ ?_, by simp⟩
      · have hnot := hstays hp
        rw [hpending hp] at hnot
        simpa [hbefore] using hnot
      · have hdiff := hkept ha
        rw [Tti.diff_add_self (hawait ha)] at hdiff
        exact Int.ofNat_lt.mp hdiff
  | timedOut hwait hlate hretx hnot =>
      refine ⟨fun _ ↦ rfl, fun _ ↦ ⟨rfl, ?_⟩, by simp, by simp⟩
      simpa [hbefore] using hnot
  | exhausted => exact ⟨fun hd ↦ hd, by simp [TbSlot.isPendingRetx], by simp, by simp⟩
  | overshot hwait hlate hretx hmissed =>
      refine ⟨fun _ ↦ rfl, by simp [TbSlot.isPendingRetx], by simp, fun _ _ _ ↦ ⟨?_, .inl hwait⟩⟩
      simpa [hbefore] using hmissed
  | missed hp hmissed =>
      have hidle := (TbSlot.isPendingRetx_iff.mp hp).2
      refine ⟨fun hd ↦ hd, by simp [TbSlot.isPendingRetx, TbSlot.drop],
        by simp [TbSlot.drop, hidle], fun _ _ _ ↦ ⟨?_, .inr hp⟩⟩
      rw [hpending hp] at hmissed
      simpa [hbefore] using hmissed

/-- The slots of a process after the clock passed, as a whole. -/
structure TimedSlots (roundTrip elapsed : Nat) (tx : Tti) (due : Option Tti)
    (slots : List TbSlot) (out : List TbSlot × Option Tti × List DroppedTb) : Prop where
  due_eq : out.2.1 = due ∨ out.2.1 = some (tx + roundTrip)
  due_keep : due = some (tx + roundTrip) → out.2.1 = some (tx + roundTrip)
  pending : ∀ b ∈ out.1, b.isPendingRetx = true →
    out.2.1 = some (tx + roundTrip) ∧ elapsed ≤ roundTrip
  awaiting : ∀ b ∈ out.1, b.awaiting = true → elapsed < roundTrip
  missed : ∀ d ∈ out.2.2, d.reason = .missedWindow →
    roundTrip < elapsed ∧ ∃ b ∈ slots, b.awaiting = true ∨ b.isPendingRetx = true

theorem advanceSlots_timed (hr : roundTrip ≤ 5119) (hele : elapsed ≤ roundTrip + 5120)
    (tb : Nat) (due : Option Tti) {slots : List TbSlot}
    (hawait : ∀ b ∈ slots, b.awaiting = true → elapsed ≤ 5119)
    (hpending : ∀ b ∈ slots, b.isPendingRetx = true → due = some (tx + roundTrip)) :
    TimedSlots roundTrip elapsed tx due slots
      (advanceSlots (tx + elapsed) tx roundTrip maxRetx pid tb due slots) := by
  induction slots generalizing tb due with
  | nil => exact ⟨.inl rfl, fun hd ↦ hd, by simp [advanceSlots], by simp [advanceSlots],
      by simp [advanceSlots]⟩
  | cons b slots ih =>
      have hspec := advanceSlot_spec (tx + elapsed) tx roundTrip maxRetx pid tb due b
      have hb := hspec.timed hr hele (hawait b List.mem_cons_self) (hpending b List.mem_cons_self)
      rw [advanceSlots_cons]
      generalize advanceSlot (tx + elapsed) tx roundTrip maxRetx pid tb due b = first at hspec hb
      have hrest := ih (tb + 1) first.2.1 (fun c hc ↦ hawait c (List.mem_cons_of_mem b hc))
        fun c hc hp ↦ hb.due_keep (hpending c (List.mem_cons_of_mem b hc) hp)
      refine
        { due_eq := ?_
          due_keep := fun hd ↦ hrest.due_keep (hb.due_keep hd)
          pending := ?_
          awaiting := ?_
          missed := ?_ }
      · rcases hrest.due_eq with heq | heq
        · rcases hspec.due_eq with hfirst | hfirst
          · exact .inl (heq.trans hfirst)
          · exact .inr (heq.trans hfirst)
        · exact .inr heq
      · intro c hc hp
        rcases List.mem_cons.mp hc with rfl | hc
        · exact ⟨hrest.due_keep (hb.pending hp).1, (hb.pending hp).2⟩
        · exact hrest.pending c hc hp
      · intro c hc ha
        rcases List.mem_cons.mp hc with rfl | hc
        · exact hb.awaiting ha
        · exact hrest.awaiting c hc ha
      · intro d hd hreason
        rcases List.mem_append.mp hd with hd | hd
        · obtain ⟨hlt, hwhy⟩ := hb.missed d hd hreason
          exact ⟨hlt, b, List.mem_cons_self, hwhy⟩
        · obtain ⟨hlt, c, hc, hwhy⟩ := hrest.missed d hd hreason
          exact ⟨hlt, c, List.mem_cons_of_mem b hc, hwhy⟩

end Advance

/-- What the clock leaves of a process sent at `tx`: nothing, or its blocks in flight. -/
structure Aged (roundTrip : Nat) (now tx : Tti) (elapsed : Nat) (p : HarqProcess α)
    (out : HarqProcess α × List DroppedTb) : Prop where
  txTti_eq : out.1.txTti = p.txTti
  timely : out.1.isEmpty = true ∨
    out.1.InFlight roundTrip now tx elapsed ∧ out.1.alloc = p.alloc
  missed : ∀ d ∈ out.2, d.reason = .missedWindow →
    roundTrip < elapsed ∧ ∃ b ∈ p.slots, b.awaiting = true ∨ b.isPendingRetx = true

theorem InFlight.advance {roundTrip elapsed : Nat} {now tx : Tti} {p : HarqProcess α}
    (h : p.InFlight roundTrip now tx elapsed) (hs : p.Sound) (hr : roundTrip ≤ 5119)
    {d : Nat} (hd : d + roundTrip ≤ 5120) (maxRetx : Nat) :
    Aged roundTrip (now + d) tx (elapsed + d) p (p.advance (now + d) roundTrip maxRetx) := by
  have hwithin := h.within
  have hnow : now + d = tx + (elapsed + d) := by rw [h.now_eq, Tti.add_add]
  have htimed := @advanceSlots_timed roundTrip maxRetx p.pid (elapsed + d) tx hr (by omega) 0
    p.retxTti p.slots (fun b hb ha ↦ by have := h.awaiting b hb ha; omega) h.pending
  have hsound := hs.advance (now + d) roundTrip maxRetx
  rcases p.advance_eq (now + d) roundTrip maxRetx with ⟨hnone, -⟩ | ⟨tx', htx', heq⟩
  · rw [h.sent] at hnone
    cases hnone
  · obtain rfl : tx = tx' := Option.some.inj (h.sent.symm.trans htx')
    rw [heq] at hsound ⊢
    rw [hnow] at hsound ⊢
    generalize advanceSlots (tx + (elapsed + d)) tx roundTrip maxRetx p.pid 0 p.retxTti p.slots
      = out at htimed hsound
    refine ⟨by simp, ?_, htimed.missed⟩
    cases hempty : ({ p with slots := out.1, retxTti := out.2.1 } : HarqProcess α).isEmpty with
    | true =>
        left
        rw [isEmpty, slots_settle]
        exact hempty
    | false =>
        rw [settle_of_not_isEmpty hempty] at hsound ⊢
        -- a block is left, and it waits for something: that bounds the time since it was sent
        have hle : elapsed + d ≤ roundTrip := by
          by_contra hgt
          have hnone : ∀ b ∈ out.1, b.state = .empty := by
            intro b hb
            refine (hsound b hb).eq_empty ?_ ?_
            · by_contra ha
              have := htimed.awaiting b hb (by simpa using ha)
              omega
            · by_contra hp
              have := (htimed.pending b hb (by simpa using hp)).2
              omega
          exact Bool.eq_false_iff.mp hempty (isEmpty_iff.mpr hnone)
        refine .inr ⟨⟨h.sent, rfl, hle, ?_, htimed.awaiting,
          fun b hb hp ↦ (htimed.pending b hb hp).1⟩, rfl⟩
        rcases htimed.due_eq with hdue | hdue
        · rcases h.due with hnone | hsome
          · exact .inl (hdue.trans hnone)
          · exact .inr (hdue.trans hsome)
        · exact .inr hdue

theorem advanceSlots_kept (now tx : Tti) (roundTrip maxRetx pid tb : Nat) (due : Option Tti)
    {slots : List TbSlot} (hawait : ∀ b ∈ slots, b.awaiting = true → now.diff tx < roundTrip)
    (hpending : ∀ b ∈ slots, b.isPendingRetx = true → due.any (·.isBefore now) = false) :
    advanceSlots now tx roundTrip maxRetx pid tb due slots = (slots, due, []) := by
  induction slots generalizing tb with
  | nil => rfl
  | cons b slots ih =>
      have hexpired : (b.awaiting && decide ((roundTrip : Int) ≤ now.diff tx)) = false := by
        rw [Bool.and_eq_false_imp]
        intro ha
        simpa using hawait b List.mem_cons_self ha
      have hmissed : (b.isPendingRetx && due.any (·.isBefore now)) = false := by
        rw [Bool.and_eq_false_imp]
        exact hpending b List.mem_cons_self
      have hb : advanceSlot now tx roundTrip maxRetx pid tb due b = (b, due, []) := by
        simp [advanceSlot, hexpired, hmissed]
      have hrest := ih (tb + 1) (fun c hc ↦ hawait c (List.mem_cons_of_mem b hc))
        fun c hc ↦ hpending c (List.mem_cons_of_mem b hc)
      simp only [advanceSlots_cons, hb, hrest, List.nil_append]

theorem isEmpty_advance {p : HarqProcess α} (hs : p.Sound) (hempty : p.isEmpty = true) (now : Tti)
    (roundTrip maxRetx : Nat) :
    (p.advance now roundTrip maxRetx).1.isEmpty = true ∧
      (p.advance now roundTrip maxRetx).2 = [] := by
  rcases p.advance_eq now roundTrip maxRetx with ⟨-, heq⟩ | ⟨tx, -, heq⟩
  · rw [heq]
    exact ⟨hempty, rfl⟩
  · have hidle := hs.idle_of_isEmpty hempty
    rw [heq, advanceSlots_kept now tx roundTrip maxRetx p.pid 0 p.retxTti
      (fun b hb ha ↦ by simp [(hidle b hb).1] at ha)
      fun b hb hp ↦ by simp [(hidle b hb).2] at hp]
    refine ⟨?_, rfl⟩
    rw [isEmpty, slots_settle]
    exact hempty

theorem Timely.advance {roundTrip : Nat} {now : Tti} {p : HarqProcess α}
    (h : p.Timely roundTrip now) (hs : p.Sound) (hr : roundTrip ≤ 5119) {d : Nat}
    (hd : d + roundTrip ≤ 5120) (maxRetx : Nat) :
    (p.advance (now + d) roundTrip maxRetx).1.Timely roundTrip (now + d) := by
  rcases h with hempty | ⟨tx, elapsed, hflight⟩
  · exact .inl (isEmpty_advance hs hempty _ _ _).1
  · rcases (hflight.advance hs hr hd maxRetx).timely with hempty | ⟨haged, -⟩
    · exact .inl hempty
    · exact .inr ⟨tx, elapsed + d, haged⟩

/-! ## Sending -/

theorem InFlight.start {p : HarqProcess α} (hs : p.Sound) (hempty : p.isEmpty = true)
    {roundTrip : Nat} (hr : 0 < roundTrip) (now : Tti) (sizes : List (Nat × Nat)) (alloc : α) :
    (p.start now sizes alloc).2.InFlight roundTrip now now 0 where
  sent := rfl
  now_eq := (Tti.add_zero now).symm
  within := Nat.zero_le _
  due := .inl rfl
  awaiting := fun _ _ _ ↦ hr
  pending := by
    intro b hb hp
    obtain ⟨i, hi⟩ := List.mem_iff_getElem?.mp hb
    have hi : (startSlots p.slots sizes).1[i]? = some b := hi
    rw [getElem?_startSlots] at hi
    split at hi
    · cases hi
      simp [TbSlot.isPendingRetx, TbSlot.start] at hp
    · rw [(hs.idle_of_isEmpty hempty b (List.mem_of_getElem? hi)).2] at hp
      cases hp

/-- A retransmission is due one round trip after the transmission, and by then no block
of the process waits for feedback. -/
theorem InFlight.of_hasPendingRetx {roundTrip elapsed : Nat} {now tx : Tti} {p : HarqProcess α}
    (h : p.InFlight roundTrip now tx elapsed) (hr : roundTrip ≤ 5119)
    (hdue : p.hasPendingRetx now = true) :
    elapsed = roundTrip ∧ ∀ b ∈ p.slots, b.awaiting = false := by
  obtain ⟨hretx, b, hb, hpending⟩ := hasPendingRetx_iff.mp hdue
  have hnow : tx + elapsed = tx + roundTrip := by
    rw [← h.now_eq]
    exact Option.some.inj (hretx.symm.trans (h.pending b hb hpending))
  have helapsed : elapsed = roundTrip := by
    have := Tti.add_eq_add_iff.mp hnow
    have := h.within
    omega
  refine ⟨helapsed, fun c hc ↦ ?_⟩
  by_contra hawait
  exact absurd (h.awaiting c hc (by simpa using hawait)) (by omega)

theorem InFlight.resend {roundTrip elapsed : Nat} {now tx : Tti} {p : HarqProcess α}
    (h : p.InFlight roundTrip now tx elapsed) (hpos : 0 < roundTrip) (hr : roundTrip ≤ 5119)
    (hdue : p.hasPendingRetx now = true) (alloc : α) :
    (p.resend now alloc).2.InFlight roundTrip now now 0 where
  sent := rfl
  now_eq := (Tti.add_zero now).symm
  within := Nat.zero_le _
  due := .inl rfl
  awaiting := fun _ _ _ ↦ hpos
  pending := by
    intro b' hb' hp
    obtain ⟨b, hb, rfl⟩ := List.mem_map.mp hb'
    have hawait := (h.of_hasPendingRetx hr hdue).2 b hb
    split at hp
    · simp [TbSlot.isPendingRetx, TbSlot.resend] at hp
    · exact absurd hp ‹_›

/-! ## Feedback -/

theorem InFlight.setSlot {roundTrip elapsed : Nat} {now tx : Tti} {p : HarqProcess α}
    (h : p.InFlight roundTrip now tx elapsed) (tb : Nat) {b : TbSlot} (hawait : b.awaiting = false)
    (hstate : b.isPendingRetx = true → p.retxTti = some (tx + roundTrip)) :
    (p.setSlot tb b).InFlight roundTrip now tx elapsed :=
  { h with
    awaiting := by
      intro c hc ha
      rcases List.mem_or_eq_of_mem_set hc with hc | rfl
      · exact h.awaiting c hc ha
      · simp [hawait] at ha
    pending := by
      intro c hc hp
      rcases List.mem_or_eq_of_mem_set hc with hc | rfl
      · exact h.pending c hc hp
      · exact hstate hp }

theorem InFlight.setDue {roundTrip elapsed : Nat} {now tx : Tti} {p : HarqProcess α}
    (h : p.InFlight roundTrip now tx elapsed) :
    ({ p with retxTti := some (tx + roundTrip) } : HarqProcess α).InFlight roundTrip now tx
      elapsed :=
  { h with
    due := .inr rfl
    pending := fun _ _ _ ↦ rfl }

theorem isEmpty_feedback {p : HarqProcess α} (hs : p.Sound) (hempty : p.isEmpty = true)
    (tb : Nat) (ack : Bool) (roundTrip maxRetx : Nat) :
    (p.feedback tb ack roundTrip maxRetx).2.1.isEmpty = true := by
  have hidle := hs.idle_of_isEmpty hempty
  have hspec := p.feedback_spec tb ack roundTrip maxRetx
  generalize p.feedback tb ack roundTrip maxRetx = out at hspec
  cases hspec with
  | absent => exact hempty
  | repeated => exact hempty
  | refused => exact hempty
  | lateAck hslot hack hpending =>
      simp [(hidle _ (List.mem_of_getElem? hslot)).2] at hpending
  | acked hslot hawait => simp [(hidle _ (List.mem_of_getElem? hslot)).1] at hawait
  | nacked hslot hawait => simp [(hidle _ (List.mem_of_getElem? hslot)).1] at hawait
  | dropped hslot hawait => simp [(hidle _ (List.mem_of_getElem? hslot)).1] at hawait

theorem Timely.feedback {roundTrip : Nat} {now : Tti} {p : HarqProcess α}
    (h : p.Timely roundTrip now) (hs : p.Sound) (tb : Nat) (ack : Bool) (maxRetx : Nat) :
    (p.feedback tb ack roundTrip maxRetx).2.1.Timely roundTrip now := by
  rcases h with hempty | ⟨tx, elapsed, hflight⟩
  · exact .inl (isEmpty_feedback hs hempty tb ack roundTrip maxRetx)
  have hspec := p.feedback_spec tb ack roundTrip maxRetx
  generalize p.feedback tb ack roundTrip maxRetx = out at hspec
  cases hspec with
  | absent => exact .inr ⟨tx, elapsed, hflight⟩
  | repeated => exact .inr ⟨tx, elapsed, hflight⟩
  | refused => exact .inr ⟨tx, elapsed, hflight⟩
  | @lateAck b hslot hack hpending =>
      have hset : (p.setSlot tb { b with state := .empty, lastAck := some true }).InFlight
          roundTrip now tx elapsed :=
        hflight.setSlot tb (TbSlot.isPendingRetx_iff.mp hpending).2
          (by simp [TbSlot.isPendingRetx])
      exact hset.settle
  | acked => exact (hflight.setSlot tb rfl (by simp [TbSlot.isPendingRetx])).settle
  | dropped => exact (hflight.setSlot tb rfl (by simp [TbSlot.isPendingRetx])).settle
  | @nacked b tx' hslot hawait htx =>
      obtain rfl : tx = tx' := Option.some.inj (hflight.sent.symm.trans htx)
      exact (hflight.setDue.setSlot tb rfl fun _ ↦ rfl).settle

end HarqProcess

/-! ## Tables -/

namespace HarqOp

variable {α : Type}

def clock (now : Option Tti) : HarqOp α → Option Tti
  | .advance t => some t
  | _ => now

/-- The operation moves the clock forward, by less than half a turn and a round trip, or
sends at the latest point of the clock, or is one that carries no point. -/
def KeepsPace (roundTrip : Nat) (now : Option Tti) : HarqOp α → Prop
  | .advance t => ∀ last, now = some last → ∃ d, 1 ≤ d ∧ d + roundTrip ≤ 5120 ∧ t = last + d
  | .newTx _ t _ _ => now = some t
  | .newRetx _ t _ => now = some t
  | .setAck _ _ _ => True
  | .takeDropped => True
  | .reset => True

end HarqOp

def Paced {α : Type} (roundTrip : Nat) : Option Tti → List (HarqOp α) → Prop
  | _, [] => True
  | now, op :: ops => op.KeepsPace roundTrip now ∧ Paced roundTrip (op.clock now) ops

namespace HarqTable

variable {α : Type} {h : HarqTable α}

/-- Every process of the table is timely at `now`, which no operation of the table has
passed yet. -/
structure TimelyAt (now : Tti) (h : HarqTable α) : Prop where
  sound : h.Sound
  clock : h.lastTti = none ∨ h.lastTti = some now
  procs : ∀ p ∈ h.procs, p.Timely h.roundTrip now

theorem roundTrip_put (h : HarqTable α) (pid : Nat) (p : HarqProcess α) :
    (h.put pid p).roundTrip = h.roundTrip := nofProcs_put h pid p

theorem perform_bounds (h : HarqTable α) (op : HarqOp α) :
    (h.perform op).2.roundTrip = h.roundTrip ∧ (h.perform op).2.maxRetx = h.maxRetx := by
  cases op with
  | advance t =>
      rcases h.advance_cases t with ⟨-, heq⟩ | ⟨-, heq⟩ <;> simp [perform, heq, roundTrip]
  | newTx pid t sizes alloc =>
      rcases h.newTx_cases pid t sizes alloc with ⟨e, heq⟩ | ⟨p, -, -, -, heq⟩
      · simp [perform, heq]
      · exact ⟨by simp [perform, heq, roundTrip_put], by simp [perform, heq, put]⟩
  | newRetx pid t alloc =>
      rcases h.newRetx_cases pid t alloc with ⟨e, heq⟩ | ⟨p, -, -, heq⟩
      · simp [perform, heq]
      · exact ⟨by simp [perform, heq, roundTrip_put], by simp [perform, heq, put]⟩
  | setAck pid tb ack =>
      rcases h.setAck_cases pid tb ack with ⟨e, heq⟩ | ⟨p, -, heq⟩
      · simp [perform, heq]
      · simp [perform, heq, roundTrip, put]
  | takeDropped => exact ⟨rfl, rfl⟩
  | reset => exact ⟨by simp [perform, reset, roundTrip], rfl⟩

theorem isAfter_of_pace {last t : Tti} {roundTrip d : Nat} (hpos : 0 < roundTrip) (hd : 1 ≤ d)
    (hle : d + roundTrip ≤ 5120) (ht : t = last + d) : t.isAfter last = true := by
  rw [ht]
  exact Tti.isAfter_add_self hd (by omega)

theorem lastTti_perform (hpos : 0 < h.roundTrip) {op : HarqOp α}
    (hop : op.KeepsPace h.roundTrip h.lastTti) :
    (h.perform op).2.lastTti = op.clock h.lastTti := by
  cases op with
  | advance t =>
      rcases h.advance_cases t with ⟨⟨last, hlast, hnot⟩, -⟩ | ⟨-, heq⟩
      · obtain ⟨d, hd, hle, ht⟩ := hop last hlast
        simp [isAfter_of_pace hpos hd hle ht] at hnot
      · simp [perform, heq, HarqOp.clock]
  | newTx pid t sizes alloc =>
      rcases h.newTx_cases pid t sizes alloc with ⟨e, heq⟩ | ⟨p, -, -, -, heq⟩ <;>
        simp [perform, heq, put, HarqOp.clock]
  | newRetx pid t alloc =>
      rcases h.newRetx_cases pid t alloc with ⟨e, heq⟩ | ⟨p, -, -, heq⟩ <;>
        simp [perform, heq, put, HarqOp.clock]
  | setAck pid tb ack =>
      rcases h.setAck_cases pid tb ack with ⟨e, heq⟩ | ⟨p, -, heq⟩ <;>
        simp [perform, heq, put, HarqOp.clock]
  | takeDropped => rfl
  | reset => rfl

namespace TimelyAt

variable {now : Tti}

theorem of_get? (ht : h.TimelyAt now) {pid : Nat} {p : HarqProcess α} (hp : h.get? pid = some p) :
    p.Timely h.roundTrip now := ht.procs p (List.mem_of_getElem? hp)

theorem of_isEmpty (hs : h.Sound) (hclock : h.lastTti = none ∨ h.lastTti = some now)
    (hempty : ∀ p ∈ h.procs, p.isEmpty = true) : h.TimelyAt now :=
  ⟨hs, hclock, fun p hp ↦ .inl (hempty p hp)⟩

theorem advance (ht : h.TimelyAt now) (hpos : 0 < h.roundTrip) (hr : h.roundTrip ≤ 5119) {d : Nat}
    (hle : d + h.roundTrip ≤ 5120) : (h.advance (now + d)).2.TimelyAt (now + d) := by
  have hsound := ht.sound.advance (now + d)
  rcases h.advance_cases (now + d) with ⟨⟨last, hlast, hnot⟩, heq⟩ | ⟨-, heq⟩
  · obtain rfl : last = now := by
      rcases ht.clock with hnone | hsome
      · rw [hlast] at hnone
        cases hnone
      · exact Option.some.inj (hlast.symm.trans hsome)
    rcases Nat.eq_zero_or_pos d with rfl | hd
    · rw [heq, Tti.add_zero]
      exact ht
    · simp [isAfter_of_pace hpos hd hle rfl] at hnot
  · rw [heq] at hsound ⊢
    refine ⟨hsound, .inr rfl, fun q hq ↦ ?_⟩
    obtain ⟨p, hp, rfl⟩ := List.mem_map.mp hq
    have hround : (h.procs.map fun p ↦
        (p.advance (now + d) h.roundTrip h.maxRetx).1).length = h.roundTrip := List.length_map _
    unfold roundTrip at hround ⊢
    rw [hround]
    exact (ht.procs p hp).advance (ht.sound.blocks p hp) hr hle h.maxRetx

theorem put (ht : h.TimelyAt now) {pid : Nat} {p : HarqProcess α} (hsound : (h.put pid p).Sound)
    (hp : p.Timely h.roundTrip now) : (h.put pid p).TimelyAt now where
  sound := hsound
  clock := ht.clock
  procs := by
    intro q hq
    rw [roundTrip_put]
    rcases of_mem_put hq with hq | rfl
    · exact ht.procs q hq
    · exact hp

theorem newTx (ht : h.TimelyAt now) (hpos : 0 < h.roundTrip) (pid : Nat)
    (sizes : List (Nat × Nat)) (alloc : α) : (h.newTx pid now sizes alloc).2.TimelyAt now := by
  have hsound := ht.sound.newTx pid now sizes alloc
  rcases h.newTx_cases pid now sizes alloc with ⟨e, heq⟩ | ⟨p, hp, hempty, -, heq⟩
  · rw [heq]
    exact ht
  · rw [heq] at hsound ⊢
    exact ht.put hsound
      (.inr ⟨now, 0, .start (ht.sound.of_get? hp).1 hempty hpos now sizes alloc⟩)

theorem inFlight_of_hasPendingRetx (ht : h.TimelyAt now) {pid : Nat} {p : HarqProcess α}
    (hp : h.get? pid = some p) {t : Tti} (hdue : p.hasPendingRetx t = true) :
    ∃ tx elapsed, p.InFlight h.roundTrip now tx elapsed := by
  rcases ht.of_get? hp with hempty | hflight
  · obtain ⟨-, b, hb, hpending⟩ := HarqProcess.hasPendingRetx_iff.mp hdue
    simp [((ht.sound.of_get? hp).1.idle_of_isEmpty hempty b hb).2] at hpending
  · exact hflight

theorem newRetx (ht : h.TimelyAt now) (hpos : 0 < h.roundTrip) (hr : h.roundTrip ≤ 5119)
    (pid : Nat) (alloc : α) : (h.newRetx pid now alloc).2.TimelyAt now := by
  have hsound := ht.sound.newRetx pid now alloc
  rcases h.newRetx_cases pid now alloc with ⟨e, heq⟩ | ⟨p, hp, hdue, heq⟩
  · rw [heq]
    exact ht
  · rw [heq] at hsound ⊢
    obtain ⟨tx, elapsed, hflight⟩ := ht.inFlight_of_hasPendingRetx hp hdue
    exact ht.put hsound (.inr ⟨now, 0, hflight.resend hpos hr hdue alloc⟩)

theorem setAck (ht : h.TimelyAt now) (pid tb : Nat) (ack : Bool) :
    (h.setAck pid tb ack).2.TimelyAt now := by
  have hsound := ht.sound.setAck pid tb ack
  rcases h.setAck_cases pid tb ack with ⟨e, heq⟩ | ⟨p, hp, heq⟩
  · rw [heq]
    exact ht
  · rw [heq] at hsound ⊢
    have hput := ht.put ⟨hsound.blocks, hsound.pid_eq⟩
      ((ht.of_get? hp).feedback (ht.sound.of_get? hp).1 tb ack h.maxRetx)
    exact ⟨hsound, hput.clock, hput.procs⟩

theorem takeDropped (ht : h.TimelyAt now) : h.takeDropped.2.TimelyAt now :=
  ⟨ht.sound.takeDropped, ht.clock, ht.procs⟩

theorem reset (ht : h.TimelyAt now) : h.reset.TimelyAt now := by
  apply of_isEmpty ht.sound.reset ht.clock
  intro q hq
  obtain ⟨p, -, rfl⟩ := List.mem_map.mp hq
  exact p.isEmpty_reset

end TimelyAt

/-- The table is timely at the latest point of its clock; before the first one, at any. -/
def Timely (h : HarqTable α) : Prop :=
  ∀ now, (h.lastTti = none ∨ h.lastTti = some now) → h.TimelyAt now

namespace Timely

theorem sound (ht : h.Timely) : h.Sound := by
  cases hlast : h.lastTti with
  | none => exact (ht default (.inl hlast)).sound
  | some now => exact (ht now (.inr hlast)).sound

theorem of_lastTti {now : Tti} (ht : h.TimelyAt now) (hlast : h.lastTti = some now) : h.Timely := by
  intro t hclock
  rcases hclock with hnone | hsome
  · rw [hlast] at hnone
    cases hnone
  · obtain rfl : now = t := Option.some.inj (hlast.symm.trans hsome)
    exact ht

theorem empty (roundTrip nofTbs maxRetx : Nat) :
    (HarqTable.empty roundTrip nofTbs maxRetx : HarqTable α).Timely := by
  refine fun now hclock ↦ .of_isEmpty (.empty roundTrip nofTbs maxRetx) hclock fun p hp ↦ ?_
  obtain ⟨pid, -, rfl⟩ := List.mem_map.mp hp
  simp [HarqProcess.isEmpty, HarqProcess.idle, TbSlot.isEmpty]

theorem advance (ht : h.Timely) (hpos : 0 < h.roundTrip) (hr : h.roundTrip ≤ 5119) {t : Tti}
    (hop : (HarqOp.advance t : HarqOp α).KeepsPace h.roundTrip h.lastTti) :
    (h.advance t).2.Timely := by
  have hlast := lastTti_perform hpos hop
  refine of_lastTti ?_ hlast
  cases hbefore : h.lastTti with
  | none =>
      -- before the first point any point serves as the one before it
      have hnext : t + 10239 + 1 = t := by
        rw [Tti.add_add]
        exact (Tti.add_eq_add_iff.mpr rfl).trans (Tti.add_zero t)
      have hmoved := (ht (t + 10239) (.inl hbefore)).advance (d := 1) hpos hr (by omega)
      rwa [hnext] at hmoved
  | some last =>
      obtain ⟨d, hd, hle, rfl⟩ := hop last hbefore
      exact (ht last (.inr hbefore)).advance hpos hr hle

theorem perform (ht : h.Timely) (hpos : 0 < h.roundTrip) (hr : h.roundTrip ≤ 5119)
    {op : HarqOp α} (hop : op.KeepsPace h.roundTrip h.lastTti) : (h.perform op).2.Timely := by
  have hlast := lastTti_perform hpos hop
  cases op with
  | advance t => exact ht.advance hpos hr hop
  | newTx pid t sizes alloc =>
      exact of_lastTti ((ht t (.inr hop)).newTx hpos pid sizes alloc) (hlast.trans hop)
  | newRetx pid t alloc =>
      exact of_lastTti ((ht t (.inr hop)).newRetx hpos hr pid alloc) (hlast.trans hop)
  | setAck pid tb ack =>
      intro now hclock
      rw [hlast] at hclock
      exact (ht now hclock).setAck pid tb ack
  | takeDropped => exact fun now hclock ↦ (ht now hclock).takeDropped
  | reset => exact fun now hclock ↦ (ht now hclock).reset

end Timely

end HarqTable

end MacScheduler
