import MacScheduler.Harq.Table
import MacScheduler.Proofs.Harq.Process

/-!
# Operations of a table

What each operation of a table does: it either refuses and leaves the table as
it was, or it acts on one process.  Every block a table ever holds is sound, and
every process stays where its number says.
-/

namespace MacScheduler

namespace HarqProcess

variable {α : Type}

/-- Each slot of a process at a later point is one of its slots advanced. -/
theorem of_mem_advance {p : HarqProcess α} {now : Tti} {roundTrip maxRetx : Nat} {b' : TbSlot}
    (hb' : b' ∈ (p.advance now roundTrip maxRetx).1.slots) :
    b' ∈ p.slots ∨ ∃ b ∈ p.slots, ∃ tx tb due out,
      AdvancedSlot now tx roundTrip maxRetx p.pid tb due b out ∧ out.1 = b' := by
  rcases p.advance_eq now roundTrip maxRetx with ⟨-, heq⟩ | ⟨tx, -, heq⟩
  · rw [heq] at hb'
    exact .inl hb'
  · rw [heq, slots_settle] at hb'
    obtain ⟨hlen, -, hslots⟩ :=
      advanceSlots_spec now tx roundTrip maxRetx p.pid 0 p.retxTti p.slots
    obtain ⟨i, hi, rfl⟩ := List.mem_iff_getElem.mp hb'
    obtain ⟨b, hslot⟩ : ∃ b, p.slots[i]? = some b := ⟨_, List.getElem?_eq_getElem (hlen ▸ hi)⟩
    obtain ⟨due, -, hout, -⟩ := hslots i _ hslot
    rw [List.getElem?_eq_getElem hi] at hout
    exact .inr ⟨b, List.mem_of_getElem? hslot, tx, _, due, _, advanceSlot_spec _ _ _ _ _ _ _ b,
      (Option.some.inj hout).symm⟩

def Sound (p : HarqProcess α) : Prop := ∀ b ∈ p.slots, b.Sound

namespace Sound

variable {p : HarqProcess α}

theorem settle (h : p.Sound) : p.settle.Sound := by
  unfold Sound
  rwa [slots_settle]

theorem setSlot (h : p.Sound) (tb : Nat) {b : TbSlot} (hb : b.Sound) : (p.setSlot tb b).Sound := by
  intro b' hb'
  rcases List.mem_or_eq_of_mem_set hb' with hb' | rfl
  · exact h b' hb'
  · exact hb

theorem idle (pid : Nat) : (HarqProcess.idle pid : HarqProcess α).Sound := by
  intro b hb
  rw [List.eq_of_mem_replicate hb]
  exact TbSlot.sound_default

theorem advance (h : p.Sound) (now : Tti) (roundTrip maxRetx : Nat) :
    (p.advance now roundTrip maxRetx).1.Sound := by
  intro b' hb'
  rcases of_mem_advance hb' with hb' | ⟨b, hb, tx, tb, due, out, hadvanced, rfl⟩
  · exact h b' hb'
  · exact hadvanced.sound (h b hb)

theorem start (h : p.Sound) (t : Tti) (sizes : List (Nat × Nat)) (alloc : α) :
    (p.start t sizes alloc).2.Sound := by
  intro b' hb'
  obtain ⟨i, hi⟩ := List.mem_iff_getElem?.mp hb'
  have hi : (startSlots p.slots sizes).1[i]? = some b' := hi
  rw [getElem?_startSlots] at hi
  split at hi
  · cases hi
    exact .start _ _ _
  · exact h b' (List.mem_of_getElem? hi)

theorem resend (h : p.Sound) (t : Tti) (alloc : α) : (p.resend t alloc).2.Sound := by
  intro b' hb'
  obtain ⟨b, hb, rfl⟩ := List.mem_map.mp hb'
  split
  · exact .resend ‹_›
  · exact h b hb

theorem feedback (h : p.Sound) (tb : Nat) (ack : Bool) (roundTrip maxRetx : Nat) :
    (p.feedback tb ack roundTrip maxRetx).2.1.Sound := by
  have hspec := p.feedback_spec tb ack roundTrip maxRetx
  generalize p.feedback tb ack roundTrip maxRetx = out at hspec
  cases hspec with
  | absent => exact h
  | lateAck hslot hack hpending =>
      have hawait := (TbSlot.isPendingRetx_iff.mp hpending).2
      exact settle (h.setSlot tb ⟨fun ha ↦ by simp [hawait] at ha, by simp⟩)
  | repeated => exact h
  | refused => exact h
  | acked => exact settle (h.setSlot tb ⟨by simp, by simp⟩)
  | nacked => exact settle (h.setSlot tb ⟨by simp, by simp⟩)
  | dropped => exact settle (h.setSlot tb ⟨by simp, by simp⟩)

theorem reset (p : HarqProcess α) : p.reset.Sound := by
  intro b' hb'
  obtain ⟨b, -, rfl⟩ := List.mem_map.mp hb'
  exact .reset b

end Sound

@[simp] theorem pid_advance (p : HarqProcess α) (now : Tti) (roundTrip maxRetx : Nat) :
    (p.advance now roundTrip maxRetx).1.pid = p.pid := by
  rcases p.advance_eq now roundTrip maxRetx with ⟨-, heq⟩ | ⟨tx, -, heq⟩
  · rw [heq]
  · rw [heq, pid_settle]

@[simp] theorem pid_feedback (p : HarqProcess α) (tb : Nat) (ack : Bool)
    (roundTrip maxRetx : Nat) : (p.feedback tb ack roundTrip maxRetx).2.1.pid = p.pid := by
  have hspec := p.feedback_spec tb ack roundTrip maxRetx
  generalize p.feedback tb ack roundTrip maxRetx = out at hspec
  cases hspec <;> simp [setSlot]

/-! ## The slots of a process stay -/

theorem length_advance (p : HarqProcess α) (now : Tti) (roundTrip maxRetx : Nat) :
    (p.advance now roundTrip maxRetx).1.slots.length = p.slots.length := by
  rcases p.advance_eq now roundTrip maxRetx with ⟨-, heq⟩ | ⟨tx, -, heq⟩
  · rw [heq]
  · rw [heq, slots_settle]
    exact (advanceSlots_spec now tx roundTrip maxRetx p.pid 0 p.retxTti p.slots).1

theorem length_startSlots (slots : List TbSlot) (sizes : List (Nat × Nat)) :
    (startSlots slots sizes).1.length = slots.length := by
  induction slots generalizing sizes with
  | nil => rfl
  | cons b slots ih =>
      cases sizes with
      | nil => rfl
      | cons size sizes => simp [startSlots, ih]

theorem length_start (p : HarqProcess α) (t : Tti) (sizes : List (Nat × Nat)) (alloc : α) :
    (p.start t sizes alloc).2.slots.length = p.slots.length := length_startSlots p.slots sizes

theorem length_resend (p : HarqProcess α) (t : Tti) (alloc : α) :
    (p.resend t alloc).2.slots.length = p.slots.length := List.length_map _

theorem length_feedback (p : HarqProcess α) (tb : Nat) (ack : Bool) (roundTrip maxRetx : Nat) :
    (p.feedback tb ack roundTrip maxRetx).2.1.slots.length = p.slots.length := by
  have hspec := p.feedback_spec tb ack roundTrip maxRetx
  generalize p.feedback tb ack roundTrip maxRetx = out at hspec
  cases hspec <;> simp

theorem length_reset (p : HarqProcess α) : p.reset.slots.length = p.slots.length :=
  List.length_map _

end HarqProcess

namespace HarqTable

variable {α : Type} {h : HarqTable α}

/-- The table as each operation leaves it. -/
structure Sound (h : HarqTable α) : Prop where
  blocks : ∀ p ∈ h.procs, p.Sound
  pid_eq : ∀ (i : Nat) (p : HarqProcess α), h.procs[i]? = some p → p.pid = i

/-! ## What an operation does -/

theorem advance_cases (h : HarqTable α) (t : Tti) :
    ((∃ last, h.lastTti = some last ∧ t.isAfter last = false) ∧ h.advance t = (0, h)) ∨
      ((∀ last, h.lastTti = some last → t.isAfter last = true) ∧
        (h.advance t).2 = { h with
          procs := h.procs.map fun p ↦ (p.advance t h.roundTrip h.maxRetx).1
          lastTti := some t
          dropped := h.dropped ++
            (h.procs.map fun p ↦ (p.advance t h.roundTrip h.maxRetx).2).flatten }) := by
  unfold advance
  cases hlast : h.lastTti with
  | none => exact .inr ⟨by simp, by simp [Function.comp_def]⟩
  | some last =>
      cases hafter : t.isAfter last with
      | false => exact .inl ⟨⟨last, rfl, hafter⟩, by simp [hafter]⟩
      | true =>
          refine .inr ⟨fun _ heq ↦ Option.some.inj heq ▸ hafter, ?_⟩
          simp [hafter, Function.comp_def]

theorem refusal?_eq_none {pid tb : Nat} (hr : h.refusal? pid tb = none) : tb < h.nofTbs := by
  unfold refusal? at hr
  split at hr
  · cases hr
  · split at hr
    · cases hr
    · exact Nat.lt_of_not_le ‹_›

theorem refusal?_of_get? {pid tb : Nat} {p : HarqProcess α} (hp : h.get? pid = some p)
    (htb : tb < h.nofTbs) : h.refusal? pid tb = none := by
  have hpid : pid < h.nofProcs := (List.getElem?_eq_some_iff.mp hp).1
  rw [refusal?, if_neg (Nat.not_le.mpr hpid), if_neg (Nat.not_le.mpr htb)]

theorem newTx_of_isEmpty {pid : Nat} {p : HarqProcess α} (hp : h.get? pid = some p)
    (hempty : p.isEmpty = true) (t : Tti) {sizes : List (Nat × Nat)}
    (hsizes : sizes.length - 1 < h.nofTbs) (alloc : α) :
    h.newTx pid t sizes alloc =
      (.ok (p.start t sizes alloc).1, h.put pid (p.start t sizes alloc).2) := by
  rw [newTx, refusal?_of_get? hp hsizes, hp]
  simp [hempty]

theorem newTx_cases (h : HarqTable α) (pid : Nat) (t : Tti) (sizes : List (Nat × Nat)) (alloc : α) :
    (∃ e, h.newTx pid t sizes alloc = (.error e, h)) ∨
      ∃ p, h.get? pid = some p ∧ p.isEmpty = true ∧ sizes.length ≤ h.nofTbs ∧
        h.newTx pid t sizes alloc =
          (.ok (p.start t sizes alloc).1, h.put pid (p.start t sizes alloc).2) := by
  unfold newTx
  cases hr : h.refusal? pid (sizes.length - 1) with
  | some e => exact .inl ⟨e, rfl⟩
  | none =>
      cases hp : h.get? pid with
      | none => exact .inl ⟨_, rfl⟩
      | some p =>
          cases hempty : p.isEmpty with
          | false => exact .inl ⟨.notActive pid 0, by simp [hempty]⟩
          | true =>
              have hlen := refusal?_eq_none hr
              exact .inr ⟨p, rfl, hempty, by omega, by simp [hempty]⟩

theorem newRetx_cases (h : HarqTable α) (pid : Nat) (t : Tti) (alloc : α) :
    (∃ e, h.newRetx pid t alloc = (.error e, h)) ∨
      ∃ p, h.get? pid = some p ∧ p.hasPendingRetx t = true ∧
        h.newRetx pid t alloc = (.ok (p.resend t alloc).1, h.put pid (p.resend t alloc).2) := by
  unfold newRetx
  cases h.refusal? pid 0 with
  | some e => exact .inl ⟨e, rfl⟩
  | none =>
      cases hp : h.get? pid with
      | none => exact .inl ⟨_, rfl⟩
      | some p =>
          cases hdue : p.hasPendingRetx t with
          | false => exact .inl ⟨.notActive pid 0, by simp [hdue]⟩
          | true => exact .inr ⟨p, rfl, hdue, by simp [hdue]⟩

theorem setAck_cases (h : HarqTable α) (pid tb : Nat) (ack : Bool) :
    (∃ e, h.setAck pid tb ack = (.error e, h)) ∨
      ∃ p, h.get? pid = some p ∧ h.setAck pid tb ack =
        ((p.feedback tb ack h.roundTrip h.maxRetx).1,
          { h.put pid (p.feedback tb ack h.roundTrip h.maxRetx).2.1 with
            dropped := h.dropped ++ (p.feedback tb ack h.roundTrip h.maxRetx).2.2 }) := by
  unfold setAck
  cases h.refusal? pid tb with
  | some e => exact .inl ⟨e, rfl⟩
  | none =>
      cases hp : h.get? pid with
      | none => exact .inl ⟨_, rfl⟩
      | some p => exact .inr ⟨p, rfl, rfl⟩

/-! ## Soundness -/

theorem of_mem_put {pid : Nat} {p q : HarqProcess α} (hq : q ∈ (h.put pid p).procs) :
    q ∈ h.procs ∨ q = p := List.mem_or_eq_of_mem_set hq

namespace Sound

theorem of_get? (hs : h.Sound) {pid : Nat} {p : HarqProcess α} (hp : h.get? pid = some p) :
    p.Sound ∧ p.pid = pid :=
  ⟨hs.blocks p (List.mem_of_getElem? hp), hs.pid_eq pid p hp⟩

theorem empty (roundTrip nofTbs maxRetx : Nat) :
    (HarqTable.empty roundTrip nofTbs maxRetx : HarqTable α).Sound where
  blocks := by
    intro p hp
    obtain ⟨pid, -, rfl⟩ := List.mem_map.mp hp
    exact .idle pid
  pid_eq := by
    intro i p hp
    simp only [HarqTable.empty, List.getElem?_map] at hp
    obtain ⟨j, hj, rfl⟩ := Option.map_eq_some_iff.mp hp
    obtain ⟨hlt, rfl⟩ := List.getElem?_eq_some_iff.mp hj
    simp [HarqProcess.idle]

theorem put (hs : h.Sound) {pid : Nat} {p : HarqProcess α} (hp : p.Sound) (hpid : p.pid = pid) :
    (h.put pid p).Sound where
  blocks := by
    intro q hq
    rcases of_mem_put hq with hq | rfl
    · exact hs.blocks q hq
    · exact hp
  pid_eq := by
    intro i q hq
    have hq : (h.put pid p).get? i = some q := hq
    rw [get?_put] at hq
    split at hq
    · obtain rfl := Option.some.inj hq
      exact hpid.trans (And.left ‹_›)
    · exact hs.pid_eq i q hq

theorem map (hs : h.Sound) {f : HarqProcess α → HarqProcess α}
    (hf : ∀ p, p.Sound → (f p).Sound) (hpid : ∀ p, (f p).pid = p.pid) :
    Sound { h with procs := h.procs.map f } where
  blocks := by
    intro q hq
    obtain ⟨p, hp, rfl⟩ := List.mem_map.mp hq
    exact hf p (hs.blocks p hp)
  pid_eq := by
    intro i q hq
    rw [List.getElem?_map] at hq
    obtain ⟨p, hp, rfl⟩ := Option.map_eq_some_iff.mp hq
    exact (hpid p).trans (hs.pid_eq i p hp)

theorem advance (hs : h.Sound) (t : Tti) : (h.advance t).2.Sound := by
  rcases h.advance_cases t with ⟨-, heq⟩ | ⟨-, heq⟩
  · rw [heq]
    exact hs
  · rw [heq]
    have hmap := hs.map (fun p hp ↦ hp.advance t h.roundTrip h.maxRetx)
      (fun p ↦ p.pid_advance t h.roundTrip h.maxRetx)
    exact ⟨hmap.blocks, hmap.pid_eq⟩

theorem newTx (hs : h.Sound) (pid : Nat) (t : Tti) (sizes : List (Nat × Nat)) (alloc : α) :
    (h.newTx pid t sizes alloc).2.Sound := by
  rcases h.newTx_cases pid t sizes alloc with ⟨e, heq⟩ | ⟨p, hp, -, -, heq⟩
  · rw [heq]
    exact hs
  · rw [heq]
    obtain ⟨hsound, hpid⟩ := hs.of_get? hp
    exact hs.put (hsound.start t sizes alloc) hpid

theorem newRetx (hs : h.Sound) (pid : Nat) (t : Tti) (alloc : α) :
    (h.newRetx pid t alloc).2.Sound := by
  rcases h.newRetx_cases pid t alloc with ⟨e, heq⟩ | ⟨p, hp, -, heq⟩
  · rw [heq]
    exact hs
  · rw [heq]
    obtain ⟨hsound, hpid⟩ := hs.of_get? hp
    exact hs.put (hsound.resend t alloc) hpid

theorem setAck (hs : h.Sound) (pid tb : Nat) (ack : Bool) : (h.setAck pid tb ack).2.Sound := by
  rcases h.setAck_cases pid tb ack with ⟨e, heq⟩ | ⟨p, hp, heq⟩
  · rw [heq]
    exact hs
  · rw [heq]
    obtain ⟨hsound, hpid⟩ := hs.of_get? hp
    have hput := hs.put (hsound.feedback tb ack h.roundTrip h.maxRetx)
      ((p.pid_feedback tb ack h.roundTrip h.maxRetx).trans hpid)
    exact ⟨hput.blocks, hput.pid_eq⟩

theorem takeDropped (hs : h.Sound) : h.takeDropped.2.Sound := ⟨hs.blocks, hs.pid_eq⟩

theorem reset (hs : h.Sound) : h.reset.Sound :=
  have hmap := hs.map (fun p _ ↦ .reset p) (fun _ ↦ rfl)
  ⟨hmap.blocks, hmap.pid_eq⟩

end Sound

/-! ## The shape of a table -/

/-- Blocks per process, with the same number of slots in each. -/
structure Shaped (nofTbs : Nat) (h : HarqTable α) : Prop where
  nofTbs_eq : h.nofTbs = nofTbs
  slots : ∀ p ∈ h.procs, p.slots.length = slotsPerProcess

namespace Shaped

variable {nofTbs : Nat}

theorem empty (roundTrip maxRetx : Nat) (htbs : max 1 (min nofTbs slotsPerProcess) = nofTbs) :
    (HarqTable.empty roundTrip nofTbs maxRetx : HarqTable α).Shaped nofTbs where
  nofTbs_eq := htbs
  slots := by
    intro p hp
    obtain ⟨pid, -, rfl⟩ := List.mem_map.mp hp
    exact List.length_replicate

theorem put (hs : h.Shaped nofTbs) (pid : Nat) {p : HarqProcess α}
    (hp : p.slots.length = slotsPerProcess) : (h.put pid p).Shaped nofTbs where
  nofTbs_eq := hs.nofTbs_eq
  slots := by
    intro q hq
    rcases of_mem_put hq with hq | rfl
    · exact hs.slots q hq
    · exact hp

theorem of_get? (hs : h.Shaped nofTbs) {pid : Nat} {p : HarqProcess α} (hp : h.get? pid = some p) :
    p.slots.length = slotsPerProcess := hs.slots p (List.mem_of_getElem? hp)

theorem advance (hs : h.Shaped nofTbs) (t : Tti) : (h.advance t).2.Shaped nofTbs := by
  rcases h.advance_cases t with ⟨-, heq⟩ | ⟨-, heq⟩
  · rw [heq]
    exact hs
  · rw [heq]
    refine ⟨hs.nofTbs_eq, fun q hq ↦ ?_⟩
    obtain ⟨p, hp, rfl⟩ := List.mem_map.mp hq
    exact (p.length_advance t h.roundTrip h.maxRetx).trans (hs.slots p hp)

theorem setAck (hs : h.Shaped nofTbs) (pid tb : Nat) (ack : Bool) :
    (h.setAck pid tb ack).2.Shaped nofTbs := by
  rcases h.setAck_cases pid tb ack with ⟨e, heq⟩ | ⟨p, hp, heq⟩
  · rw [heq]
    exact hs
  · rw [heq]
    have hput := hs.put pid
      ((p.length_feedback tb ack h.roundTrip h.maxRetx).trans (hs.of_get? hp))
    exact ⟨hput.nofTbs_eq, hput.slots⟩

theorem takeDropped (hs : h.Shaped nofTbs) : h.takeDropped.2.Shaped nofTbs :=
  ⟨hs.nofTbs_eq, hs.slots⟩

theorem reset (hs : h.Shaped nofTbs) : h.reset.Shaped nofTbs := by
  refine ⟨hs.nofTbs_eq, fun q hq ↦ ?_⟩
  obtain ⟨p, hp, rfl⟩ := List.mem_map.mp hq
  exact p.length_reset.trans (hs.slots p hp)

end Shaped

end HarqTable

end MacScheduler
