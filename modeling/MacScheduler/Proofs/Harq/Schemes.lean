import MacScheduler.Proofs.Harq.Table

/-!
# Schemes of the blocks in a table

A block keeps the scheme with which it started, resolved or not, until the next
one takes its place.  So a cap on the schemes of fresh blocks is a cap on every
scheme that a table holds or announces.
-/

namespace MacScheduler

namespace HarqProcess

variable {α : Type} {p : HarqProcess α} {cap : Nat}

def Within (cap : Nat) (p : HarqProcess α) : Prop := ∀ b ∈ p.slots, b.mcs ≤ cap

namespace Within

theorem idle (pid : Nat) : (HarqProcess.idle pid : HarqProcess α).Within cap := by
  intro b hb
  rw [List.eq_of_mem_replicate hb]
  exact Nat.zero_le cap

theorem settle (h : p.Within cap) : p.settle.Within cap := by
  unfold Within
  rwa [slots_settle]

theorem setSlot (h : p.Within cap) {tb : Nat} {b b' : TbSlot} (hslot : p.slots[tb]? = some b)
    (hmcs : b'.mcs = b.mcs) : (p.setSlot tb b').Within cap := by
  intro k hk
  rcases List.mem_or_eq_of_mem_set hk with hk | rfl
  · exact h k hk
  · exact hmcs ▸ h b (List.mem_of_getElem? hslot)

theorem advance (h : p.Within cap) (now : Tti) (roundTrip maxRetx : Nat) :
    (p.advance now roundTrip maxRetx).1.Within cap := by
  intro b' hb'
  rcases of_mem_advance hb' with hb' | ⟨b, hb, tx, tb, due, out, hadvanced, rfl⟩
  · exact h b' hb'
  · have hmcs : out.1.mcs = b.mcs := by cases hadvanced <;> rfl
    exact hmcs ▸ h b hb

theorem start (h : p.Within cap) (t : Tti) {sizes : List (Nat × Nat)}
    (hsizes : ∀ size ∈ sizes, size.2 ≤ cap) (alloc : α) :
    (p.start t sizes alloc).2.Within cap := by
  intro b' hb'
  obtain ⟨i, hi⟩ := List.mem_iff_getElem?.mp hb'
  have hi : (startSlots p.slots sizes).1[i]? = some b' := hi
  rw [getElem?_startSlots] at hi
  split at hi
  · rename_i hsize
    cases hi
    exact hsizes _ (List.mem_of_getElem? hsize)
  · exact h b' (List.mem_of_getElem? hi)

theorem resend (h : p.Within cap) (t : Tti) (alloc : α) : (p.resend t alloc).2.Within cap := by
  intro b' hb'
  obtain ⟨b, hb, rfl⟩ := List.mem_map.mp hb'
  split <;> exact h b hb

theorem feedback (h : p.Within cap) (tb : Nat) (ack : Bool) (roundTrip maxRetx : Nat) :
    (p.feedback tb ack roundTrip maxRetx).2.1.Within cap := by
  have hspec := p.feedback_spec tb ack roundTrip maxRetx
  generalize p.feedback tb ack roundTrip maxRetx = out at hspec
  cases hspec with
  | absent => exact h
  | lateAck hslot => exact settle (h.setSlot hslot rfl)
  | repeated => exact h
  | refused => exact h
  | acked hslot => exact settle (h.setSlot hslot rfl)
  | nacked hslot => exact settle (h.setSlot hslot rfl)
  | dropped hslot => exact settle (h.setSlot hslot rfl)

theorem reset (p : HarqProcess α) : p.reset.Within cap := by
  intro b' hb'
  obtain ⟨b, -, rfl⟩ := List.mem_map.mp hb'
  exact Nat.zero_le cap

end Within

theorem mcs_of_mem_start {t : Tti} {sizes : List (Nat × Nat)}
    (hsizes : ∀ size ∈ sizes, size.2 ≤ cap) {alloc : α} {g : TbGrant}
    (hg : g ∈ (p.start t sizes alloc).1) : g.mcs ≤ cap := by
  obtain ⟨i, hi⟩ := List.mem_iff_getElem?.mp hg
  have hi : (startSlots p.slots sizes).2[i]? = some g := hi
  rw [getElem?_startSlots_grants] at hi
  split at hi
  · rename_i hsize
    cases hi
    exact hsizes _ (List.mem_of_getElem? hsize)
  · cases hi

theorem Within.mcs_of_mem_resend (h : p.Within cap) {t : Tti} {alloc : α} {g : TbGrant}
    (hg : g ∈ (p.resend t alloc).1) : g.mcs ≤ cap := by
  obtain ⟨b, hb, rfl⟩ := List.mem_map.mp hg
  exact h b (List.mem_filter.mp hb).1

end HarqProcess

namespace HarqTable

variable {α : Type} {h : HarqTable α} {cap : Nat}

def Within (cap : Nat) (h : HarqTable α) : Prop := ∀ p ∈ h.procs, p.Within cap

namespace Within

theorem empty (roundTrip nofTbs maxRetx : Nat) :
    (HarqTable.empty roundTrip nofTbs maxRetx : HarqTable α).Within cap := by
  intro p hp
  obtain ⟨pid, -, rfl⟩ := List.mem_map.mp hp
  exact .idle pid

theorem put (hw : h.Within cap) (pid : Nat) {p : HarqProcess α} (hp : p.Within cap) :
    (h.put pid p).Within cap := by
  intro q hq
  rcases of_mem_put hq with hq | rfl
  · exact hw q hq
  · exact hp

theorem of_get? (hw : h.Within cap) {pid : Nat} {p : HarqProcess α} (hp : h.get? pid = some p) :
    p.Within cap := hw p (List.mem_of_getElem? hp)

theorem advance (hw : h.Within cap) (t : Tti) : (h.advance t).2.Within cap := by
  rcases h.advance_cases t with ⟨-, heq⟩ | ⟨-, heq⟩
  · rw [heq]
    exact hw
  · rw [heq]
    intro q hq
    obtain ⟨p, hp, rfl⟩ := List.mem_map.mp hq
    exact (hw p hp).advance t h.roundTrip h.maxRetx

theorem setAck (hw : h.Within cap) (pid tb : Nat) (ack : Bool) :
    (h.setAck pid tb ack).2.Within cap := by
  rcases h.setAck_cases pid tb ack with ⟨e, heq⟩ | ⟨p, hp, heq⟩
  · rw [heq]
    exact hw
  · rw [heq]
    exact hw.put pid ((hw.of_get? hp).feedback tb ack h.roundTrip h.maxRetx)

theorem reset (h : HarqTable α) : h.reset.Within cap := by
  intro q hq
  obtain ⟨p, -, rfl⟩ := List.mem_map.mp hq
  exact .reset p

end Within

end HarqTable

end MacScheduler
