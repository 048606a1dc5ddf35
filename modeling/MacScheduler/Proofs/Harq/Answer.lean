import MacScheduler.Proofs.Harq.Steady

/-!
# Feedback by point

Feedback names the point of a transmission and no process, and a process keeps its
point after its blocks are resolved.  A busy process is preferred to an idle one, and
an idle one has nothing to answer for, so feedback reaches a process with an
unresolved block of that point, or changes nothing.
-/

namespace MacScheduler

/-- The answer to feedback that repeats what is known, or that is refused. -/
def Unheard {ε β : Type} (ignored : β) (r : Except ε β) : Prop :=
  r = .ok ignored ∨ ∃ e, r = .error e

section

variable {ε ε' β γ : Type} {ignored : β} {r : Except ε β}

theorem Unheard.map (h : Unheard ignored r) (f : β → γ) : Unheard (f ignored) (r.map f) := by
  rcases h with rfl | ⟨e, rfl⟩
  · exact .inl rfl
  · exact .inr ⟨e, rfl⟩

theorem Unheard.mapError (h : Unheard ignored r) (f : ε → ε') :
    Unheard ignored (r.mapError f) := by
  rcases h with rfl | ⟨e, rfl⟩
  · exact .inl rfl
  · exact .inr ⟨f e, rfl⟩

end

namespace HarqProcess

variable {α : Type} {p p' : HarqProcess α} {tb : Nat}

/-- Block `tb` of a process is not resolved. -/
def Holds (p : HarqProcess α) (tb : Nat) : Prop :=
  ∃ b, p.slots[tb]? = some b ∧ b.isEmpty = false

theorem Holds.not_isEmpty (h : p.Holds tb) : p.isEmpty = false := by
  obtain ⟨b, hslot, hopen⟩ := h
  apply not_isEmpty_of_mem (List.mem_of_getElem? hslot)
  simpa [TbSlot.isEmpty] using hopen

/-- `p'` is `p` with another answer to block `tb`, and `dropped` is what is given up. -/
structure Answers (tb : Nat) (p p' : HarqProcess α) (dropped : List DroppedTb) : Prop where
  pid_eq : p'.pid = p.pid
  txTti_eq : p'.txTti = p.txTti
  slots : ∀ k ≠ tb, p'.slots[k]? = p.slots[k]?
  dropped : ∀ d ∈ dropped, d.pid = p.pid ∧ d.tb = tb

theorem Answers.setSlot (tb : Nat) (b : TbSlot) {dropped : List DroppedTb}
    (hdropped : ∀ d ∈ dropped, d.pid = p.pid ∧ d.tb = tb) :
    p.Answers tb (p.setSlot tb b) dropped :=
  ⟨rfl, rfl, fun _ hk ↦ List.getElem?_set_ne (Ne.symm hk), hdropped⟩

theorem Answers.settle {dropped : List DroppedTb} (h : p.Answers tb p' dropped) :
    p.Answers tb p'.settle dropped where
  pid_eq := (pid_settle p').trans h.pid_eq
  txTti_eq := (txTti_settle p').trans h.txTti_eq
  slots := by
    rw [slots_settle]
    exact h.slots
  dropped := h.dropped

/-- Feedback answers an unresolved block, or it changes nothing. -/
theorem Sound.feedback_cases (hs : p.Sound) (tb : Nat) (ack : Bool) (roundTrip maxRetx : Nat) :
    (Unheard .ignored (p.feedback tb ack roundTrip maxRetx).1 ∧
      (p.feedback tb ack roundTrip maxRetx).2 = (p, [])) ∨
    (p.Holds tb ∧ p.Answers tb (p.feedback tb ack roundTrip maxRetx).2.1
      (p.feedback tb ack roundTrip maxRetx).2.2) := by
  have hspec := p.feedback_spec tb ack roundTrip maxRetx
  have hholds : ∀ b, p.slots[tb]? = some b → b.awaiting = true → p.Holds tb := by
    intro b hslot hawait
    have hstate := (hs b (List.mem_of_getElem? hslot)).not_empty hawait
    exact ⟨b, hslot, by simpa [TbSlot.isEmpty] using hstate⟩
  generalize p.feedback tb ack roundTrip maxRetx = out at hspec ⊢
  cases hspec with
  | absent => exact .inl ⟨.inr ⟨_, rfl⟩, rfl⟩
  | repeated => exact .inl ⟨.inl rfl, rfl⟩
  | refused => exact .inl ⟨.inr ⟨_, rfl⟩, rfl⟩
  | @lateAck b hslot _ hpending =>
      obtain ⟨hstate, -⟩ := TbSlot.isPendingRetx_iff.mp hpending
      refine .inr ⟨⟨b, hslot, by simp [TbSlot.isEmpty, hstate]⟩, ?_⟩
      exact (Answers.setSlot tb _ (by simp)).settle
  | @acked b hslot hawait =>
      exact .inr ⟨hholds b hslot hawait, (Answers.setSlot tb _ (by simp)).settle⟩
  | @nacked b tx hslot hawait =>
      refine .inr ⟨hholds b hslot hawait, Answers.settle ⟨rfl, rfl, ?_, by simp⟩⟩
      exact fun k hk ↦ List.getElem?_set_ne (Ne.symm hk)
  | @dropped b hslot hawait =>
      exact .inr ⟨hholds b hslot hawait, (Answers.setSlot tb _ (by simp)).settle⟩

end HarqProcess

namespace HarqTable

variable {α : Type} {h h' : HarqTable α} {t : Tti} {tb : Nat}

/-- No two unresolved processes were last sent at one point. -/
def Apart (h : HarqTable α) : Prop :=
  ∀ p ∈ h.procs, ∀ q ∈ h.procs, p.isEmpty = false → q.isEmpty = false → p.txTti = q.txTti → p = q

/-- A process last sent at `t` has not resolved its block `tb`. -/
def Unresolved (h : HarqTable α) (t : Tti) (tb : Nat) : Prop :=
  ∃ p ∈ h.procs, p.txTti = some t ∧ p.Holds tb

/-- `h'` is `h` after an answer to the unresolved block `tb` of a process last sent at `t`;
every other process is as it was. -/
def Hears (t : Tti) (tb : Nat) (h h' : HarqTable α) : Prop :=
  ∃ p p' dropped, h.get? p.pid = some p ∧ p.txTti = some t ∧ p.Holds tb ∧
    p.Answers tb p' dropped ∧ h' = { h.put p.pid p' with dropped := h.dropped ++ dropped }

theorem Hears.unresolved (hh : h.Hears t tb h') : h.Unresolved t tb := by
  obtain ⟨p, _, _, hp, hsent, hholds, -⟩ := hh
  exact ⟨p, List.mem_of_getElem? hp, hsent, hholds⟩

theorem of_sentAt? {pid : Nat} (hpid : h.sentAt? t = some pid) :
    ∃ p ∈ h.procs, p.pid = pid ∧ p.txTti = some t := by
  obtain ⟨p, hfind, rfl⟩ := Option.map_eq_some_iff.mp hpid
  rcases Option.or_eq_some_iff.mp hfind with hbusy | ⟨-, hany⟩
  · have hfound := List.find?_some hbusy
    exact ⟨p, List.mem_of_find?_eq_some hbusy, rfl,
      of_decide_eq_true (Bool.and_eq_true_iff.mp hfound).1⟩
  · have hfound := List.find?_some hany
    exact ⟨p, List.mem_of_find?_eq_some hany, rfl, by simpa using hfound⟩

theorem put_self {pid : Nat} {p : HarqProcess α} (hp : h.get? pid = some p) : h.put pid p = h := by
  obtain ⟨hlt, rfl⟩ := List.getElem?_eq_some_iff.mp hp
  rw [put, List.set_getElem_self]

/-- Feedback for the process found at a point. -/
theorem Sound.setAck_sentAt? (hs : h.Sound) {pid : Nat} (hpid : h.sentAt? t = some pid) (tb : Nat)
    (ack : Bool) :
    (Unheard .ignored (h.setAck pid tb ack).1 ∧ (h.setAck pid tb ack).2 = h) ∨
      h.Hears t tb (h.setAck pid tb ack).2 := by
  obtain ⟨p, hp, rfl, hsent⟩ := of_sentAt? hpid
  have hget := hs.get?_pid hp
  rcases h.setAck_cases p.pid tb ack with ⟨e, heq⟩ | ⟨q, hq, heq⟩
  · rw [heq]
    exact .inl ⟨.inr ⟨e, rfl⟩, rfl⟩
  · obtain rfl := Option.some.inj (hget.symm.trans hq)
    rw [heq]
    rcases (hs.blocks p hp).feedback_cases tb ack h.roundTrip h.maxRetx with
      ⟨hunheard, hsame⟩ | ⟨hholds, hanswers⟩
    · refine .inl ⟨hunheard, ?_⟩
      rw [hsame]
      dsimp only
      rw [List.append_nil, put_self hget]
    · exact .inr ⟨p, _, _, hget, hsent, hholds, hanswers, rfl⟩

end HarqTable

end MacScheduler
