import MacScheduler.Buffer.Channels

/-!
# The queue of control elements

Control elements join the queue at its end and leave it in downlink blocks, in the
order queued.  Bearers, reports, uplink grants and failures leave the queue alone.
-/

namespace MacScheduler.Channels

variable (c : Channels)

theorem ces_configure (lcid : Nat) (b : Bearer) : (c.configure lcid b).2.ces = c.ces := by
  unfold configure
  cases b.check lcid <;> rfl

theorem ces_remove (lcid : Nat) : (c.remove lcid).2.ces = c.ces := by
  unfold remove
  split <;> rfl

theorem ces_reportDownlink (lcid fresh repeated : Nat) :
    (c.reportDownlink lcid fresh repeated).2.ces = c.ces := by
  unfold reportDownlink
  dsimp only
  split <;> rfl

theorem ces_reportUplink (lcg bytes : Nat) : (c.reportUplink lcg bytes).2.ces = c.ces := by
  unfold reportUplink
  split <;> rfl

theorem ces_foldl_recordFailure {β : Type} (ds : List (Direction × β)) (bytes : β → Nat) :
    (ds.foldl (fun c d ↦ c.recordFailure (bytes d.2) d.1) c).ces = c.ces := by
  induction ds generalizing c with
  | nil => rfl
  | cons d ds ih =>
      rw [List.foldl_cons, ih]
      cases d.1 <;> rfl

theorem ces_serve (room : Nat) (lcids : List Nat) : (c.serve room lcids).2.ces = c.ces := by
  induction lcids generalizing c room with
  | nil => rfl
  | cons lcid lcids ih =>
      rw [serve]
      split
      · rfl
      · exact ih _ _

theorem takeCes_append (room : Nat) (ces : List MacCe) :
    (takeCes room ces).1 ++ (takeCes room ces).2.2 = ces := by
  induction ces generalizing room with
  | nil => rfl
  | cons ce ces ih =>
      rw [takeCes]
      split
      · rfl
      · exact congrArg (ce :: ·) (ih (room - ce.size))

theorem ces_fill (tbs : Nat) : (c.fill tbs).2.ces = (takeCes tbs c.ces).2.2 := ces_serve _ _ _

/-- A downlink block carries the first elements queued, and the others stay in the queue. -/
theorem exists_fill (tbs : Nat) :
    ∃ sent pdus, (c.fill tbs).1 = sent.map DlPdu.ce ++ pdus ∧
      sent ++ (c.fill tbs).2.ces = c.ces := by
  refine ⟨(takeCes tbs c.ces).1, _, rfl, ?_⟩
  rw [ces_fill, takeCes_append]

end MacScheduler.Channels
