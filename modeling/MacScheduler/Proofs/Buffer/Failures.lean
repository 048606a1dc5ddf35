import MacScheduler.Buffer.Channels

/-!
# Failure counters

The blocks lost in each direction are counted by `recordFailure`; reports, fills,
grants and bearers leave both counters alone.
-/

namespace MacScheduler.Channels

def failures (c : Channels) : Direction → Nat
  | .downlink => c.dlFailures
  | .uplink => c.ulFailures

variable (c : Channels) (dir : Direction)

theorem failures_recordFailure (bytes : Nat) (dir' : Direction) :
    (c.recordFailure bytes dir').failures dir = c.failures dir + if dir' = dir then 1 else 0 := by
  cases dir' <;> cases dir <;> rfl

/-- Lost blocks add to the counter of their own direction. -/
theorem failures_foldl_recordFailure {β : Type} (ds : List (Direction × β)) (bytes : β → Nat) :
    (ds.foldl (fun c d ↦ c.recordFailure (bytes d.2) d.1) c).failures dir =
      c.failures dir + ds.countP fun d ↦ decide (d.1 = dir) := by
  induction ds generalizing c with
  | nil => rfl
  | cons d ds ih =>
      rw [List.foldl_cons, ih, failures_recordFailure, List.countP_cons]
      simp only [decide_eq_true_eq]
      omega

theorem failures_configure (lcid : Nat) (b : Bearer) :
    (c.configure lcid b).2.failures dir = c.failures dir := by
  unfold configure
  cases b.check lcid <;> cases dir <;> rfl

theorem failures_remove (lcid : Nat) : (c.remove lcid).2.failures dir = c.failures dir := by
  unfold remove
  split <;> cases dir <;> rfl

theorem failures_reportDownlink (lcid fresh repeated : Nat) :
    (c.reportDownlink lcid fresh repeated).2.failures dir = c.failures dir := by
  unfold reportDownlink
  dsimp only
  split <;> cases dir <;> rfl

theorem failures_reportUplink (lcg bytes : Nat) :
    (c.reportUplink lcg bytes).2.failures dir = c.failures dir := by
  unfold reportUplink
  split <;> cases dir <;> rfl

theorem failures_pushCe (ce : MacCe) : (c.pushCe ce).failures dir = c.failures dir := by
  cases dir <;> rfl

theorem failures_serve (room : Nat) (lcids : List Nat) :
    (c.serve room lcids).2.failures dir = c.failures dir := by
  induction lcids generalizing c room with
  | nil => rfl
  | cons lcid lcids ih =>
      rw [serve]
      split
      · rfl
      · refine (ih _ _).trans ?_
        cases dir <;> rfl

theorem failures_fill (tbs : Nat) : (c.fill tbs).2.failures dir = c.failures dir := by
  refine (failures_serve _ dir _ _).trans ?_
  cases dir <;> rfl

theorem failures_grantUplink (bytes : Nat) :
    (c.grantUplink bytes).failures dir = c.failures dir := by
  cases dir <;> rfl

end MacScheduler.Channels
