import MacScheduler.Terminal.Basic

/-!
# The roster

The attached terminals, one per identifier, in ascending order.
-/

namespace MacScheduler

abbrev Roster := List Terminal

namespace Roster

def get? (r : Roster) (rnti : Rnti) : Option Terminal :=
  r.find? fun t ↦ decide (t.rnti = rnti)

/-- Adds a terminal at its place, or replaces the one with its identifier. -/
def insert (t : Terminal) : Roster → Roster
  | [] => [t]
  | u :: rest =>
      if t.rnti.val < u.rnti.val then t :: u :: rest
      else if t.rnti = u.rnti then t :: rest
      else u :: insert t rest

def update (r : Roster) (t : Terminal) : Roster :=
  r.map fun u ↦ if u.rnti = t.rnti then t else u

def erase (r : Roster) (rnti : Rnti) : Roster :=
  r.filter fun t ↦ decide (t.rnti ≠ rnti)

theorem get?_cons (t : Terminal) (r : Roster) (rnti : Rnti) :
    get? (t :: r) rnti = if t.rnti = rnti then some t else r.get? rnti := by
  by_cases h : t.rnti = rnti <;> simp [get?, h]

theorem update_cons (u : Terminal) (r : Roster) (t : Terminal) :
    update (u :: r) t = (if u.rnti = t.rnti then t else u) :: r.update t := rfl

theorem get?_update (r : Roster) (t : Terminal) (rnti : Rnti) :
    (r.update t).get? rnti =
      if t.rnti = rnti then (r.get? rnti).map fun _ ↦ t else r.get? rnti := by
  induction r with
  | nil => simp [update, get?]
  | cons u rest ih =>
      rw [update_cons, get?_cons, get?_cons, ih]
      by_cases ht : t.rnti = rnti
      · by_cases hu : u.rnti = rnti <;> simp [ht, hu]
      · by_cases hu : u.rnti = t.rnti <;> simp [ht, hu]

end Roster

end MacScheduler
