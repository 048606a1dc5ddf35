import MacScheduler.Proofs.Harq.Table

/-!
# Runs of a table

The operations of a table as data, and what any sequence of them does.  A run
answers each operation in turn; the table it ends with and the answers together
are what a caller ever sees.
-/

namespace MacScheduler

inductive HarqOp (α : Type) where
  | advance (t : Tti)
  | newTx (pid : Nat) (t : Tti) (sizes : List (Nat × Nat)) (alloc : α)
  | newRetx (pid : Nat) (t : Tti) (alloc : α)
  | setAck (pid tb : Nat) (ack : Bool)
  | takeDropped
  | reset

inductive HarqReply where
  | moved (nofDropped : Nat)
  | started (r : Except HarqError (List TbGrant))
  | resent (r : Except HarqError (List TbGrant))
  | answered (r : Except HarqError AckOutcome)
  | taken (dropped : List DroppedTb)
  | emptied

namespace HarqTable

variable {α : Type}

def perform (h : HarqTable α) : HarqOp α → HarqReply × HarqTable α
  | .advance t => (.moved (h.advance t).1, (h.advance t).2)
  | .newTx pid t sizes alloc =>
      (.started (h.newTx pid t sizes alloc).1, (h.newTx pid t sizes alloc).2)
  | .newRetx pid t alloc => (.resent (h.newRetx pid t alloc).1, (h.newRetx pid t alloc).2)
  | .setAck pid tb ack => (.answered (h.setAck pid tb ack).1, (h.setAck pid tb ack).2)
  | .takeDropped => (.taken h.takeDropped.1, h.takeDropped.2)
  | .reset => (.emptied, h.reset)

def run (h : HarqTable α) : List (HarqOp α) → List HarqReply × HarqTable α
  | [] => ([], h)
  | op :: ops =>
      ((h.perform op).1 :: ((h.perform op).2.run ops).1, ((h.perform op).2.run ops).2)

def slot? (h : HarqTable α) (pid tb : Nat) : Option TbSlot := (h.get? pid).bind (·.slots[tb]?)

variable {h : HarqTable α}

theorem slot?_eq {pid : Nat} {p : HarqProcess α} (hp : h.get? pid = some p) (tb : Nat) :
    h.slot? pid tb = p.slots[tb]? := by
  simp [slot?, hp]

theorem slot?_put_self {pid : Nat} {p : HarqProcess α} (hp : h.get? pid = some p)
    (q : HarqProcess α) (tb : Nat) : (h.put pid q).slot? pid tb = q.slots[tb]? := by
  have hlt : pid < h.nofProcs := (List.getElem?_eq_some_iff.mp hp).1
  exact slot?_eq (by rw [get?_put, if_pos ⟨rfl, hlt⟩]) tb

theorem slot?_put_of_ne {pid k : Nat} (hk : pid ≠ k) (q : HarqProcess α) (tb : Nat) :
    (h.put pid q).slot? k tb = h.slot? k tb := by
  unfold slot?
  rw [get?_put, if_neg fun hand ↦ hk hand.1]

theorem Sound.perform (hs : h.Sound) (op : HarqOp α) : (h.perform op).2.Sound := by
  cases op with
  | advance t => exact hs.advance t
  | newTx pid t sizes alloc => exact hs.newTx pid t sizes alloc
  | newRetx pid t alloc => exact hs.newRetx pid t alloc
  | setAck pid tb ack => exact hs.setAck pid tb ack
  | takeDropped => exact hs.takeDropped
  | reset => exact hs.reset

end HarqTable

end MacScheduler
