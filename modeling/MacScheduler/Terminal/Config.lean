import MacScheduler.Cell.Params
import MacScheduler.Control.Dci
import MacScheduler.Count
import MacScheduler.Error

/-!
# Terminal configuration

A terminal is configured with carriers, the first of which is its primary one,
with bearers keyed by logical channel, and with limits on what it may be
granted.
-/

namespace MacScheduler

/-- A carrier configured for a terminal, and whether it is to be active. -/
structure CarrierConfig where
  index : Nat
  active : Bool
deriving DecidableEq

abbrev Bearers := List (Nat × Bearer)

namespace Bearers

def get? : Bearers → Nat → Option Bearer
  | [], _ => none
  | (k, b) :: rest, lcid => if k = lcid then some b else get? rest lcid

/-- Binds a logical channel, replacing its bearer. -/
def insert : Bearers → Nat → Bearer → Bearers
  | [], lcid, b => [(lcid, b)]
  | (k, c) :: rest, lcid, b =>
      if lcid < k then (lcid, b) :: (k, c) :: rest
      else if lcid = k then (lcid, b) :: rest
      else (k, c) :: insert rest lcid b

def erase (bearers : Bearers) (lcid : Nat) : Bearers :=
  bearers.filter fun (k, _) ↦ decide (k ≠ lcid)

theorem get?_insert (bearers : Bearers) (lcid k : Nat) (b : Bearer) :
    (bearers.insert lcid b).get? k = if lcid = k then some b else bearers.get? k := by
  induction bearers with
  | nil => rfl
  | cons entry rest ih =>
      obtain ⟨k', c⟩ := entry
      rcases Nat.lt_trichotomy lcid k' with hlt | heq | hgt
      · simp [insert, get?, hlt]
      · subst heq
        by_cases hk : lcid = k <;> simp [insert, get?, hk]
      · have hne : lcid ≠ k' := Nat.ne_of_gt hgt
        by_cases hk : k' = k
        · subst hk
          simp [insert, get?, Nat.lt_asymm hgt, hne]
        · simp [insert, get?, Nat.lt_asymm hgt, hne, hk, ih]

theorem get?_erase (bearers : Bearers) (lcid k : Nat) :
    (bearers.erase lcid).get? k = if lcid = k then none else bearers.get? k := by
  induction bearers with
  | nil => by_cases hk : lcid = k <;> simp [erase, get?, hk]
  | cons entry rest ih =>
      obtain ⟨k', c⟩ := entry
      by_cases hl : k' = lcid
      · have hdrop : erase ((k', c) :: rest) lcid = erase rest lcid := by simp [erase, hl]
        rw [hdrop, ih, hl]
        by_cases hk : lcid = k <;> simp [get?, hk]
      · have hkeep : erase ((k', c) :: rest) lcid = (k', c) :: erase rest lcid := by
          simp [erase, hl]
        rw [hkeep, get?, ih]
        by_cases hk : k' = k
        · subst hk
          simp [get?, Ne.symm hl]
        · simp [get?, hk]

/-- The bearers of a list, the last one of each channel. -/
def ofList (entries : List (Nat × Bearer)) : Bearers :=
  entries.foldl (fun bearers (lcid, b) ↦ insert bearers lcid b) []

end Bearers

structure TerminalConfig where
  carriers : List CarrierConfig := [⟨0, true⟩]
  bearers : Bearers := [(0, ⟨.both, 0, 0⟩)]
  maxAggrLevel : Nat := MacScheduler.maxAggrLevel
  /-- Scheduling request period, where the cell's own is not wanted. -/
  srPeriod : Option Nat := none
  /-- Channel report period, where the cell's own is not wanted. -/
  cqiPeriod : Option Nat := none
  maxMcsDl : Option Nat := none
  maxMcsUl : Option Nat := none
deriving DecidableEq

namespace TerminalConfig

def primary? (c : TerminalConfig) : Option Nat := c.carriers.head?.map (·.index)

/-- Position of a carrier in the list of the terminal. -/
def position? (c : TerminalConfig) (index : Nat) : Option Nat :=
  c.carriers.findIdx? fun cc ↦ decide (cc.index = index)

/-- The first carrier that does not exist or appears again after `seen`. -/
def badCarrier? (nofCells : Nat) : (seen : List Nat) → List CarrierConfig → Option Nat
  | _, [] => none
  | seen, cc :: rest =>
      if nofCells ≤ cc.index ∨ seen.contains cc.index then some cc.index
      else badCarrier? nofCells (cc.index :: seen) rest

def checkBearers : Bearers → Except SchedError Unit
  | [] => .ok ()
  | (lcid, b) :: rest =>
      match b.check lcid with
      | .error e => .error (.bearer e)
      | .ok () => checkBearers rest

/-- Accepts a configuration for a scheduler with `nofCells` carriers. -/
def check (c : TerminalConfig) (nofCells : Nat) : Except SchedError Unit :=
  if c.carriers = [] then .error (.invalidCarrier maxCount)
  else
    match badCarrier? nofCells [] c.carriers, c.srPeriod.filter (!isSrPeriod ·),
        c.cqiPeriod.filter (!isCqiPeriod ·) with
    | some index, _, _ => .error (.invalidCarrier index)
    | none, some period, _ => .error (.invalidPeriod period)
    | none, none, some period => .error (.invalidPeriod period)
    | none, none, none => checkBearers c.bearers

end TerminalConfig

end MacScheduler
