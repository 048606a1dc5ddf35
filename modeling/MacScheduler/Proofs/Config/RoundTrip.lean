import MacScheduler.Config.Load
import MacScheduler.Proofs.Config.Check
import MacScheduler.Proofs.Config.Leaves

/-!
# A configuration as a layer

A configuration states each of its fields in its own document, an absent count as a
null.  So laid on top of anything it is read back as it was, and the answer is that of
its check.
-/

namespace MacScheduler

open Value

/-! ## Numbers that fit their words -/

structure CellConfig.Fits (c : CellConfig) : Prop where
  nofPrb : c.nofPrb ≤ maxCount
  cfi : c.cfi ≤ maxCount
  nofCce : ∀ n, c.nofCce = some n → n ≤ maxCount
  nrbPucch : c.nrbPucch ≤ maxCount
  maxMcsDl : c.maxMcsDl ≤ maxCount
  maxMcsUl : c.maxMcsUl ≤ maxCount
  deltaPucchShift : c.deltaPucchShift ≤ maxCount
  ncsAn : c.ncsAn ≤ maxCount

structure HarqConfig.Fits (h : HarqConfig) : Prop where
  roundTrip : h.roundTrip ≤ maxCount
  maxRetx : h.maxRetx ≤ maxCount

structure PoolConfig.Fits (p : PoolConfig) : Prop where
  nofPrb : p.nofPrb ≤ maxCount
  nofSubframes : p.nofSubframes ≤ maxCount
  offsets : ∀ n ∈ p.offsets, n ≤ maxCount
  period : p.period ≤ maxCount

structure PucchConfig.Fits (p : PucchConfig) : Prop where
  sr : p.sr.Fits
  cqi : p.cqi.Fits

structure TimingConfig.Fits (t : TimingConfig) : Prop where
  deadline : ∀ n, t.deadline = some n → n ≤ 0xFFFFFFFFFFFFFFFF
  staleness : t.staleness ≤ maxCount
  fallbackMcs : t.fallbackMcs ≤ maxCount

/-- Every number of the configuration is one of its word. -/
structure Config.Fits (c : Config) : Prop where
  cells : ∀ cell ∈ c.cells, cell.Fits
  harq : c.harq.Fits
  pucch : c.pucch.Fits
  timing : c.timing.Fits

/-! ## Fields that are read as they were written -/

namespace Value

theorem nat?_ofNat {most n : Nat} (h : n ≤ most) : nat? most (ofNat n) = some n := by
  have hrange : (0 : Int) ≤ n ∧ (n : Int) ≤ most := ⟨Int.natCast_nonneg n, Int.ofNat_le.mpr h⟩
  rw [ofNat, nat?, if_pos hrange, Int.toNat_natCast]

theorem option?_ofOption {most : Nat} {n? : Option Nat} (h : ∀ n, n? = some n → n ≤ most) :
    option? (nat? most) (ofOption n?) = some n? := by
  cases n? with
  | none => rfl
  | some n => exact congrArg (Option.map some) (nat?_ofNat (h n rfl))

theorem mapM_of_forall {α : Type} {read : Value → Option α} {write : α → Value} {xs : List α}
    (h : ∀ x ∈ xs, read (write x) = some x) : (xs.map write).mapM read = some xs := by
  induction xs with
  | nil => rfl
  | cons x xs ih =>
      rw [List.map_cons, List.mapM_cons, h x List.mem_cons_self,
        ih fun y hy ↦ h y (List.mem_cons_of_mem x hy)]
      rfl

end Value

namespace Leaf

variable {σ : Type} {x : σ} {name : String}

theorem exact_word {get : σ → Nat} (h : get x ≤ maxCount) : (word name get).Exact x :=
  nat?_ofNat h

theorem exact_optional {most : Nat} {get : σ → Option Nat}
    (h : ∀ n, get x = some n → n ≤ most) : (optional most name get).Exact x :=
  option?_ofOption h

theorem exact_words {get : σ → List Nat} (h : ∀ n ∈ get x, n ≤ maxCount) :
    (words name get).Exact x :=
  mapM_of_forall fun n hn ↦ nat?_ofNat (h n hn)

theorem exact_flag (get : σ → Bool) : (flag name get).Exact x := rfl

theorem exact_number (get : σ → Float) : (number name get).Exact x := rfl

theorem exact_policy (get : σ → PolicyKind) : (policy name get).Exact x :=
  PolicyKind.ofName?_name (get x)

end Leaf

theorem CellConfig.Fits.exact {c : CellConfig} (h : c.Fits) :
    ∀ leaf ∈ table.leaves, leaf.Exact c := by
  simp only [table, leaves, List.forall_mem_cons, List.not_mem_nil, false_implies, implies_true,
    and_true]
  exact ⟨Leaf.exact_word h.nofPrb, Leaf.exact_word h.cfi, Leaf.exact_optional h.nofCce,
    Leaf.exact_word h.nrbPucch, Leaf.exact_word h.maxMcsDl, Leaf.exact_word h.maxMcsUl,
    Leaf.exact_word h.deltaPucchShift, Leaf.exact_flag _, Leaf.exact_word h.ncsAn⟩

theorem HarqConfig.Fits.exact {c : HarqConfig} (h : c.Fits) :
    ∀ leaf ∈ table.leaves, leaf.Exact c := by
  simp only [table, leaves, List.forall_mem_cons, List.not_mem_nil, false_implies, implies_true,
    and_true]
  exact ⟨Leaf.exact_word h.roundTrip, Leaf.exact_word h.maxRetx⟩

theorem PucchConfig.Fits.exact {c : PucchConfig} (h : c.Fits) :
    ∀ leaf ∈ table.leaves, leaf.Exact c := by
  simp only [table, leaves, List.forall_mem_cons, List.not_mem_nil, false_implies, implies_true,
    and_true]
  exact ⟨Leaf.exact_word h.sr.nofPrb, Leaf.exact_word h.sr.nofSubframes,
    Leaf.exact_words h.sr.offsets, Leaf.exact_word h.sr.period, Leaf.exact_word h.cqi.nofPrb,
    Leaf.exact_word h.cqi.nofSubframes, Leaf.exact_words h.cqi.offsets,
    Leaf.exact_word h.cqi.period⟩

theorem PolicyConfig.exact (c : PolicyConfig) : ∀ leaf ∈ table.leaves, leaf.Exact c := by
  simp only [table, leaves, List.forall_mem_cons, List.not_mem_nil, false_implies, implies_true,
    and_true]
  exact ⟨Leaf.exact_policy _, Leaf.exact_number _⟩

theorem TimingConfig.Fits.exact {c : TimingConfig} (h : c.Fits) :
    ∀ leaf ∈ table.leaves, leaf.Exact c := by
  simp only [table, leaves, List.forall_mem_cons, List.not_mem_nil, false_implies, implies_true,
    and_true]
  exact ⟨Leaf.exact_optional h.deadline, Leaf.exact_word h.staleness,
    Leaf.exact_word h.fallbackMcs⟩

namespace Config

variable {c : Config}

/-! ## Whole documents -/

def sectionNames : List String := ["cells", "harq", "pucch", "policy", "timing"]

theorem ofValue?_eq_some_iff {arity : Arity} {v : Value} :
    ofValue? arity v = some c ↔ ∃ entries, v.section? arity sectionNames = some entries ∧
      (∃ cells, lookup "cells" entries = some cells ∧
        list? (CellConfig.ofValue? arity) cells = some c.cells) ∧
      field? (HarqConfig.ofValue? arity) {} "harq" entries = some c.harq ∧
      field? (PucchConfig.ofValue? arity) {} "pucch" entries = some c.pucch ∧
      field? (PolicyConfig.ofValue? arity) {} "policy" entries = some c.policy ∧
      field? (TimingConfig.ofValue? arity) {} "timing" entries = some c.timing := by
  cases c
  simp only [ofValue?, Option.bind_eq_bind, Option.bind_eq_some_iff, Option.some.injEq,
    Config.mk.injEq, sectionNames]
  constructor
  · rintro ⟨entries, hentries, v, hv, _, h1, _, h2, _, h3, _, h4, _, h5, rfl, rfl, rfl, rfl, rfl⟩
    exact ⟨entries, hentries, ⟨v, hv, h1⟩, h2, h3, h4, h5⟩
  · rintro ⟨entries, hentries, ⟨v, hv, h1⟩, h2, h3, h4, h5⟩
    exact ⟨entries, hentries, v, hv, _, h1, _, h2, _, h3, _, h4, _, h5, rfl, rfl, rfl, rfl, rfl⟩

theorem tidy_toValue (c : Config) : c.toValue.Tidy := by
  refine .dict (by decide : sectionNames.Nodup) ?_
  simp only [List.forall_mem_cons, List.not_mem_nil, false_implies, implies_true, and_true]
  refine ⟨.list fun item hitem ↦ ?_, HarqConfig.table.tidy_toValue _,
    PucchConfig.table.tidy_toValue _, PolicyConfig.table.tidy_toValue _,
    TimingConfig.table.tidy_toValue _⟩
  obtain ⟨cell, -, rfl⟩ := List.mem_map.mp hitem
  exact CellConfig.table.tidy_toValue cell

theorem ofValue?_merge_toValue (h : c.Fits) (arity : Arity) (below : Value) :
    ofValue? arity (below.merge c.toValue) = some c := by
  obtain ⟨entries, heq⟩ := exists_entries (isDict_merge below c.toValue)
  have hget : ∀ name, lookup name entries = overlay (below.get? name) (c.toValue.get? name) := by
    intro name
    rw [← get?_merge c.tidy_toValue rfl, heq]
    rfl
  have hcells : lookup "cells" entries = some (.list (c.cells.map CellConfig.toValue)) :=
    (hget "cells").trans (overlay_of_not_isDict rfl _)
  have hread : list? (CellConfig.ofValue? arity) (.list (c.cells.map CellConfig.toValue)) =
      some c.cells :=
    mapM_of_forall fun cell hcell ↦
      CellConfig.table.ofValue?_toValue (h.cells cell hcell).exact arity
  rw [heq]
  exact ofValue?_eq_some_iff.mpr ⟨entries, rfl, ⟨_, hcells, hread⟩,
    HarqConfig.table.field?_of_overlay h.harq.exact arity (hget "harq") {},
    PucchConfig.table.field?_of_overlay h.pucch.exact arity (hget "pucch") {},
    PolicyConfig.table.field?_of_overlay c.policy.exact arity (hget "policy") {},
    TimingConfig.table.field?_of_overlay h.timing.exact arity (hget "timing") {}⟩

/-- Laid on top of any document, a configuration that fits is read back and checked. -/
theorem extract_merge_toValue (h : c.Fits) (below : Value) :
    extract (below.merge c.toValue) = c.check.map fun _ ↦ c := by
  rw [extract, ofValue?_merge_toValue h]

/-- A configuration given as the only layer, or as the top one, is what is loaded when it
passes its check; otherwise the violations are those of the check. -/
theorem provider_round_trips (h : c.Fits) :
    (c.check = .ok () →
        extract c.toValue = .ok c ∧ ∀ below : Value, extract (below.merge c.toValue) = .ok c) ∧
      ∀ e, c.check = .error e →
        e = .invalid c.violations ∧ extract c.toValue = .error e ∧
          ∀ below : Value, extract (below.merge c.toValue) = .error e := by
  have halone : extract c.toValue = c.check.map fun _ ↦ c := extract_merge_toValue h .null
  refine ⟨fun hcheck ↦ ?_, fun e hcheck ↦ ?_⟩
  · rw [halone, hcheck]
    exact ⟨rfl, fun below ↦ by rw [extract_merge_toValue h, hcheck]; rfl⟩
  · rw [halone, hcheck]
    refine ⟨?_, rfl, fun below ↦ by rw [extract_merge_toValue h, hcheck]; rfl⟩
    unfold check at hcheck
    split at hcheck
    · cases hcheck
    · cases hcheck
      rfl

/-- Two carriers, an absent number of control elements and no time budget. -/
def unbudgeted : Config where
  cells := [{ nofPrb := 100 }, { nofPrb := 6, nrbPucch := 1, extendedCp := true }]
  pucch :=
    { sr := { nofSubframes := 3, offsets := [0, 2, 4], period := 10 }
      cqi := { period := 40 } }
  policy := { kind := .proportionalFair, weight := 0.25 }
  timing := { deadline := none }

theorem fits_unbudgeted : unbudgeted.Fits where
  cells := by
    simp only [unbudgeted, List.forall_mem_cons, List.not_mem_nil, false_implies, implies_true,
      and_true]
    constructor <;> constructor <;> decide
  harq := by constructor <;> decide
  pucch := by constructor <;> constructor <;> decide
  timing := by constructor <;> decide

theorem unbudgeted_round_trips :
    (extract unbudgeted.toValue = .ok unbudgeted ∧
        ∀ below : Value, extract (below.merge unbudgeted.toValue) = .ok unbudgeted) ∧
      extract { unbudgeted with harq := { roundTrip := 4 } }.toValue =
        .error (.invalid [⟨"harq.round_trip_delay", .range⟩]) := by
  have hhasty : Fits { unbudgeted with harq := { roundTrip := 4 } } :=
    { fits_unbudgeted with harq := by constructor <;> decide }
  have hviolations : violations { unbudgeted with harq := { roundTrip := 4 } } =
      [⟨"harq.round_trip_delay", .range⟩] := by decide +kernel
  refine ⟨(provider_round_trips fits_unbudgeted).1 (check_eq_ok_iff.mpr (by decide +kernel)),
    ((provider_round_trips hhasty).2 _ ?_).2.1⟩
  rw [check, hviolations]
  rfl

end Config

end MacScheduler
