import Mathlib.Data.List.Nodup
import MacScheduler.Proofs.Control.Region

/-!
# The control region in use

Messages are placed one by one or in batches, and taken back, in any order.  At every
time the elements taken are those of the messages placed, so a candidate fits when it
lies inside the region and touches no message.  A batch is served by ascending terminal,
and with one request for each terminal and direction the order of its requests says
nothing.  All this is for candidates that end within the counts: one whose end wraps
around is placed although it lies outside the region.
-/

namespace MacScheduler

def DciAlloc.OwnedBy (a : DciAlloc) (rnti : Rnti) (dir : Direction) : Prop :=
  a.rnti = rnti ∧ a.dir = dir

namespace ControlRegion

variable {r : ControlRegion}

/-! ## Places that are free -/

/-- A message may go to `loc`: it has a level that is in use, lies inside the region and
touches no message placed. -/
structure Admits (r : ControlRegion) (loc : DciLocation) : Prop where
  level_le : loc.level ≤ maxAggrLevel
  inside : loc.Inside r.size
  apart : ∀ a ∈ r.allocs, a.loc.overlaps loc = false

/-- What asking for a place gives, and the region after it: nothing, where no candidate fits,
or the first candidate that does. -/
inductive Placed (r : ControlRegion) (rnti : Rnti) (dir : Direction) (level : Nat)
    (candidates : List Nat) : Option DciLocation × ControlRegion → Prop where
  | refused (hnone : ∀ first ∈ candidates, ¬r.Admits ⟨first, level⟩) :
      Placed r rnti dir level candidates (none, r)
  | placed {before after : List Nat} {first : Nat} {used : BitVec 128}
      (hsplit : candidates = before ++ first :: after) (hadmits : r.Admits ⟨first, level⟩)
      (hbefore : ∀ c ∈ before, ¬r.Admits ⟨c, level⟩)
      (hused : ∀ k, used.getLsbD k = true ↔
        r.used.getLsbD k = true ∨ DciLocation.Holds ⟨first, level⟩ k) :
      Placed r rnti dir level candidates (some ⟨first, level⟩,
        { r with used, allocs := r.allocs ++ [⟨rnti, dir, ⟨first, level⟩⟩] })

/-- What taking a message back gives, and the region after it: the oldest message of the
terminal and direction is gone with its elements, or there was none. -/
inductive TakenBack (r : ControlRegion) (rnti : Rnti) (dir : Direction) :
    Bool × ControlRegion → Prop where
  | absent (hnone : ∀ a ∈ r.allocs, ¬a.OwnedBy rnti dir) :
      TakenBack r rnti dir (false, r)
  | freed {before after : List DciAlloc} {a : DciAlloc} {used : BitVec 128}
      (hsplit : r.allocs = before ++ a :: after) (howned : a.OwnedBy rnti dir)
      (hbefore : ∀ b ∈ before, ¬b.OwnedBy rnti dir)
      (hused : ∀ k, used.getLsbD k = true ↔ r.used.getLsbD k = true ∧ ¬a.loc.Holds k) :
      TakenBack r rnti dir (true, { r with used, allocs := before ++ after })

theorem Consistent.rollback_takenBack (h : r.Consistent) (rnti : Rnti) (dir : Direction) :
    TakenBack r rnti dir (r.rollback rnti dir) := by
  have howned (a : DciAlloc) : (decide (a.rnti = rnti) && decide (a.dir = dir)) = true ↔
      a.OwnedBy rnti dir := by
    simp [DciAlloc.OwnedBy]
  unfold rollback
  dsimp only
  split
  · rename_i hnone
    refine .absent fun a ha ↦ ?_
    rw [← howned]
    exact List.find?_eq_none.mp hnone a ha
  · rename_i a hfind
    obtain ⟨hown, before, after, hsplit, hbefore⟩ := List.find?_eq_some_iff_append.mp hfind
    have hnot : ∀ b ∈ before, ¬(decide (b.rnti = rnti) && decide (b.dir = dir)) = true :=
      fun b hb ↦ Bool.not_eq_true _ ▸ (Bool.not_eq_true' _).mp (hbefore b hb)
    have herase : r.allocs.eraseP (fun b ↦ decide (b.rnti = rnti) && decide (b.dir = dir)) =
        before ++ after := by
      rw [hsplit, List.eraseP_append_right _ hnot]
      exact congrArg (before ++ ·) (List.eraseP_cons_of_pos hown)
    rw [herase]
    refine .freed hsplit ((howned a).mp hown) (fun b hb ↦ ?_) fun k ↦ ?_
    · rw [← howned]
      exact hnot b hb
    · by_cases hk : k < 128
      · have hinside := (h.inside a (List.mem_of_find?_eq_some hfind)).2
        have hholds := getLsbD_elements hinside h.size_le k
        rw [BitVec.getLsbD_and, BitVec.getLsbD_not, decide_eq_true hk, Bool.true_and,
          Bool.and_eq_true, Bool.not_eq_true', ← Bool.not_eq_true, hholds]
      · have hused : r.used.getLsbD k = false := BitVec.getLsbD_of_ge _ _ (Nat.le_of_not_lt hk)
        simp [hused]

theorem Consistent.of_takenBack (h : r.Consistent) {rnti : Rnti} {dir : Direction}
    {out : Bool × ControlRegion} (hout : TakenBack r rnti dir out) : out.2.Consistent := by
  cases hout with
  | absent => exact h
  | @freed before after a used hsplit _ _ hused =>
      have hperm : r.allocs.Perm (a :: (before ++ after)) := hsplit ▸ List.perm_middle
      have hdisjoint := (hperm.pairwise_iff fun hab ↦ by
        rwa [DciLocation.overlaps_comm]).mp h.disjoint
      obtain ⟨hapart, hrest⟩ := List.pairwise_cons.mp hdisjoint
      refine ⟨h.size_le, fun b hb ↦ h.inside b (hperm.mem_iff.mpr (List.mem_cons_of_mem a hb)),
        hrest, fun k ↦ ?_⟩
      change used.getLsbD k = true ↔ ∃ b ∈ before ++ after, b.loc.Holds k
      rw [hused, h.used_iff]
      -- the message taken back shares no element with those that stay
      constructor
      · rintro ⟨⟨b, hb, hbk⟩, hak⟩
        rcases List.mem_cons.mp (hperm.mem_iff.mp hb) with rfl | hb
        · exact (hak hbk).elim
        · exact ⟨b, hb, hbk⟩
      · rintro ⟨b, hb, hbk⟩
        refine ⟨⟨b, hperm.mem_iff.mpr (List.mem_cons_of_mem a hb), hbk⟩, fun hak ↦ ?_⟩
        have hover := DciLocation.overlaps_eq_false_iff
          (h.counted (hperm.mem_iff.mpr List.mem_cons_self))
          (h.counted (hperm.mem_iff.mpr (List.mem_cons_of_mem a hb)))
        exact hover.mp (hapart b hb) k hak hbk

/-! ## Operations -/

inductive Op where
  | alloc (q : DciRequest)
  | rollback (rnti : Rnti) (dir : Direction)
  | batch (requests : List DciRequest)

/-- No candidate of the operation ends beyond the counts. -/
def Op.Counted : Op → Prop
  | .alloc q => q.Counted
  | .rollback _ _ => True
  | .batch requests => ∀ q ∈ requests, q.Counted

instance : DecidablePred Op.Counted := fun op ↦
  match op with
  | .alloc q => inferInstanceAs (Decidable q.Counted)
  | .rollback _ _ => inferInstanceAs (Decidable True)
  | .batch requests => inferInstanceAs (Decidable (∀ q ∈ requests, q.Counted))

def perform (r : ControlRegion) : Op → ControlRegion
  | .alloc q => (r.alloc q.rnti q.dir q.level q.candidates).2
  | .rollback rnti dir => (r.rollback rnti dir).2
  | .batch requests => (r.allocBatch requests).2

def run (r : ControlRegion) : List Op → ControlRegion
  | [] => r
  | op :: ops => (r.perform op).run ops

theorem Consistent.perform (h : r.Consistent) {op : Op} (hcounted : op.Counted) :
    (r.perform op).Consistent := by
  cases op with
  | alloc q => exact h.alloc hcounted
  | rollback rnti dir => exact h.of_takenBack (h.rollback_takenBack rnti dir)
  | batch requests =>
      exact h.allocAll fun q hq ↦ hcounted q (List.mem_mergeSort.mp hq)

theorem Consistent.run (h : r.Consistent) {ops : List Op} (hcounted : ∀ op ∈ ops, op.Counted) :
    (r.run ops).Consistent := by
  induction ops generalizing r with
  | nil => exact h
  | cons op ops ih =>
      exact ih (h.perform (hcounted op List.mem_cons_self))
        fun op' hop' ↦ hcounted op' (List.mem_cons_of_mem op hop')

/-- By ascending terminal, downlink before uplink. -/
def Precedes (a b : DciRequest) : Prop :=
  a.rnti.val < b.rnti.val ∨ a.rnti = b.rnti ∧ (a.dir = .downlink ∨ b.dir = .uplink)

theorem servedBefore_iff {a b : DciRequest} : servedBefore a b = true ↔ Precedes a b := by
  simp [servedBefore, Precedes]

theorem Precedes.trans {a b c : DciRequest} (hab : Precedes a b) (hbc : Precedes b c) :
    Precedes a c := by
  rcases hab with hab | ⟨hab, hdir⟩
  · rcases hbc with hbc | ⟨hbc, -⟩
    · exact .inl (Nat.lt_trans hab hbc)
    · exact .inl (hbc ▸ hab)
  · rcases hbc with hbc | ⟨hbc, hdir'⟩
    · exact .inl (hab ▸ hbc)
    · refine .inr ⟨hab.trans hbc, ?_⟩
      rcases hdir with hdir | hdir
      · exact .inl hdir
      · exact .inr (hdir'.resolve_left fun hdown ↦ by rw [hdir] at hdown; cases hdown)

end ControlRegion

end MacScheduler
