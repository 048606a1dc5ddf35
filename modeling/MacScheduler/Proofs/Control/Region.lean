import Mathlib.Tactic.ByContra
import MacScheduler.Control.Region

/-!
# Consistency of the control region

The elements taken are those of the messages placed, which lie inside the region
and do not touch.  Serving a request and taking a message back keep this, so it
holds after every batch of requests, as long as no candidate lies so far out that
its end wraps around.
-/

namespace MacScheduler

namespace DciLocation

def Holds (d : DciLocation) (k : Nat) : Prop := d.first ≤ k ∧ k < d.first + d.size

/-- The end of the message is a count, so the location says where it lies. -/
def Counted (d : DciLocation) : Prop := d.first + d.size ≤ maxCount

instance : DecidablePred Counted := fun d ↦
  inferInstanceAs (Decidable (d.first + d.size ≤ maxCount))

/-- The elements of the message are among the first `size` ones. -/
def Inside (d : DciLocation) (size : Nat) : Prop := d.first + d.size ≤ size

instance (d : DciLocation) (size : Nat) : Decidable (d.Inside size) :=
  inferInstanceAs (Decidable (d.first + d.size ≤ size))

theorem size_of_level {d : DciLocation} (h : d.level ≤ maxAggrLevel) :
    d.size = levelSize d.level := by
  have hlt : d.level < 32 := Nat.lt_of_le_of_lt h (by decide)
  rw [size, Nat.mod_eq_of_lt hlt]

theorem Counted.stop_eq {d : DciLocation} (h : d.Counted) : d.stop = d.first + d.size :=
  wrap_of_le h

theorem Inside.counted {d : DciLocation} {size : Nat} (h : d.Inside size) (hsize : size ≤ 128) :
    d.Counted :=
  Nat.le_trans h (Nat.le_trans hsize (by decide))

theorem Inside.lt {d : DciLocation} {size : Nat} (h : d.Inside size) {k : Nat} (hk : d.Holds k) :
    k < size :=
  Nat.lt_of_lt_of_le hk.2 h

theorem Counted.stop_le_iff {d : DciLocation} (h : d.Counted) {size : Nat} :
    d.stop ≤ size ↔ d.Inside size := by
  rw [h.stop_eq, Inside]

theorem overlaps_eq_false_iff {a b : DciLocation} (ha : a.Counted) (hb : b.Counted) :
    a.overlaps b = false ↔ ∀ k, a.Holds k → ¬b.Holds k := by
  have hapos : 0 < a.size := levelSize_pos _
  have hbpos : 0 < b.size := levelSize_pos _
  simp only [overlaps, ha.stop_eq, hb.stop_eq, Bool.and_eq_false_iff, decide_eq_false_iff_not]
  constructor
  · rintro h k ⟨hak, hka⟩ ⟨hbk, hkb⟩
    omega
  · intro h
    by_cases hle : a.first ≤ b.first
    · have hnot : ¬b.first < a.first + a.size := fun hlt ↦
        h b.first ⟨hle, hlt⟩ ⟨Nat.le_refl _, Nat.lt_add_of_pos_right hbpos⟩
      exact .inr hnot
    · have hnot : ¬a.first < b.first + b.size := fun hlt ↦
        h a.first ⟨Nat.le_refl _, Nat.lt_add_of_pos_right hapos⟩ ⟨by omega, hlt⟩
      exact .inl hnot

theorem overlaps_comm (a b : DciLocation) : a.overlaps b = b.overlaps a := by
  unfold overlaps
  exact Bool.and_comm _ _

end DciLocation

namespace DciRequest

def key (q : DciRequest) : Rnti × Direction := (q.rnti, q.dir)

/-- No candidate of a level in use ends beyond the counts. -/
def Counted (q : DciRequest) : Prop :=
  q.level ≤ maxAggrLevel → ∀ first ∈ q.candidates, DciLocation.Counted ⟨first, q.level⟩

instance : DecidablePred Counted := fun q ↦
  inferInstanceAs (Decidable (q.level ≤ maxAggrLevel →
    ∀ first ∈ q.candidates, DciLocation.Counted ⟨first, q.level⟩))

end DciRequest

namespace ControlRegion

theorem getLsbD_elements {loc : DciLocation} {size : Nat} (hloc : loc.Inside size)
    (hsize : size ≤ 128) (k : Nat) : (elements loc).getLsbD k = true ↔ loc.Holds k := by
  have hpos : 0 < loc.size := levelSize_pos _
  have hfirst : loc.first % 128 = loc.first :=
    Nat.mod_eq_of_lt (by have : loc.first + loc.size ≤ size := hloc; omega)
  have hlt : loc.Holds k → k < 128 := fun hk ↦ Nat.lt_of_lt_of_le (hloc.lt hk) hsize
  rw [elements, Bits.getLsbD_span, hfirst]
  simp only [Bool.and_eq_true, decide_eq_true_eq, and_assoc]
  exact and_iff_right_of_imp hlt

theorem fits_iff {r : ControlRegion} (hsize : r.size ≤ 128) {loc : DciLocation}
    (hloc : loc.level ≤ maxAggrLevel → loc.Counted) :
    r.fits loc = true ↔
      loc.level ≤ maxAggrLevel ∧ loc.Inside r.size ∧
        ∀ k, loc.Holds k → r.used.getLsbD k = false := by
  simp only [fits, Bool.and_eq_true, decide_eq_true_eq, beq_iff_eq, and_assoc]
  refine and_congr_right fun hlevel ↦ ?_
  rw [(hloc hlevel).stop_le_iff]
  refine and_congr_right fun hinside ↦ ?_
  have helements := getLsbD_elements hinside hsize
  constructor
  · intro h k hk
    have hand : (r.used &&& elements loc).getLsbD k = false := by simp [h]
    rwa [BitVec.getLsbD_and, (helements k).mpr hk, Bool.and_true] at hand
  · intro h
    apply BitVec.eq_of_getLsbD_eq
    intro k _
    have hand : (r.used.getLsbD k && (elements loc).getLsbD k) = false := by
      by_cases hk : (elements loc).getLsbD k = true
      · rw [h k ((helements k).mp hk), Bool.false_and]
      · rw [Bool.eq_false_iff.mpr hk, Bool.and_false]
    rw [BitVec.getLsbD_and, hand]
    exact BitVec.getLsbD_zero.symm

/-- The elements taken are those of the messages placed, which lie inside the
region and share no element. -/
structure Consistent (r : ControlRegion) : Prop where
  size_le : r.size ≤ 128
  inside : ∀ a ∈ r.allocs, a.loc.level ≤ maxAggrLevel ∧ a.loc.Inside r.size
  disjoint : r.allocs.Pairwise fun a b ↦ a.loc.overlaps b.loc = false
  used_iff : ∀ k, r.used.getLsbD k = true ↔ ∃ a ∈ r.allocs, a.loc.Holds k

theorem consistent_empty (size : Nat) : (empty size).Consistent :=
  ⟨Nat.min_le_right _ _, by simp [empty], List.Pairwise.nil, by simp [empty]⟩

theorem of_place? {r : ControlRegion} {level : Nat} {candidates : List Nat} {loc : DciLocation}
    (h : r.place? level candidates = some loc) :
    r.fits loc = true ∧ loc.level = level ∧ loc.first ∈ candidates := by
  obtain ⟨first, hfirst, rfl⟩ := List.mem_map.mp (List.mem_of_find?_eq_some h)
  exact ⟨List.find?_some h, rfl, hfirst⟩

theorem place?_eq_none_iff {r : ControlRegion} {level : Nat} {candidates : List Nat} :
    r.place? level candidates = none ↔ ∀ first ∈ candidates, r.fits ⟨first, level⟩ = false := by
  simp [place?, List.find?_eq_none]

/-- The region with one more message. -/
def place (r : ControlRegion) (a : DciAlloc) : ControlRegion :=
  { r with used := r.used ||| elements a.loc, allocs := r.allocs ++ [a] }

@[simp] theorem size_place (r : ControlRegion) (a : DciAlloc) : (r.place a).size = r.size := rfl

@[simp] theorem allocs_place (r : ControlRegion) (a : DciAlloc) :
    (r.place a).allocs = r.allocs ++ [a] := rfl

theorem used_place (r : ControlRegion) (a : DciAlloc) (k : Nat) :
    (r.place a).used.getLsbD k = (r.used.getLsbD k || (elements a.loc).getLsbD k) :=
  BitVec.getLsbD_or

/-- A request either finds no place and changes nothing, or adds its message. -/
theorem alloc_cases (r : ControlRegion) (rnti : Rnti) (dir : Direction) (level : Nat)
    (candidates : List Nat) :
    (r.place? level candidates = none ∧ r.alloc rnti dir level candidates = (none, r)) ∨
      ∃ loc, r.place? level candidates = some loc ∧
        r.alloc rnti dir level candidates = (some loc, r.place ⟨rnti, dir, loc⟩) := by
  cases h : r.place? level candidates with
  | none => exact .inl ⟨rfl, by rw [alloc, h]⟩
  | some loc => exact .inr ⟨loc, rfl, by rw [alloc, h]; rfl⟩

theorem Consistent.counted {r : ControlRegion} (h : r.Consistent) {a : DciAlloc}
    (ha : a ∈ r.allocs) : a.loc.Counted :=
  (h.inside a ha).2.counted h.size_le

theorem Consistent.place {r : ControlRegion} (h : r.Consistent) {a : DciAlloc}
    (hcounted : a.loc.level ≤ maxAggrLevel → a.loc.Counted) (hfits : r.fits a.loc = true) :
    (r.place a).Consistent := by
  obtain ⟨hlevel, hinside, hfree⟩ := (fits_iff h.size_le hcounted).mp hfits
  refine ⟨h.size_le, ?_, ?_, fun k ↦ ?_⟩
  · intro b hb
    rcases List.mem_append.mp hb with hb | hb
    · exact h.inside b hb
    · obtain rfl := List.mem_singleton.mp hb
      exact ⟨hlevel, hinside⟩
  · refine List.pairwise_append.mpr ⟨h.disjoint, List.pairwise_singleton _ _, ?_⟩
    intro b hb c hc
    obtain rfl := List.mem_singleton.mp hc
    apply (DciLocation.overlaps_eq_false_iff (h.counted hb) (hcounted hlevel)).mpr
    intro k hbk hck
    have hused := (h.used_iff k).mpr ⟨b, hb, hbk⟩
    simp [hfree k hck] at hused
  · rw [used_place, Bool.or_eq_true, h.used_iff, getLsbD_elements hinside h.size_le]
    simp only [allocs_place, List.mem_append, List.mem_singleton]
    grind

theorem Consistent.alloc {r : ControlRegion} (h : r.Consistent) {rnti : Rnti} {dir : Direction}
    {level : Nat} {candidates : List Nat}
    (hcounted : DciRequest.Counted ⟨rnti, dir, level, candidates⟩) :
    (r.alloc rnti dir level candidates).2.Consistent := by
  rcases r.alloc_cases rnti dir level candidates with ⟨-, heq⟩ | ⟨loc, hplace, heq⟩
  · rw [heq]
    exact h
  · obtain ⟨hfits, rfl, hfirst⟩ := of_place? hplace
    rw [heq]
    exact h.place (fun hlevel ↦ hcounted hlevel _ hfirst) hfits

/-! ## Later regions -/

/-- The region after more messages: no element was added or given back. -/
structure Grown (r r' : ControlRegion) : Prop where
  size_eq : r'.size = r.size
  used : ∀ k, r.used.getLsbD k = true → r'.used.getLsbD k = true

namespace Grown

variable {r r' r'' : ControlRegion}

theorem refl (r : ControlRegion) : Grown r r := ⟨rfl, fun _ hk ↦ hk⟩

theorem trans (h : Grown r r') (h' : Grown r' r'') : Grown r r'' :=
  ⟨h'.size_eq.trans h.size_eq, fun k hk ↦ h'.used k (h.used k hk)⟩

theorem place (r : ControlRegion) (a : DciAlloc) : Grown r (r.place a) :=
  ⟨rfl, fun k hk ↦ by rw [used_place, hk, Bool.true_or]⟩

theorem alloc (r : ControlRegion) (rnti : Rnti) (dir : Direction) (level : Nat)
    (candidates : List Nat) : Grown r (r.alloc rnti dir level candidates).2 := by
  rcases r.alloc_cases rnti dir level candidates with ⟨-, heq⟩ | ⟨loc, -, heq⟩ <;> rw [heq]
  · exact refl r
  · exact place r _

theorem allocAll (r : ControlRegion) (requests : List DciRequest) :
    Grown r (r.allocAll requests).2 := by
  induction requests generalizing r with
  | nil => exact refl r
  | cons q requests ih => exact (alloc r q.rnti q.dir q.level q.candidates).trans (ih _)

/-- What does not fit now does not fit later. -/
theorem fits_eq_false (h : Grown r r') {loc : DciLocation} (hfits : r.fits loc = false) :
    r'.fits loc = false := by
  by_contra hlater
  refine Bool.eq_false_iff.mp hfits ?_
  simp only [Bool.not_eq_false, fits, Bool.and_eq_true, decide_eq_true_eq, beq_iff_eq] at hlater ⊢
  refine ⟨⟨hlater.1.1, h.size_eq ▸ hlater.1.2⟩, BitVec.eq_of_getLsbD_eq fun k _ ↦ ?_⟩
  have hand : (r'.used &&& elements loc).getLsbD k = false := by simp [hlater.2]
  rw [BitVec.getLsbD_and, Bool.and_eq_false_iff] at hand
  have hboth : (r.used &&& elements loc).getLsbD k = false := by
    rw [BitVec.getLsbD_and, Bool.and_eq_false_iff]
    refine hand.imp_left fun hfree ↦ ?_
    by_contra hused
    rw [h.used k (by simpa using hused)] at hfree
    cases hfree
  rw [hboth]
  exact BitVec.getLsbD_zero.symm

end Grown

/-! ## Batches -/

def placedAlloc? (answer : DciRequest × Option DciLocation) : Option DciAlloc :=
  answer.2.map fun loc ↦ ⟨answer.1.rnti, answer.1.dir, loc⟩

theorem Consistent.allocAll {r : ControlRegion} (h : r.Consistent) {requests : List DciRequest}
    (hcounted : ∀ q ∈ requests, q.Counted) : (r.allocAll requests).2.Consistent := by
  induction requests generalizing r with
  | nil => exact h
  | cons q requests ih =>
      have hq : q.Counted := hcounted q List.mem_cons_self
      exact ih (h.alloc hq) fun q' hq' ↦ hcounted q' (List.mem_cons_of_mem q hq')

theorem allocAll_fst (r : ControlRegion) (requests : List DciRequest) :
    (r.allocAll requests).1.map Prod.fst = requests := by
  induction requests generalizing r with
  | nil => rfl
  | cons q requests ih => exact congrArg (q :: ·) (ih _)

theorem allocAll_allocs (r : ControlRegion) (requests : List DciRequest) :
    (r.allocAll requests).2.allocs =
      r.allocs ++ (r.allocAll requests).1.filterMap placedAlloc? := by
  induction requests generalizing r with
  | nil => simp [ControlRegion.allocAll]
  | cons q requests ih =>
      change ((r.alloc q.rnti q.dir q.level q.candidates).2.allocAll requests).2.allocs = _
      rw [ih]
      have hstep : (r.allocAll (q :: requests)).1 =
          (q, (r.alloc q.rnti q.dir q.level q.candidates).1) ::
            ((r.alloc q.rnti q.dir q.level q.candidates).2.allocAll requests).1 := rfl
      rw [hstep, List.filterMap_cons]
      rcases r.alloc_cases q.rnti q.dir q.level q.candidates with ⟨-, heq⟩ | ⟨loc, -, heq⟩
      · rw [heq]
        rfl
      · rw [heq]
        simp [placedAlloc?]

/-! ## Requests without a place -/

/-- Where a request of a batch got no place, none of its candidates fits after the batch. -/
theorem fits_of_unanswered {r : ControlRegion} {requests : List DciRequest} {q : DciRequest}
    (hq : (q, none) ∈ (r.allocAll requests).1) {first : Nat} (hfirst : first ∈ q.candidates) :
    (r.allocAll requests).2.fits ⟨first, q.level⟩ = false := by
  induction requests generalizing r with
  | nil => cases hq
  | cons q' requests ih =>
      have hq : (q, none) ∈ (q', (r.alloc q'.rnti q'.dir q'.level q'.candidates).1) ::
          ((r.alloc q'.rnti q'.dir q'.level q'.candidates).2.allocAll requests).1 := hq
      rcases List.mem_cons.mp hq with heq | hq
      · obtain ⟨rfl, hnone⟩ := Prod.mk.injEq _ _ _ _ ▸ heq
        have hplace : r.place? q.level q.candidates = none := by
          rcases r.alloc_cases q.rnti q.dir q.level q.candidates with ⟨hplace, -⟩ | ⟨loc, -, halloc⟩
          · exact hplace
          · rw [halloc] at hnone
            cases hnone
        -- what does not fit now does not fit after the rest of the batch
        have hunfit := place?_eq_none_iff.mp hplace first hfirst
        exact (Grown.allocAll r (q :: requests)).fits_eq_false hunfit
      · exact ih hq

/-- A location inside the region that does not fit has an element taken. -/
theorem Consistent.used_of_not_fits {r : ControlRegion} (h : r.Consistent) {loc : DciLocation}
    (hfits : r.fits loc = false) (hlevel : loc.level ≤ maxAggrLevel) (hinside : loc.Inside r.size) :
    ∃ k, loc.Holds k ∧ r.used.getLsbD k = true := by
  by_contra hfree
  have hcounted := hinside.counted h.size_le
  refine Bool.eq_false_iff.mp hfits
    ((fits_iff h.size_le fun _ ↦ hcounted).mpr ⟨hlevel, hinside, ?_⟩)
  intro k hk
  by_contra hused
  exact hfree ⟨k, hk, by simpa using hused⟩

/-- Where a request of a batch got no place, each of its candidates inside the region
shares an element with a message of the batch. -/
theorem Consistent.blocked {r : ControlRegion} (h : r.Consistent) {requests : List DciRequest}
    (hcounted : ∀ q ∈ requests, q.Counted) {q : DciRequest}
    (hq : (q, none) ∈ (r.allocAll requests).1) {first : Nat} (hfirst : first ∈ q.candidates)
    (hlevel : q.level ≤ maxAggrLevel) (hinside : DciLocation.Inside ⟨first, q.level⟩ r.size) :
    ∃ a ∈ (r.allocAll requests).2.allocs, a.loc.overlaps ⟨first, q.level⟩ = true := by
  have hafter := h.allocAll hcounted
  have hsize := (Grown.allocAll r requests).size_eq
  obtain ⟨k, hk, hused⟩ := hafter.used_of_not_fits (fits_of_unanswered hq hfirst) hlevel
    (hsize ▸ hinside)
  obtain ⟨a, ha, hak⟩ := (hafter.used_iff k).mp hused
  refine ⟨a, ha, ?_⟩
  by_contra hover
  have hapart := DciLocation.overlaps_eq_false_iff (hafter.counted ha) (hinside.counted h.size_le)
  exact hapart.mp (by simpa using hover) k hak hk

end ControlRegion

end MacScheduler
