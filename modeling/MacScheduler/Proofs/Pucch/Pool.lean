import Mathlib.Data.List.Nodup
import Mathlib.Tactic.ByContra
import MacScheduler.Pucch.Pool

/-!
# Leases held

A pool together with the leases that were taken from it and not given back.  Each
slot has as many users as there are leases on it.  The index of a resource counts
the users its slot had when it was leased; while the leases of a slot are given
back last first, no index is in use twice.
-/

namespace MacScheduler

/-- Where a resource lies: its block, its offset and its index. -/
def PucchResource.place (r : PucchResource) : Nat × Nat × Nat := (r.prb, r.offset, r.nPucch)

namespace PucchPool

/-! ## Taking a lease -/

theorem leastLoaded_eq_none_iff {first : Nat} {occupancy : List Nat} :
    leastLoaded first occupancy = none ↔ occupancy = [] := by
  cases occupancy with
  | nil => simp [leastLoaded]
  | cons users rest =>
      rw [leastLoaded]
      split
      · simp
      · split <;> simp

theorem of_leastLoaded {first slot users : Nat} {occupancy : List Nat}
    (h : leastLoaded first occupancy = some (slot, users)) :
    (∃ i, slot = first + i ∧ occupancy[i]? = some users) ∧ ∀ n ∈ occupancy, users ≤ n := by
  induction occupancy generalizing first slot users with
  | nil => cases h
  | cons n rest ih =>
      rw [leastLoaded] at h
      cases hrest : leastLoaded (first + 1) rest with
      | none =>
          rw [hrest] at h
          obtain ⟨rfl, rfl⟩ : first = slot ∧ n = users := by simpa using h
          rw [leastLoaded_eq_none_iff.mp hrest]
          exact ⟨⟨0, rfl, rfl⟩, by simp⟩
      | some best =>
          obtain ⟨slot', users'⟩ := best
          obtain ⟨⟨i, rfl, hi⟩, hleast⟩ := ih hrest
          rw [hrest] at h
          dsimp only at h
          split at h
          · obtain ⟨rfl, rfl⟩ : first + 1 + i = slot ∧ users' = users := by simpa using h
            refine ⟨⟨i + 1, by omega, by simpa using hi⟩, fun m hm ↦ ?_⟩
            rcases List.mem_cons.mp hm with rfl | hm
            · omega
            · exact hleast m hm
          · obtain ⟨rfl, rfl⟩ : first = slot ∧ n = users := by simpa using h
            refine ⟨⟨0, rfl, rfl⟩, fun m hm ↦ ?_⟩
            rcases List.mem_cons.mp hm with rfl | hm
            · exact Nat.le_refl _
            · have := hleast m hm
              omega

/-- A lease is refused, or it is on a slot with the fewest users and below the bound. -/
theorem lease_cases (p : PucchPool) (period : Nat) :
    ((p.configIdx? period 0 = none ∨ ∀ users ∈ p.occupancy, p.maxUsers ≤ users) ∧
        ∃ e, p.lease period = (.error e, p)) ∨
      ∃ slot users base, p.occupancy[slot]? = some users ∧ users < p.maxUsers ∧
        p.lease period = (.ok ⟨slot, p.resourceAt period slot users base⟩,
          { p with occupancy := p.occupancy.set slot (users + 1) }) := by
  unfold lease
  cases hidx : p.configIdx? period 0 with
  | none => exact .inl ⟨.inl rfl, _, rfl⟩
  | some base =>
      cases hleast : leastLoaded 0 p.occupancy with
      | none =>
          refine .inl ⟨.inr ?_, _, rfl⟩
          simp [leastLoaded_eq_none_iff.mp hleast]
      | some best =>
          obtain ⟨slot, users⟩ := best
          obtain ⟨⟨i, hi, hget⟩, hmin⟩ := of_leastLoaded hleast
          obtain rfl : slot = i := by omega
          by_cases hfull : p.maxUsers ≤ users
          · refine .inl ⟨.inr fun n hn ↦ Nat.le_trans hfull (hmin n hn), .exhausted, ?_⟩
            simp [hfull]
          · exact .inr ⟨slot, users, base, hget, Nat.lt_of_not_le hfull, by simp [hfull]⟩

/-- A period that the pool accepts. -/
theorem exists_period (p : PucchPool) : ∃ period, p.configIdx? period 0 ≠ none := by
  cases hkind : p.kind with
  | sr => exact ⟨20, by simp [configIdx?, hkind, isSrPeriod, srPeriods]⟩
  | cqi => exact ⟨20, by simp [configIdx?, hkind, isCqiPeriod, cqiPeriods, cqiIndexBase?]⟩

/-! ## The place of a lease -/

/-- The users its slot had when a lease was taken, as the index of its resource tells: the
distance from the first index of the slot, which may wrap around. -/
def rank (p : PucchPool) (l : PucchLease) : Nat :=
  wrap (l.resource.nPucch + (maxCount + 1) - wrap (l.resource.prb * p.maxUsers + p.ncsAn))

structure Placed (p : PucchPool) (l : PucchLease) : Prop where
  slot_lt : l.slot < p.nofPrb * p.offsets.length
  prb_eq : l.resource.prb = l.slot / p.offsets.length
  offset_eq : l.resource.offset = p.offsets.getD (l.slot % p.offsets.length) 0
  nPucch_eq : l.resource.nPucch = wrap (l.resource.prb * p.maxUsers + p.rank l + p.ncsAn)
  rank_lt : p.rank l < p.maxUsers

variable {p : PucchPool} {a b : PucchLease}

theorem rank_resourceAt (p : PucchPool) {users : Nat} (husers : users ≤ maxCount)
    (period slot base : Nat) : p.rank ⟨slot, p.resourceAt period slot users base⟩ = users := by
  simp only [rank, resourceAt, wrap, maxCount] at husers ⊢
  omega

theorem Placed.of_resourceAt {slot users : Nat} (hslot : slot < p.nofPrb * p.offsets.length)
    (husers : users < p.maxUsers) (hmax : p.maxUsers ≤ maxCount) (period base : Nat) :
    p.Placed ⟨slot, p.resourceAt period slot users base⟩ :=
  have hrank := p.rank_resourceAt (Nat.le_trans (Nat.le_of_lt husers) hmax) period slot base
  { slot_lt := hslot
    prb_eq := rfl
    offset_eq := rfl
    nPucch_eq := by rw [hrank, resourceAt]
    rank_lt := by rwa [hrank] }

theorem Placed.of_occupancy (h : p.Placed a) (occupancy : List Nat) :
    ({ p with occupancy } : PucchPool).Placed a :=
  ⟨h.slot_lt, h.prb_eq, h.offset_eq, h.nPucch_eq, h.rank_lt⟩

/-- With different offsets, a place belongs to one slot and one number of users. -/
theorem Placed.place_eq_iff (hoffsets : p.offsets.Nodup) (ha : p.Placed a) (hb : p.Placed b) :
    a.resource.place = b.resource.place ↔ a.slot = b.slot ∧ p.rank a = p.rank b := by
  have hpos : 0 < p.offsets.length := by
    by_contra hzero
    have hlt := ha.slot_lt
    rw [Nat.eq_zero_of_not_pos hzero, Nat.mul_zero] at hlt
    exact Nat.not_lt_zero _ hlt
  constructor
  · intro h
    obtain ⟨hprb, hoffset, hindex⟩ : a.resource.prb = b.resource.prb ∧
        a.resource.offset = b.resource.offset ∧ a.resource.nPucch = b.resource.nPucch := by
      simpa [PucchResource.place] using h
    have hquot : a.slot / p.offsets.length = b.slot / p.offsets.length := by
      rw [← ha.prb_eq, ← hb.prb_eq, hprb]
    have hrem : a.slot % p.offsets.length = b.slot % p.offsets.length := by
      have hlt : ∀ n, n % p.offsets.length < p.offsets.length := fun n ↦ Nat.mod_lt n hpos
      rw [ha.offset_eq, hb.offset_eq, List.getD_eq_getElem?_getD, List.getD_eq_getElem?_getD,
        List.getElem?_eq_getElem (hlt _), List.getElem?_eq_getElem (hlt _)] at hoffset
      exact hoffsets.getElem_inj_iff.mp hoffset
    refine ⟨?_, ?_⟩
    · rw [← Nat.div_add_mod a.slot p.offsets.length, ← Nat.div_add_mod b.slot p.offsets.length,
        hquot, hrem]
    · have hale : p.rank a ≤ maxCount := wrap_le _
      have hble : p.rank b ≤ maxCount := wrap_le _
      rw [ha.nPucch_eq, hb.nPucch_eq, hprb] at hindex
      simp only [wrap, maxCount] at hindex hale hble
      omega
  · rintro ⟨hslot, hrank⟩
    have hprb : a.resource.prb = b.resource.prb := by rw [ha.prb_eq, hb.prb_eq, hslot]
    rw [PucchResource.place, PucchResource.place, ha.nPucch_eq, hb.nPucch_eq, ha.offset_eq,
      hb.offset_eq, hprb, hslot, hrank]

end PucchPool

/-! ## Pools in use -/

/-- A pool and the leases taken from it and not given back, in the order taken. -/
structure PucchUse where
  pool : PucchPool
  held : List PucchLease := []

inductive PucchOp where
  | lease (period : Nat)
  /-- Gives back the lease at a place of the list. -/
  | giveBack (i : Nat)

namespace PucchUse

def perform (u : PucchUse) : PucchOp → PucchUse
  | .lease period =>
      match u.pool.lease period with
      | (.ok l, pool) => ⟨pool, u.held ++ [l]⟩
      | (.error _, pool) => ⟨pool, u.held⟩
  | .giveBack i =>
      match u.held[i]? with
      | some l => ⟨u.pool.release l, u.held.eraseIdx i⟩
      | none => u

def run (u : PucchUse) : List PucchOp → PucchUse
  | [] => u
  | op :: ops => (u.perform op).run ops

def usersOn (u : PucchUse) (slot : Nat) : Nat := u.held.countP fun l ↦ decide (l.slot = slot)

/-- No two leases held lie at one place. -/
def Distinct (u : PucchUse) : Prop :=
  u.held.Pairwise fun a b ↦ a.resource.place ≠ b.resource.place

instance (u : PucchUse) : Decidable u.Distinct :=
  inferInstanceAs (Decidable (List.Pairwise _ _))

/-- Whether an operation gives back, if any, the latest lease of its slot. -/
def ReturnsLatest (u : PucchUse) : PucchOp → Prop
  | .lease _ => True
  | .giveBack i => ∀ l ∈ u.held[i]?, ∀ l' ∈ u.held.drop (i + 1), l'.slot ≠ l.slot

instance (u : PucchUse) : (op : PucchOp) → Decidable (u.ReturnsLatest op)
  | .lease _ => .isTrue trivial
  | .giveBack i =>
      inferInstanceAs (Decidable (∀ l ∈ u.held[i]?, ∀ l' ∈ u.held.drop (i + 1), l'.slot ≠ l.slot))

/-- In a run, the leases of each slot are given back last first. -/
def LastFirst (u : PucchUse) : List PucchOp → Prop
  | [] => True
  | op :: ops => u.ReturnsLatest op ∧ (u.perform op).LastFirst ops

instance decidableLastFirst (u : PucchUse) : (ops : List PucchOp) → Decidable (u.LastFirst ops)
  | [] => .isTrue trivial
  | op :: ops =>
      have := decidableLastFirst (u.perform op) ops
      inferInstanceAs (Decidable (u.ReturnsLatest op ∧ (u.perform op).LastFirst ops))

structure Sound (u : PucchUse) : Prop where
  length_eq : u.pool.occupancy.length = u.pool.nofPrb * u.pool.offsets.length
  maxUsers_le : u.pool.maxUsers ≤ maxCount
  counted : ∀ slot users, u.pool.occupancy[slot]? = some users → u.usersOn slot = users
  placed : ∀ l ∈ u.held, u.pool.Placed l

/-- Every lease held was taken when its slot had fewer users than now. -/
def Below (u : PucchUse) : Prop := ∀ l ∈ u.held, u.pool.rank l < u.usersOn l.slot

/-- On each slot, leases taken later have the greater rank. -/
def Ascending (u : PucchUse) : Prop :=
  u.held.Pairwise fun a b ↦ a.slot = b.slot → u.pool.rank a < u.pool.rank b

variable {u : PucchUse}

/-! ## One operation -/

theorem usersOn_concat (u : PucchUse) (pool : PucchPool) (l : PucchLease) (slot : Nat) :
    usersOn ⟨pool, u.held ++ [l]⟩ slot = u.usersOn slot + if l.slot = slot then 1 else 0 := by
  by_cases h : l.slot = slot <;> simp [usersOn, h]

theorem usersOn_eraseIdx {i : Nat} {l : PucchLease} (h : u.held[i]? = some l) (pool : PucchPool)
    (slot : Nat) :
    usersOn ⟨pool, u.held.eraseIdx i⟩ slot + (if l.slot = slot then 1 else 0) =
      u.usersOn slot := by
  obtain ⟨hi, rfl⟩ := List.getElem?_eq_some_iff.mp h
  have hsplit : u.held = u.held.take i ++ u.held[i] :: u.held.drop (i + 1) := by simp
  rw [usersOn, usersOn, List.eraseIdx_eq_take_drop_succ, List.countP_append]
  conv_rhs => rw [hsplit, List.countP_append, List.countP_cons]
  rw [Nat.add_assoc]
  congr 1
  by_cases hs : u.held[i].slot = slot <;> simp [hs]

/-- What a lease does: it is refused, or it adds a lease of the slot's next rank. -/
theorem perform_lease_cases (hs : u.Sound) (period : Nat) :
    ((u.pool.configIdx? period 0 = none ∨ ∀ users ∈ u.pool.occupancy, u.pool.maxUsers ≤ users) ∧
        u.perform (.lease period) = u) ∨
      ∃ l occupancy, u.perform (.lease period) = ⟨{ u.pool with occupancy }, u.held ++ [l]⟩ ∧
        u.pool.Placed l ∧ u.pool.rank l = u.usersOn l.slot ∧
        u.pool.occupancy[l.slot]? = some (u.usersOn l.slot) ∧
        occupancy = u.pool.occupancy.set l.slot (u.usersOn l.slot + 1) := by
  rcases u.pool.lease_cases period with ⟨hwhy, e, heq⟩ | ⟨slot, users, base, hget, hlt, heq⟩
  · exact .inl ⟨hwhy, by simp [perform, heq]⟩
  · have hslot : slot < u.pool.nofPrb * u.pool.offsets.length :=
      hs.length_eq ▸ (List.getElem?_eq_some_iff.mp hget).1
    obtain rfl := hs.counted slot users hget
    have hle := Nat.le_trans (Nat.le_of_lt hlt) hs.maxUsers_le
    exact .inr ⟨⟨slot, u.pool.resourceAt period slot (u.usersOn slot) base⟩, _,
      by simp only [perform, heq], .of_resourceAt hslot hlt hs.maxUsers_le period base,
      PucchPool.rank_resourceAt _ hle _ _ _, hget, rfl⟩

theorem Sound.perform (hs : u.Sound) (op : PucchOp) : (u.perform op).Sound := by
  cases op with
  | lease period =>
      rcases perform_lease_cases hs period with ⟨-, heq⟩ | ⟨l, occ, heq, hplaced, -, hget, rfl⟩
      · rw [heq]
        exact hs
      · rw [heq]
        refine ⟨by simpa using hs.length_eq, hs.maxUsers_le, fun slot users hslot ↦ ?_,
          fun k hk ↦ ?_⟩
        · rw [usersOn_concat]
          by_cases h : l.slot = slot
          · subst h
            have hlt := (List.getElem?_eq_some_iff.mp hget).1
            simpa [hlt] using hslot
          · rw [List.getElem?_set_ne h] at hslot
            simp [h, hs.counted slot users hslot]
        · rcases List.mem_append.mp hk with hk | hk
          · exact (hs.placed k hk).of_occupancy _
          · rw [List.mem_singleton.mp hk]
            exact hplaced.of_occupancy _
  | giveBack i =>
      cases hl : u.held[i]? with
      | none =>
          simp only [PucchUse.perform, hl]
          exact hs
      | some l =>
          simp only [PucchUse.perform, hl]
          refine ⟨by simpa [PucchPool.release] using hs.length_eq, hs.maxUsers_le,
            fun slot users hslot ↦ ?_, fun k hk ↦ ?_⟩
          · have hcount := usersOn_eraseIdx hl (u.pool.release l) slot
            rw [PucchPool.release, List.getElem?_modify] at hslot
            obtain ⟨n, hn, husers⟩ := Option.map_eq_some_iff.mp hslot
            have hold := hs.counted slot n hn
            by_cases h : l.slot = slot
            · rw [if_pos h] at hcount husers
              omega
            · rw [if_neg h] at hcount husers
              omega
          · exact (hs.placed k (List.mem_of_mem_eraseIdx hk)).of_occupancy _

theorem Sound.run (hs : u.Sound) (ops : List PucchOp) : (u.run ops).Sound := by
  induction ops generalizing u with
  | nil => exact hs
  | cons op ops ih => exact ih (hs.perform op)

theorem pool_perform (u : PucchUse) (op : PucchOp) :
    ∃ occupancy, (u.perform op).pool = { u.pool with occupancy } := by
  cases op with
  | lease period =>
      rcases u.pool.lease_cases period with ⟨-, e, heq⟩ | ⟨slot, users, base, -, -, heq⟩
      · exact ⟨u.pool.occupancy, by simp [perform, heq]⟩
      · exact ⟨_, by simp only [perform, heq]; rfl⟩
  | giveBack i =>
      simp only [perform]
      split
      · exact ⟨_, rfl⟩
      · exact ⟨u.pool.occupancy, rfl⟩

theorem pool_run (u : PucchUse) (ops : List PucchOp) :
    ∃ occupancy, (u.run ops).pool = { u.pool with occupancy } := by
  induction ops generalizing u with
  | nil => exact ⟨u.pool.occupancy, rfl⟩
  | cons op ops ih =>
      obtain ⟨occ, hocc⟩ := u.pool_perform op
      obtain ⟨occ', hocc'⟩ := ih (u.perform op)
      exact ⟨occ', by rw [run, hocc', hocc]⟩

theorem Sound.distinct_iff (hs : u.Sound) (hoffsets : u.pool.offsets.Nodup) :
    u.Distinct ↔ u.held.Pairwise fun a b ↦ a.slot = b.slot → u.pool.rank a ≠ u.pool.rank b := by
  apply List.Pairwise.iff_of_mem
  intro a b ha hb
  rw [Ne, (hs.placed a ha).place_eq_iff hoffsets (hs.placed b hb), not_and]

/-! ## Giving back last first -/

theorem Below.lease (h : u.Below) (hs : u.Sound) (period : Nat) :
    (u.perform (.lease period)).Below := by
  rcases perform_lease_cases hs period with ⟨-, heq⟩ | ⟨l, occ, heq, -, hrank, -, -⟩
  · rw [heq]
    exact h
  · rw [heq]
    intro k hk
    change u.pool.rank k < _
    rw [usersOn_concat]
    rcases List.mem_append.mp hk with hk | hk
    · exact Nat.lt_of_lt_of_le (h k hk) (Nat.le_add_right _ _)
    · rw [List.mem_singleton.mp hk, if_pos rfl, hrank]
      exact Nat.lt_succ_self _

theorem Ascending.lease (h : u.Ascending) (hs : u.Sound) (hbelow : u.Below) (period : Nat) :
    (u.perform (.lease period)).Ascending := by
  rcases perform_lease_cases hs period with ⟨-, heq⟩ | ⟨l, occ, heq, -, hrank, -, -⟩
  · rw [heq]
    exact h
  · rw [heq]
    refine List.pairwise_append.mpr ⟨h, List.pairwise_singleton _ _, fun a ha b hb hslot ↦ ?_⟩
    rw [List.mem_singleton.mp hb] at hslot ⊢
    change u.pool.rank a < u.pool.rank l
    rw [hrank, ← hslot]
    exact hbelow a ha

theorem Ascending.giveBack (h : u.Ascending) (i : Nat) :
    (u.perform (.giveBack i)).Ascending := by
  simp only [perform]
  split
  · exact h.sublist (List.eraseIdx_sublist _ _)
  · exact h

/-- The latest lease of a slot has the greatest rank, so the others stay below without it. -/
theorem Below.giveBack (h : u.Below) (hasc : u.Ascending) {i : Nat}
    (hlatest : u.ReturnsLatest (.giveBack i)) : (u.perform (.giveBack i)).Below := by
  cases hl : u.held[i]? with
  | none =>
      simp only [perform, hl]
      exact h
  | some l =>
      simp only [perform, hl]
      intro k hk
      change u.pool.rank k < _
      have hmem := List.mem_of_mem_eraseIdx hk
      have hcount := usersOn_eraseIdx hl (u.pool.release l) k.slot
      have hbelow := h k hmem
      by_cases hslot : l.slot = k.slot
      · have hlast := h l (List.mem_of_getElem? hl)
        have hearlier : u.pool.rank k < u.pool.rank l := by
          obtain ⟨hi, rfl⟩ := List.getElem?_eq_some_iff.mp hl
          rw [List.eraseIdx_eq_take_drop_succ, List.mem_append] at hk
          rcases hk with hk | hk
          · have hpair : (u.held.take i ++ u.held[i] :: u.held.drop (i + 1)).Pairwise
                fun a b ↦ a.slot = b.slot → u.pool.rank a < u.pool.rank b := by
              have hall : u.held.Pairwise _ := hasc
              simpa using hall
            exact (List.pairwise_append.mp hpair).2.2 k hk _ List.mem_cons_self hslot.symm
          · exact absurd hslot.symm (hlatest _ hl k hk)
        rw [if_pos hslot] at hcount
        rw [hslot] at hlast
        omega
      · rw [if_neg hslot] at hcount
        omega

theorem LastFirst.run {ops : List PucchOp} (h : u.LastFirst ops) (hs : u.Sound)
    (hbelow : u.Below) (hasc : u.Ascending) : (u.run ops).Below ∧ (u.run ops).Ascending := by
  induction ops generalizing u with
  | nil => exact ⟨hbelow, hasc⟩
  | cons op ops ih =>
      obtain ⟨hlatest, hrest⟩ := h
      cases op with
      | lease period =>
          exact ih hrest (hs.perform _) (hbelow.lease hs period) (hasc.lease hs hbelow period)
      | giveBack i =>
          exact ih hrest (hs.perform _) (hbelow.giveBack hasc hlatest) (hasc.giveBack i)

theorem Ascending.distinct (h : u.Ascending) (hs : u.Sound) (hoffsets : u.pool.offsets.Nodup) :
    u.Distinct :=
  (hs.distinct_iff hoffsets).mpr (h.imp fun hlt hslot ↦ Nat.ne_of_lt (hlt hslot))

/-! ## Leasing on -/

/-- The pool after more leases at the given periods. -/
def leaseAll (u : PucchUse) (periods : List Nat) : PucchUse := u.run (periods.map .lease)

theorem Distinct.lease (h : u.Distinct) (hs : u.Sound) (hoffsets : u.pool.offsets.Nodup)
    (hbelow : u.Below) (period : Nat) : (u.perform (.lease period)).Distinct := by
  rcases perform_lease_cases hs period with ⟨-, heq⟩ | ⟨l, occ, heq, hplaced, hrank, -, -⟩
  · rw [heq]
    exact h
  · rw [heq]
    refine List.pairwise_append.mpr ⟨h, List.pairwise_singleton _ _, fun a ha b hb hplace ↦ ?_⟩
    rw [List.mem_singleton.mp hb] at hplace
    obtain ⟨hslot, hsame⟩ := ((hs.placed a ha).place_eq_iff hoffsets hplaced).mp hplace
    have hlt := hbelow a ha
    rw [hsame, hrank, hslot] at hlt
    exact Nat.lt_irrefl _ hlt

theorem Distinct.leaseAll (h : u.Distinct) (hs : u.Sound) (hoffsets : u.pool.offsets.Nodup)
    (hbelow : u.Below) (periods : List Nat) : (u.leaseAll periods).Distinct := by
  induction periods generalizing u with
  | nil => exact h
  | cons period periods ih =>
      obtain ⟨occ, hocc⟩ := u.pool_perform (.lease period)
      exact ih (h.lease hs hoffsets hbelow period) (hs.perform _) (by rwa [hocc])
        (hbelow.lease hs period)

/-- How many more leases fit into the slots. -/
def room (u : PucchUse) : Nat := total (u.pool.occupancy.map (u.pool.maxUsers - ·))

theorem room_set_lt {slot users : Nat} (hget : u.pool.occupancy[slot]? = some users)
    (hlt : users < u.pool.maxUsers) (held : List PucchLease) :
    room ⟨{ u.pool with occupancy := u.pool.occupancy.set slot (users + 1) }, held⟩ <
      u.room := by
  have hroom : (u.pool.occupancy.map (u.pool.maxUsers - ·))[slot]? =
      some (u.pool.maxUsers - users) := by
    rw [List.getElem?_map, hget, Option.map_some]
  have htotal := total_set hroom (u.pool.maxUsers - (users + 1))
  change total ((u.pool.occupancy.set slot (users + 1)).map (u.pool.maxUsers - ·)) < _
  rw [List.map_set, room]
  omega

/-- A lease whose rank is not below the users of its slot is met again, once the slot
has filled up to that rank. -/
theorem exists_leaseAll_not_distinct (hs : u.Sound) (hoffsets : u.pool.offsets.Nodup)
    {period : Nat} (hperiod : u.pool.configIdx? period 0 ≠ none) {a : PucchLease}
    (ha : a ∈ u.held) (hrank : u.usersOn a.slot ≤ u.pool.rank a) :
    ∃ periods, ¬(u.leaseAll periods).Distinct := by
  induction hn : u.room using Nat.strongRecOn generalizing u with
  | ind n ih =>
      have hplaced := hs.placed a ha
      rcases perform_lease_cases hs period with ⟨hfull, -⟩ | ⟨l, occ, heq, hl, hnext, hget, rfl⟩
      · have hlt : a.slot < u.pool.occupancy.length := hs.length_eq ▸ hplaced.slot_lt
        have hcount := hs.counted a.slot _ (List.getElem?_eq_getElem hlt)
        have hmax := (hfull.resolve_left hperiod) _ (List.getElem_mem hlt)
        have := hplaced.rank_lt
        omega
      · by_cases hmeet : a.slot = l.slot ∧ u.pool.rank a = u.pool.rank l
        · refine ⟨[period], fun hdistinct ↦ ?_⟩
          change (u.perform (.lease period)).Distinct at hdistinct
          rw [heq] at hdistinct
          exact (List.pairwise_append.mp hdistinct).2.2 a ha l (List.mem_singleton_self l)
            ((hplaced.place_eq_iff hoffsets hl).mpr hmeet)
        · have hs' := hs.perform (.lease period)
          have hroom : (u.perform (.lease period)).room < n := by
            rw [← hn, heq]
            exact room_set_lt hget (hnext ▸ hl.rank_lt) _
          have hstill (pool : PucchPool) :
              usersOn ⟨pool, u.held ++ [l]⟩ a.slot ≤ u.pool.rank a := by
            rw [usersOn_concat]
            by_cases hslot : l.slot = a.slot
            · have hne : u.pool.rank a ≠ u.pool.rank l := fun h ↦ hmeet ⟨hslot.symm, h⟩
              rw [if_pos hslot]
              rw [hnext, hslot] at hne
              omega
            · rwa [if_neg hslot]
          rw [heq] at hs' hroom
          obtain ⟨periods, hnot⟩ := ih _ hroom hs' hoffsets hperiod
            (List.mem_append_left _ ha) (hstill _) rfl
          refine ⟨period :: periods, ?_⟩
          change ¬((u.perform (.lease period)).leaseAll periods).Distinct
          rwa [heq]

/-! ## Pools of a configuration -/

/-- The pool of a configuration, before any lease. -/
def start (kind : PucchKind) (c : PoolConfig) (cell : CellConfig) : PucchUse :=
  { pool := .ofConfig kind c cell }

theorem pucchMaxUsers_le (cell : CellConfig) : cell.pucchMaxUsers ≤ maxCount := by
  have hmul : 12 * (if cell.extendedCp then 2 else 3) ≤ 36 := by split <;> decide
  exact Nat.le_trans (Nat.le_trans (Nat.div_le_self _ _) hmul) (by decide)

theorem Sound.start (kind : PucchKind) (c : PoolConfig) (cell : CellConfig) :
    (start kind c cell).Sound where
  length_eq := List.length_replicate
  maxUsers_le := pucchMaxUsers_le cell
  counted := by
    intro slot users h
    rw [PucchUse.start, PucchPool.ofConfig, PucchPool.create, List.getElem?_replicate] at h
    split at h
    · exact Option.some.inj h
    · cases h
  placed := fun _ hl ↦ by cases hl

/-- While the leases of each slot are given back last first, no two of them lie at one
place.  In any state, the leases to come stay clear of those held exactly when each of
these was taken with fewer users on its slot than there are now. -/
theorem leases_distinct (kind : PucchKind) (c : PoolConfig) (cell : CellConfig)
    (hoffsets : c.offsets.Nodup) (ops : List PucchOp) :
    ((start kind c cell).LastFirst ops → ((start kind c cell).run ops).Distinct) ∧
      ((∀ periods, (((start kind c cell).run ops).leaseAll periods).Distinct) ↔
        ((start kind c cell).run ops).Distinct ∧ ((start kind c cell).run ops).Below) := by
  have hs : ((start kind c cell).run ops).Sound := (Sound.start kind c cell).run ops
  obtain ⟨occ, hpool⟩ := (start kind c cell).pool_run ops
  have hnodup : ((start kind c cell).run ops).pool.offsets.Nodup := by
    rw [hpool]
    exact hoffsets.sublist (List.take_sublist _ _)
  refine ⟨fun hlast ↦ ?_, fun hall ↦ ⟨hall [], fun a ha ↦ ?_⟩, fun ⟨hdistinct, hbelow⟩ ↦
    hdistinct.leaseAll hs hnodup hbelow⟩
  · have hasc := (hlast.run (Sound.start kind c cell) (fun _ hl ↦ by cases hl) .nil).2
    exact hasc.distinct hs hnodup
  · by_contra hrank
    obtain ⟨period, hperiod⟩ := ((start kind c cell).run ops).pool.exists_period
    obtain ⟨periods, hnot⟩ := exists_leaseAll_not_distinct hs hnodup hperiod ha
      (Nat.le_of_not_lt hrank)
    exact hnot (hall periods)

/-- Three leases on two slots, of which the last one goes first. -/
def stackedOps : List PucchOp := [.lease 20, .lease 20, .lease 20, .giveBack 2, .lease 20]

theorem distinct_stackedOps :
    ((start .sr { period := 20 } {}).run stackedOps).Distinct ∧
      ((start .sr { period := 20 } {}).run stackedOps).held.length = 3 :=
  ⟨(leases_distinct .sr { period := 20 } {} (by decide) stackedOps).1 (by decide), by decide⟩

/-- The earlier of two leases of a slot goes first. -/
def crossedOps : List PucchOp := [.lease 20, .lease 20, .giveBack 0, .lease 20]

theorem not_distinct_crossedOps :
    ({ nofSubframes := 1, offsets := [0], period := 20 } : PoolConfig).offsets.Nodup ∧
      ¬((start .sr { nofSubframes := 1, offsets := [0], period := 20 } {}).run
        crossedOps).Distinct :=
  ⟨by decide, by decide⟩

end PucchUse

end MacScheduler
