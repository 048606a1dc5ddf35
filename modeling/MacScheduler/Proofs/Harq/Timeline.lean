import MacScheduler.Proofs.Harq.Steady

/-!
# The synchronous timeline

A point of the clock is mapped to the process of its residue modulo the round trip.
Where the round trip divides the turn of the clock, points one round trip apart are
mapped to one process, also across the end of a turn.  A table that sends on mapped
processes only then finds the one it needs free, or its retransmission due: what is left
on the process was sent just now or exactly one round trip ago.
-/

namespace MacScheduler

namespace Tti

variable {r : Nat} (hdvd : r ∣ period) (t : Tti)

include hdvd

theorem index_add_mod (n : Nat) : (t + n).index % r = (t.index + n) % r := by
  rw [index_add]
  exact Nat.mod_mod_of_dvd _ hdvd

theorem index_add_self_mod : (t + r).index % r = t.index % r := by
  rw [index_add_mod hdvd, Nat.add_mod_right]

/-- Points at most one round trip apart that are mapped to one process are the same, or one
round trip apart. -/
theorem eq_zero_or_eq_of_mod {n : Nat} (hn : n ≤ r) (h : (t + n).index % r = t.index % r) :
    n = 0 ∨ n = r := by
  rw [index_add_mod hdvd] at h
  have hmod := Nat.sub_mod_eq_zero_of_mod_eq h
  rw [Nat.add_sub_cancel_left] at hmod
  rcases Nat.eq_zero_or_pos n with hzero | hpos
  · exact .inl hzero
  · exact .inr (Nat.le_antisymm hn (Nat.le_of_dvd hpos (Nat.dvd_of_mod_eq_zero hmod)))

end Tti

/-- A block left one round trip after it was sent is due. -/
theorem HarqProcess.InFlight.hasPendingRetx {α : Type} {p : HarqProcess α} {roundTrip : Nat}
    {now tx : Tti} (h : p.InFlight roundTrip now tx roundTrip) (hs : p.Sound)
    (hbusy : p.isEmpty = false) : p.hasPendingRetx now = true := by
  obtain ⟨b, hb, hstate⟩ : ∃ b ∈ p.slots, b.state ≠ .empty := by
    simpa [isEmpty, TbSlot.isEmpty] using hbusy
  have hawait : b.awaiting = false := by
    by_contra hwaits
    exact Nat.lt_irrefl _ (h.awaiting b hb (by simpa using hwaits))
  have hpending := (hs b hb).isPendingRetx hstate hawait
  rw [hasPendingRetx_iff, h.now_eq]
  exact ⟨h.pending b hb hpending, b, hb, hpending⟩

namespace HarqTable

variable {α : Type} {h : HarqTable α} {now t : Tti} {roundTrip : Nat}

/-- The process mapped to `t` is free, so that no other one is searched for. -/
def MapsFree (h : HarqTable α) (t : Tti) : Prop :=
  (h.get? (h.pidFor t)).any HarqProcess.isEmpty = true

theorem MapsFree.emptyProcess? (hfree : h.MapsFree t) : h.emptyProcess? t = some (h.pidFor t) :=
  if_pos hfree

/-- Every unresolved process was last sent at a point that is mapped to it. -/
def Synced (h : HarqTable α) : Prop :=
  ∀ p ∈ h.procs, p.isEmpty = false → ∃ sent, p.txTti = some sent ∧ p.pid = h.pidFor sent

namespace Steady

theorem quiet_of_retxRequest? (hs : h.Steady roundTrip now) (hnone : h.retxRequest? t = none) :
    h.Quiet t := by
  intro p hp
  by_contra hdue
  have hfound : (h.procs.find? (·.hasPendingRetx t)).isSome = true := by
    rw [List.find?_isSome]
    exact ⟨p, hp, by simpa using hdue⟩
  obtain ⟨q, hfind⟩ := Option.isSome_iff_exists.mp hfound
  obtain ⟨hq, hqdue⟩ := of_find?_due hfind
  obtain ⟨alloc, halloc⟩ := hs.held q hq (HarqProcess.not_isEmpty_of_hasPendingRetx hqdue)
  rw [retxRequest?, pendingProcess?, hfind, Option.map_some, Option.bind_some,
    hs.timely.sound.get?_pid hq, Option.bind_some, halloc] at hnone
  cases hnone

theorem mapsFree (hs : h.Steady roundTrip now) (hpos : 0 < roundTrip)
    (hdvd : roundTrip ∣ Tti.period) (hsynced : h.Synced)
    (hfresh : ∀ p ∈ h.procs, p.isEmpty = false → p.txTti ≠ some now) (hquiet : h.Quiet now) :
    h.MapsFree now := by
  have hprocs : h.nofProcs = roundTrip := hs.roundTrip_eq
  have hlt : h.pidFor now < h.nofProcs := Nat.mod_lt _ (hprocs ▸ hpos)
  obtain ⟨p, hp⟩ : ∃ p, h.get? (h.pidFor now) = some p := ⟨_, List.getElem?_eq_getElem hlt⟩
  have hmem := List.mem_of_getElem? hp
  rw [MapsFree, hp, Option.any_some]
  by_contra hnot
  have hbusy : p.isEmpty = false := by simpa using hnot
  rcases hs.timely.procs p hmem with hempty | ⟨tx, elapsed, hflight⟩
  · exact hnot hempty
  · obtain ⟨sent, hsent, hpid⟩ := hsynced p hmem hbusy
    obtain rfl := Option.some.inj (hflight.sent.symm.trans hsent)
    have hround := hs.roundTrip_eq
    -- both points are mapped to the process
    have hmapped : (tx + elapsed).index % roundTrip = tx.index % roundTrip := by
      rw [(hs.timely.sound.of_get? hp).2, pidFor, pidFor, hprocs, hflight.now_eq] at hpid
      exact hpid
    rcases Tti.eq_zero_or_eq_of_mod hdvd tx (hround ▸ hflight.within) hmapped with rfl | rfl
    · apply hfresh p hmem hbusy
      rw [hflight.sent, hflight.now_eq, Tti.add_zero]
    · subst hround
      have hdue := hflight.hasPendingRetx (hs.timely.sound.of_get? hp).1 hbusy
      rw [hquiet p hmem] at hdue
      cases hdue

end Steady

end HarqTable

end MacScheduler
