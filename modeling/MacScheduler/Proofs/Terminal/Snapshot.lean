import MacScheduler.Proofs.Control.Region
import MacScheduler.Proofs.Control.SearchSpace
import MacScheduler.Proofs.Terminal.Send

/-!
# What a snapshot tells

The snapshot of a steady terminal asks for the retransmissions that are due on its
link, and for new data only in a direction without one.
-/

namespace MacScheduler

theorem Link.of_mem_dciCandidates {l : Link} {subframe level first : Nat}
    (h : first ∈ l.dciCandidates subframe level) :
    level ≤ MacScheduler.maxAggrLevel ∧ DciLocation.Inside ⟨first, level⟩ l.params.nofCce := by
  unfold Link.dciCandidates at h
  split at h
  · rename_i hlevel
    refine ⟨hlevel, ?_⟩
    rw [DciLocation.Inside, DciLocation.size_of_level hlevel]
    exact SearchSpace.stop_le_of_mem_candidates h
  · cases h

theorem Link.counted_of_mem_dciCandidates {l : Link} (hcce : l.params.nofCce ≤ 88)
    {subframe level first : Nat} (h : first ∈ l.dciCandidates subframe level) :
    DciLocation.Counted ⟨first, level⟩ :=
  (of_mem_dciCandidates h).2.counted (Nat.le_trans hcce (by decide))

namespace Terminal

variable {cells : List CellParams} {now : Tti} {t : Terminal} {carrier : Nat}

/-- No snapshot asks for a retransmission and for new data in one direction. -/
theorem one_of_snapshot? {s : Snapshot} (hs : t.snapshot? now carrier = some s) :
    ¬(s.dlRetx.isSome ∧ s.dlNew.isSome) ∧ ¬(s.ulRetx.isSome ∧ s.ulNew.isSome) := by
  obtain ⟨l, -, rfl⟩ := Option.map_eq_some_iff.mp hs
  constructor <;>
  · rintro ⟨hretx, hnew⟩
    dsimp only at hretx hnew
    rw [if_pos hretx] at hnew
    cases hnew

/-- The snapshot of a terminal with link `l` on the carrier. -/
structure Shows (now : Tti) (t : Terminal) (l : Link) (s : Snapshot) : Prop where
  rnti_eq : s.rnti = t.rnti
  level_eq : s.aggrLevel = l.aggrLevel
  candidates_eq : s.candidates = l.dciCandidates now.downlinkTx.subframe l.aggrLevel
  dlRetx_eq : s.dlRetx = l.dl.retxRequest? now.downlinkTx
  ulRetx_eq : s.ulRetx = l.ul.retxRequest? now.uplinkTx

theorem Steady.shows (h : t.Steady cells now) {l : Link} (hl : t.link? carrier = some l) :
    ∃ s, t.snapshot? now carrier = some s ∧ t.Shows now l s := by
  have hsteady := h.links l (of_link? hl).1
  refine ⟨_, by rw [snapshot?, hl, Option.map_some], rfl, rfl, rfl, ?_, ?_⟩
  · by_cases hallows : l.allowsRetx = true
    · exact if_pos hallows
    · exact (if_neg hallows).trans
        ((hsteady.off (by simpa using hallows)).1.retxRequest?_eq_none _).symm
  · by_cases hallows : l.allowsRetx = true
    · exact if_pos hallows
    · exact (if_neg hallows).trans
        ((hsteady.off (by simpa using hallows)).2.retxRequest?_eq_none _).symm

theorem Steady.of_snapshot? (h : t.Steady cells now) {s : Snapshot}
    (hs : t.snapshot? now carrier = some s) :
    ∃ l ∈ t.links, l.carrier = carrier ∧ t.Shows now l s := by
  obtain ⟨l, hl, -⟩ := Option.map_eq_some_iff.mp hs
  obtain ⟨s', hs', hshows⟩ := h.shows hl
  obtain rfl := Option.some.inj (hs.symm.trans hs')
  exact ⟨l, (of_link? hl).1, (of_link? hl).2, hshows⟩

end Terminal

end MacScheduler
