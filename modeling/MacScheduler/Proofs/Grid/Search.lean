import Mathlib.Data.List.Pairwise
import Mathlib.Order.Nat
import Mathlib.Tactic.ByContra
import MacScheduler.Proofs.Grid.Prb

/-!
# What a search finds

The free blocks of a carrier fall into maximal runs, which a search walks from the low
end.  Every free interval lies in one of them, so the first run that is long enough
begins with the lowest interval of the length asked for.  Where no run is long enough
the longest one is found, the lowest of several.
-/

namespace MacScheduler

namespace PrbInterval

variable {i j : PrbInterval}

theorem Within.len_le (h : i.Within j) : i.len ≤ j.len := by
  obtain ⟨hstart, hstop⟩ := h
  omega

theorem has_start (hpos : 0 < i.len) : i.Has i.start :=
  ⟨Nat.le_refl _, Nat.lt_add_of_pos_right hpos⟩

theorem Within.trans {r : PrbInterval} (hij : i.Within j) (hjr : j.Within r) : i.Within r :=
  ⟨hjr.1.trans hij.1, hij.2.trans hjr.2⟩

theorem eq_of_start_of_len (hstart : i.start = j.start) (hlen : i.len = j.len) : i = j :=
  PrbInterval.mk.injEq .. ▸ ⟨hstart, hlen⟩

theorem Within.eq (hij : i.Within j) (hji : j.Within i) : i = j :=
  eq_of_start_of_len (Nat.le_antisymm hji.1 hij.1) (Nat.le_antisymm hij.len_le hji.len_le)

end PrbInterval

namespace PrbMap

/-! ## Maximal runs -/

/-- A free interval that is part of no other. -/
structure IsRun (m : PrbMap) (run : PrbInterval) : Prop where
  pos : 0 < run.len
  free : m.Free run
  maximal : ∀ i, m.Free i → run.Within i → i = run

/-- What ends before `pos` lies in the run that is open there. -/
theorem within_open {pos len : Nat} {i : PrbInterval} (hlen : len ≤ pos) (hpos : 0 < i.len)
    (hstart : pos - len ≤ i.start) (hstop : i.start + i.len ≤ pos) :
    len ≠ 0 ∧ i.Within ⟨pos - len, len⟩ := by
  refine ⟨by omega, hstart, ?_⟩
  change i.start + i.len ≤ pos - len + len
  rwa [Nat.sub_add_cancel hlen]

/-- Every interval over free blocks, those before `pos` or those the flags tell of, lies in
one of the runs. -/
theorem exists_mem_runsFrom {pos len : Nat} {flags : List Bool} {i : PrbInterval}
    (hlen : len ≤ pos) (hpos : 0 < i.len) (hstart : pos - len ≤ i.start)
    (hstop : i.start + i.len ≤ pos + flags.length)
    (hfree : ∀ k, i.Has (pos + k) → flags[k]? = some false) :
    ∃ run ∈ runsFrom pos len flags, i.Within run := by
  induction flags generalizing pos len with
  | nil =>
      obtain ⟨hne, hwithin⟩ := within_open hlen hpos hstart hstop
      exact ⟨_, by simp [runsFrom, hne], hwithin⟩
  | cons flag flags ih =>
      have htail : ∀ k, i.Has (pos + 1 + k) → flags[k]? = some false := by
        intro k hk
        have hflag := hfree (k + 1) (by rwa [show pos + (k + 1) = pos + 1 + k by omega])
        rwa [List.getElem?_cons_succ] at hflag
      rw [List.length_cons] at hstop
      cases flag with
      | false => exact ih (by omega) (by omega) (by omega) htail
      | true =>
          -- block `pos` is taken, so the interval lies wholly before or after it
          have hnot : ¬i.Has pos := fun hk ↦ by simpa using hfree 0 hk
          by_cases hle : i.start + i.len ≤ pos
          · obtain ⟨hne, hwithin⟩ := within_open hlen hpos hstart hle
            exact ⟨_, by simp [runsFrom, hne], hwithin⟩
          · have hafter : pos < i.start :=
              Nat.lt_of_not_le fun hbefore ↦ hnot ⟨hbefore, Nat.lt_of_not_le hle⟩
            obtain ⟨run, hrun, hwithin⟩ := ih (Nat.zero_le _) hafter (by omega) htail
            refine ⟨run, ?_, hwithin⟩
            rw [runsFrom]
            split
            · exact hrun
            · exact List.mem_cons_of_mem _ hrun

/-- Between two runs lies a block that is taken. -/
theorem pairwise_runsFrom {pos len : Nat} {flags : List Bool} (hlen : len ≤ pos) :
    (runsFrom pos len flags).Pairwise fun a b ↦ a.start + a.len < b.start := by
  induction flags generalizing pos len with
  | nil =>
      rw [runsFrom]
      split
      · exact List.Pairwise.nil
      · exact List.pairwise_singleton _ _
  | cons flag flags ih =>
      cases flag with
      | false => exact ih (Nat.succ_le_succ hlen)
      | true =>
          rw [runsFrom]
          split
          · exact ih (Nat.zero_le _)
          · refine List.pairwise_cons.mpr ⟨fun run hrun ↦ ?_, ih (Nat.zero_le _)⟩
            have hstart := (of_mem_runsFrom (Nat.zero_le _) hrun).2.1
            change pos - len + len < run.start
            omega

variable {m : PrbMap} {i run best : PrbInterval} {len : Nat}

theorem pairwise_freeRuns (m : PrbMap) :
    m.freeRuns.Pairwise fun a b ↦ a.start + a.len < b.start :=
  pairwise_runsFrom (Nat.le_refl 0)

/-- A run is not above those that follow it. -/
theorem start_le_of_split {before after : List PrbInterval}
    (hsplit : m.freeRuns = before ++ run :: after) (hi : i ∈ run :: after) :
    run.start ≤ i.start := by
  have hsorted := pairwise_freeRuns m
  rw [hsplit] at hsorted
  rcases List.mem_cons.mp hi with rfl | hi
  · exact Nat.le_refl _
  · have hlt := (List.pairwise_cons.mp (List.pairwise_append.mp hsorted).2.1).1 i hi
    exact (Nat.le_add_right _ _).trans hlt.le

theorem exists_mem_freeRuns (hpos : 0 < i.len) (hfree : m.Free i) :
    ∃ run ∈ m.freeRuns, i.Within run := by
  obtain ⟨hstop, hblocks⟩ := hfree
  refine exists_mem_runsFrom (Nat.le_refl 0) hpos (Nat.zero_le _) ?_ fun k hk ↦ ?_
  · rw [List.length_map, List.length_range]
    omega
  · rw [Nat.zero_add] at hk
    rw [List.getElem?_map, List.getElem?_range (Nat.lt_of_lt_of_le hk.2 hstop), Option.map_some,
      hblocks k hk]

/-- Runs that share a block are the same. -/
theorem eq_of_mem_freeRuns {a b : PrbInterval} (ha : a ∈ m.freeRuns) (hb : b ∈ m.freeRuns)
    {k : Nat} (hak : a.Has k) (hbk : b.Has k) : a = b := by
  let apart : PrbInterval → PrbInterval → Prop := fun a b ↦
    a.start + a.len < b.start ∨ b.start + b.len < a.start
  have hsymm : Std.Symm apart := ⟨fun _ _ h ↦ h.symm⟩
  have hapart : m.freeRuns.Pairwise apart := (pairwise_freeRuns m).imp .inl
  by_contra hne
  rcases hapart.forall ha hb hne with h | h
  · exact absurd (hak.2.trans_le h.le) (Nat.not_lt_of_le hbk.1)
  · exact absurd (hbk.2.trans_le h.le) (Nat.not_lt_of_le hak.1)

/-- The runs that a search walks are the maximal ones. -/
theorem mem_freeRuns : run ∈ m.freeRuns ↔ m.IsRun run := by
  constructor
  · intro hrun
    obtain ⟨hpos, hfree⟩ := of_mem_freeRuns hrun
    refine ⟨hpos, hfree, fun i hi hwithin ↦ ?_⟩
    obtain ⟨other, hother, hin⟩ := exists_mem_freeRuns (hpos.trans_le hwithin.len_le) hi
    -- a run around `i` shares the first block of `run` with it
    have hhas := PrbInterval.has_start hpos
    obtain rfl := eq_of_mem_freeRuns hrun hother hhas ((hwithin.trans hin).has hhas)
    exact hin.eq hwithin
  · intro hrun
    obtain ⟨other, hother, hwithin⟩ := exists_mem_freeRuns hrun.pos hrun.free
    rwa [← hrun.maximal other (of_mem_freeRuns hother).2 hwithin]

/-! ## The first run that is long enough -/

/-- The lowest free interval of `len` blocks. -/
structure FirstFit (m : PrbMap) (len : Nat) (i : PrbInterval) : Prop where
  len_eq : i.len = len
  free : m.Free i
  start_le : ∀ j, j.len = len → m.Free j → i.start ≤ j.start

theorem FirstFit.eq {j : PrbInterval} (hi : m.FirstFit len i) (hj : m.FirstFit len j) : i = j := by
  have hstart : i.start = j.start :=
    Nat.le_antisymm (hi.start_le j hj.len_eq hj.free) (hj.start_le i hi.len_eq hi.free)
  exact PrbInterval.eq_of_start_of_len hstart (hi.len_eq.trans hj.len_eq.symm)

theorem firstFit_of_findExact (h : m.findExact len = some i) : m.FirstFit len i := by
  obtain ⟨hlen, hpos, hfree⟩ := of_findExact h
  refine ⟨hlen, hfree, fun j hj hjfree ↦ ?_⟩
  rw [findExact, if_neg hpos.ne'] at h
  obtain ⟨run, hfind, rfl⟩ := Option.map_eq_some_iff.mp h
  obtain ⟨-, before, after, hsplit, hshort⟩ := List.find?_eq_some_iff_append.mp hfind
  obtain ⟨other, hother, hwithin⟩ := exists_mem_freeRuns (hj ▸ hpos) hjfree
  rw [hsplit] at hother
  rcases List.mem_append.mp hother with hother | hother
  · have hlong : other.len < len := by simpa using hshort other hother
    exact absurd (hj ▸ hwithin.len_le) (Nat.not_le_of_lt hlong)
  · exact (start_le_of_split hsplit hother).trans hwithin.1

theorem exists_findExact (hpos : 0 < len) (hlen : i.len = len) (hfree : m.Free i) :
    ∃ j, m.findExact len = some j := by
  obtain ⟨run, hrun, hwithin⟩ := exists_mem_freeRuns (hlen ▸ hpos) hfree
  have hlong : len ≤ run.len := hlen ▸ hwithin.len_le
  rw [findExact, if_neg hpos.ne']
  cases hfind : m.freeRuns.find? fun run ↦ decide (len ≤ run.len) with
  | none => exact absurd hlong (by simpa using List.find?_eq_none.mp hfind run hrun)
  | some other => exact ⟨_, rfl⟩

theorem findExact_eq_some_iff (hpos : 0 < len) :
    m.findExact len = some i ↔ m.FirstFit len i := by
  refine ⟨firstFit_of_findExact, fun h ↦ ?_⟩
  obtain ⟨j, hj⟩ := exists_findExact hpos h.len_eq h.free
  rw [hj, h.eq (firstFit_of_findExact hj)]

theorem findExact_eq_none_iff (hpos : 0 < len) :
    m.findExact len = none ↔ ∀ i, i.len = len → ¬m.Free i := by
  constructor
  · intro h i hlen hfree
    obtain ⟨j, hj⟩ := exists_findExact hpos hlen hfree
    rw [h] at hj
    cases hj
  · intro h
    cases hfind : m.findExact len with
    | none => rfl
    | some i =>
        obtain ⟨hlen, -, hfree⟩ := of_findExact hfind
        exact absurd hfree (h i hlen)

/-! ## The longest run -/

/-- The lowest of the longest runs. -/
structure LongestRun (m : PrbMap) (i : PrbInterval) : Prop extends m.IsRun i where
  len_le : ∀ run, m.IsRun run → run.len ≤ i.len
  start_le : ∀ run, m.IsRun run → run.len = i.len → i.start ≤ run.start

theorem LongestRun.eq {j : PrbInterval} (hi : m.LongestRun i) (hj : m.LongestRun j) : i = j := by
  have hlen : i.len = j.len :=
    Nat.le_antisymm (hj.len_le i hi.toIsRun) (hi.len_le j hj.toIsRun)
  have hstart : i.start = j.start :=
    Nat.le_antisymm (hi.start_le j hj.toIsRun hlen.symm) (hj.start_le i hi.toIsRun hlen)
  exact PrbInterval.eq_of_start_of_len hstart hlen

/-- Runs before the one chosen are shorter, and those after it are not longer. -/
theorem exists_split_of_longest {runs : List PrbInterval} (h : longest runs = some best) :
    ∃ before after, runs = before ++ best :: after ∧ (∀ run ∈ before, run.len < best.len) ∧
      ∀ run ∈ after, run.len ≤ best.len := by
  induction runs generalizing best with
  | nil => simp [longest] at h
  | cons run runs ih =>
      cases hrest : longest runs with
      | none =>
          obtain rfl : run = best := by simpa [longest, hrest] using h
          rw [longest_eq_none hrest]
          exact ⟨[], [], rfl, by simp, by simp⟩
      | some other =>
          obtain ⟨before, after, rfl, hbefore, hafter⟩ := ih hrest
          simp only [longest, hrest] at h
          by_cases hlt : run.len < other.len
          · rw [if_pos hlt, Option.some.injEq] at h
            subst h
            exact ⟨run :: before, after, rfl, List.forall_mem_cons.mpr ⟨hlt, hbefore⟩, hafter⟩
          · rw [if_neg hlt, Option.some.injEq] at h
            subst h
            refine ⟨[], before ++ other :: after, rfl, by simp, fun r hr ↦ ?_⟩
            refine Nat.le_trans ?_ (Nat.le_of_not_lt hlt)
            rcases List.mem_append.mp hr with hr | hr
            · exact (hbefore r hr).le
            · rcases List.mem_cons.mp hr with rfl | hr
              · exact Nat.le_refl _
              · exact hafter r hr

theorem longestRun_of_longest (h : longest m.freeRuns = some i) : m.LongestRun i := by
  obtain ⟨before, after, hsplit, hbefore, hafter⟩ := exists_split_of_longest h
  have hmem (run : PrbInterval) (hrun : m.IsRun run) : run ∈ before ++ i :: after :=
    hsplit ▸ mem_freeRuns.mpr hrun
  refine ⟨mem_freeRuns.mp (longest_mem h), fun run hrun ↦ ?_, fun run hrun hlen ↦ ?_⟩
  · rcases List.mem_append.mp (hmem run hrun) with hrun | hrun
    · exact (hbefore run hrun).le
    · rcases List.mem_cons.mp hrun with rfl | hrun
      · exact Nat.le_refl _
      · exact hafter run hrun
  · rcases List.mem_append.mp (hmem run hrun) with hrun | hrun
    · exact absurd hlen (hbefore run hrun).ne
    · exact start_le_of_split hsplit hrun

theorem longest_freeRuns_eq_some_iff : longest m.freeRuns = some i ↔ m.LongestRun i := by
  refine ⟨longestRun_of_longest, fun h ↦ ?_⟩
  cases hlongest : longest m.freeRuns with
  | none =>
      have hrun := mem_freeRuns.mpr h.toIsRun
      rw [longest_eq_none hlongest] at hrun
      cases hrun
  | some j => rw [h.eq (longestRun_of_longest hlongest)]

/-- Whatever the blocks taken, a search for an interval of a given length finds the lowest free
one, and finds none only when there is none; a search for up to that length then finds the
lowest of the longest runs instead, and finds nothing only when every block is taken. -/
theorem searches_find_lowest (m : PrbMap) {len : Nat} (hpos : 0 < len) :
    (∀ i, m.findExact len = some i ↔ m.FirstFit len i) ∧
      (m.findExact len = none ↔ ∀ i, i.len = len → ¬m.Free i) ∧
      (∀ i, m.findUpTo len = some i ↔
        m.FirstFit len i ∨ (∀ j, j.len = len → ¬m.Free j) ∧ m.LongestRun i) ∧
      (m.findUpTo len = none ↔ ∀ k < m.size, m.taken k = true) ∧
      ∀ i, m.findExact len = some i ∨ m.findUpTo len = some i → m.isFree i = true := by
  refine ⟨fun i ↦ findExact_eq_some_iff hpos, findExact_eq_none_iff hpos, fun i ↦ ?_,
    ⟨fun h k ↦ taken_of_findUpTo_eq_none h, fun h ↦ ?_⟩, ?_⟩
  · rw [findUpTo, Option.or_eq_some_iff, findExact_eq_some_iff hpos, findExact_eq_none_iff hpos,
      longest_freeRuns_eq_some_iff]
  · cases hfind : m.findUpTo len with
    | none => rfl
    | some i =>
        obtain ⟨hlen, hstop, hblocks⟩ := of_findUpTo hfind
        have hhas := PrbInterval.has_start hlen
        have htaken := h i.start (hhas.2.trans_le hstop)
        rw [hblocks i.start hhas] at htaken
        cases htaken
  · rintro i (h | h)
    · exact (of_findExact h).2.2.isFree
    · exact (of_findUpTo h).2.isFree

/-- Both edges of the carrier and a block between them are taken. -/
def brokenBand : PrbMap := (((empty 25).fill ⟨0, 2⟩).fill ⟨23, 2⟩).fill ⟨10, 1⟩

theorem searches_brokenBand :
    0 < 12 ∧ 0 < 20 ∧ brokenBand.findExact 12 = some ⟨11, 12⟩ ∧ brokenBand.FirstFit 12 ⟨11, 12⟩ ∧
      brokenBand.findUpTo 20 = some ⟨11, 12⟩ ∧
      (∀ i, i.len = 20 → ¬brokenBand.Free i) ∧ brokenBand.LongestRun ⟨11, 12⟩ := by
  have htwelve : brokenBand.findExact 12 = some ⟨11, 12⟩ := by decide
  have htwenty : brokenBand.findUpTo 20 = some ⟨11, 12⟩ := by decide
  have hlong : ¬brokenBand.FirstFit 20 ⟨11, 12⟩ := fun h ↦ absurd h.len_eq (by decide)
  obtain ⟨hexact, -⟩ := searches_find_lowest brokenBand (show 0 < 12 by decide)
  obtain ⟨-, -, hupTo, -⟩ := searches_find_lowest brokenBand (show 0 < 20 by decide)
  obtain ⟨hnone, hrun⟩ := ((hupTo ⟨11, 12⟩).mp htwenty).resolve_left hlong
  exact ⟨by decide, by decide, htwelve, (hexact ⟨11, 12⟩).mp htwelve, htwenty, hnone, hrun⟩

end PrbMap

end MacScheduler
