import MacScheduler.Proofs.Scheduler.Delivery

/-!
# What fresh downlink grants leave waiting

The groups that a terminal asks for are counted as full ones, and what it gets may hold
the short last group, so a request that is met in full may leave bytes behind.  A block on
a single resource block with one of the two lowest schemes has no room beyond a subheader,
and yet it is granted.  Otherwise requests that are met empty the buffers, and every fresh
grant leaves less waiting.
-/

namespace MacScheduler.Scheduler

variable {s : Scheduler} {cells : CellSet} {pass : CarrierPass} {now : Tti} {carrier : Nat}

/-- The first of two terminals waits for a lost block to be sent again when data comes for the
second one. -/
def lostBefore (first second : Nat) : Scheduler :=
  let s := (({} : Scheduler).handle (.configureCells {})).2
  let s := (s.handle (.configureTerminal ⟨70⟩ { maxAggrLevel := 0 })).2
  let s := (s.handle (.configureTerminal ⟨71⟩ { maxAggrLevel := 0 })).2
  let s := (s.handle (.act ⟨70⟩ (.reportDownlink 0 first 0))).2
  let s := (s.handle (.pull (Tti.ofNat 0) 0 10)).2
  let s := (s.handle (.act ⟨70⟩ (.acknowledgeDownlink (Tti.ofNat 8) 0 0 false))).2
  (s.handle (.act ⟨71⟩ (.reportDownlink 0 second 0))).2

theorem reachable_lostBefore (first second : Nat) : (lostBefore first second).Reachable :=
  (((((((Reachable.start.step _).step _).step _).step _).step _).step _).step _)

/-- In every pass, a request for new data that gets as many groups as it asked for is granted
all its bytes where that many suffice, unless the groups hold a short last one without being all
groups.  Where all that waits is a count, the buffers of its terminal are then empty. -/
theorem sufficient_groups_empty_buffers (h : s.Reachable) (hcells : s.cells = some cells)
    (hpass : cells.passes[carrier]? = some pass) (hadmits : pass.Admits now) (elapsed : Nat) :
    ∃ r : SubframeResult, (s.pull now carrier elapsed).2.resultOf? carrier = some r ∧
      ∀ d ∈ (pass.planOf (cells.policy.prioritize now carrier) now s.terminals cells.pools).dl,
        ∀ seen ∈ (pass.observed now s.terminals cells.pools).1, seen.rnti = d.rnti →
        ∀ q, seen.dlNew = some q → d.mask.count = q.units →
        d.mask.test (pass.params.nofRbg - 1) = false ∨
          RbgMask.shortfall pass.params.nofPrb = 0 ∨ q.units = pass.params.nofRbg →
        ∃ g ∈ r.dl, ∃ t l t', d.Delivered pass.params
            (pass.observed now s.terminals cells.pools).2.1
            (s.pull now carrier elapsed).2.terminals q g t l t' ∧
          (q.pending ≤ (l.sizeForUnits q.units q.pending .downlink).total →
            q.pending ≤ g.totalBytes ∧
              (t.channels.backlog ≤ maxCount → t'.downlinkPending = 0)) := by
  obtain ⟨r, hr, hdelivers⟩ := delivers_of_admits h hcells hpass hadmits elapsed
  refine ⟨r, hr, fun d hd seen hseen hrnti q hq hcount hwhole ↦ ?_⟩
  obtain ⟨g, hg, t, l, t', hdelivered⟩ := hdelivers.of_entry d hd seen hseen hrnti q hq
  refine ⟨g, hg, t, l, t', hdelivered, fun hcovers ↦ ?_⟩
  exact hdelivered.empties (h.configured.nofPrb_le hcells hpass) hcount hcovers hwhole

/-- What waits in the second terminal is a count. -/
theorem backlog_lostBefore (hcells : (lostBefore 5 5).cells = some cells)
    (hpass : cells.passes[0]? = some pass) {t : Terminal}
    (ht : (pass.observed (Tti.ofNat 8) (lostBefore 5 5).terminals cells.pools).2.1.get? ⟨71⟩ =
      some t) : t.channels.backlog ≤ maxCount := by
  have hbacklog : ((lostBefore 5 5).cells.bind fun cells ↦ cells.passes[0]?.bind fun pass ↦
      ((pass.observed (Tti.ofNat 8) (lostBefore 5 5).terminals cells.pools).2.1.get? ⟨71⟩).map
        fun t ↦ decide (t.channels.backlog ≤ maxCount)) = some true := by
    decide +kernel
  rw [hcells, Option.bind_some, hpass, Option.bind_some, ht, Option.map_some,
    Option.some.injEq] at hbacklog
  exact of_decide_eq_true hbacklog

/-- Behind the block sent again, two full groups are enough for eight bytes. -/
theorem groups_empty_buffers_behind_lost :
    ∃ (cells : CellSet) (pass : CarrierPass) (r : SubframeResult) (d : DlPlan) (q : NewTxRequest),
      (lostBefore 5 5).cells = some cells ∧ cells.passes[0]? = some pass ∧
      pass.Admits (Tti.ofNat 8) ∧
      ((lostBefore 5 5).pull (Tti.ofNat 8) 0 10).2.resultOf? 0 = some r ∧
      d ∈ (pass.planOf (cells.policy.prioritize (Tti.ofNat 8) 0) (Tti.ofNat 8)
        (lostBefore 5 5).terminals cells.pools).dl ∧
      d.rnti = ⟨71⟩ ∧ d.mask.count = 2 ∧ q.units = 2 ∧ q.pending = 8 ∧
      ∃ g ∈ r.dl, ∃ t l t', d.Delivered pass.params
          (pass.observed (Tti.ofNat 8) (lostBefore 5 5).terminals cells.pools).2.1
          ((lostBefore 5 5).pull (Tti.ofNat 8) 0 10).2.terminals q g t l t' ∧
        q.pending ≤ g.totalBytes ∧ t'.downlinkPending = 0 := by
  have hpoint : (lostBefore 5 5).passPoint? (.pull (Tti.ofNat 8) 0 10) = some (Tti.ofNat 8) := by
    decide +kernel
  obtain ⟨_, _, cells, pass, ⟨⟩, hcells, hpass, hadmits⟩ := exists_of_passPoint? hpoint
  obtain ⟨r, hr, hall⟩ :=
    sufficient_groups_empty_buffers (reachable_lostBefore 5 5) hcells hpass hadmits 10
  have hentry : ((lostBefore 5 5).cells.bind fun cells ↦ cells.passes[0]?.bind fun pass ↦
      (pass.planOf (cells.policy.prioritize (Tti.ofNat 8) 0) (Tti.ofNat 8)
        (lostBefore 5 5).terminals cells.pools).dl[1]?.map fun d ↦
          (d.rnti, d.mask.count, d.mask.test (pass.params.nofRbg - 1))) =
      some (⟨71⟩, 2, false) := by
    decide +kernel
  have hasked : ((lostBefore 5 5).cells.bind fun cells ↦ cells.passes[0]?.bind fun pass ↦
      (pass.observed (Tti.ofNat 8) (lostBefore 5 5).terminals cells.pools).1[1]?.bind fun seen ↦
        seen.dlNew.map fun q ↦ (seen.rnti, q.units, q.pending)) = some (⟨71⟩, 2, 8) := by
    decide +kernel
  have hsize : ((lostBefore 5 5).cells.bind fun cells ↦ cells.passes[0]?.bind fun pass ↦
      ((pass.observed (Tti.ofNat 8) (lostBefore 5 5).terminals cells.pools).2.1.get? ⟨71⟩).bind
        fun t ↦ (t.link? pass.params.index).map fun l ↦
          (l.sizeForUnits 2 8 .downlink).total) = some 8 := by
    decide +kernel
  rw [hcells, Option.bind_some, hpass, Option.bind_some] at hentry hasked hsize
  obtain ⟨d, hd, hdeq⟩ := Option.map_eq_some_iff.mp hentry
  obtain ⟨seen, hseen, hasked⟩ := Option.bind_eq_some_iff.mp hasked
  obtain ⟨q, hq, hqeq⟩ := Option.map_eq_some_iff.mp hasked
  simp only [Prod.mk.injEq] at hdeq hqeq
  obtain ⟨hrnti, hcount, hlast⟩ := hdeq
  obtain ⟨hsame, hunits, hpending⟩ := hqeq
  have hd := List.mem_of_getElem? hd
  obtain ⟨g, hg, t, l, t', hdelivered, hempties⟩ := hall d hd seen (List.mem_of_getElem? hseen)
    (hsame.trans hrnti.symm) q hq (hcount.trans hunits.symm) (.inl hlast)
  rw [← hrnti, hdelivered.before_eq, Option.bind_some, hdelivered.link_eq, Option.map_some,
    Option.some.injEq] at hsize
  obtain ⟨hbytes, hempty⟩ := hempties (by rw [hunits, hpending, hsize])
  have hbacklog := backlog_lostBefore hcells hpass (hrnti ▸ hdelivered.before_eq)
  exact ⟨cells, pass, r, d, q, hcells, hpass, hadmits, hr, hd, hrnti, hcount, hunits, hpending,
    g, hg, t, l, t', hdelivered, hbytes, hempty hbacklog⟩

/-- Two groups suffice for eight bytes if they are full; with the short last one among them
they are granted six bytes, and the buffers are not emptied. -/
theorem last_group_leaves_bytes :
    ∃ (cells : CellSet) (pass : CarrierPass) (r : SubframeResult),
      (lostBefore 41 5).Reachable ∧ (lostBefore 41 5).cells = some cells ∧
      cells.passes[0]? = some pass ∧ pass.Admits (Tti.ofNat 8) ∧
      ((lostBefore 41 5).pull (Tti.ofNat 8) 0 10).2.resultOf? 0 = some r ∧
      ((pass.observed (Tti.ofNat 8) (lostBefore 41 5).terminals cells.pools).1.map fun seen ↦
        (seen.rnti, seen.dlNew.map fun q ↦ (q.units, q.pending))) =
          [(⟨70⟩, none), (⟨71⟩, some (2, 8))] ∧
      ((pass.observed (Tti.ofNat 8) (lostBefore 41 5).terminals cells.pools).2.1.map fun t ↦
        (t.rnti, (t.link? 0).map fun l ↦ (l.sizeForUnits 2 8 .downlink).total)) =
          [(⟨70⟩, some 8), (⟨71⟩, some 8)] ∧
      ((pass.planOf (cells.policy.prioritize (Tti.ofNat 8) 0) (Tti.ofNat 8)
        (lostBefore 41 5).terminals cells.pools).dl.map fun d ↦ (d.rnti, d.mask.count)) =
          [(⟨70⟩, 11), (⟨71⟩, 2)] ∧
      (r.dl.map fun g ↦ (g.rnti, g.isRetx, g.totalBytes)) =
        [(⟨70⟩, true, 44), (⟨71⟩, false, 6)] ∧
      (((lostBefore 41 5).pull (Tti.ofNat 8) 0 10).2.terminals.map fun t ↦
        (t.rnti, t.downlinkPending)) = [(⟨70⟩, 0), (⟨71⟩, 5)] := by
  have hpoint : (lostBefore 41 5).passPoint? (.pull (Tti.ofNat 8) 0 10) =
      some (Tti.ofNat 8) := by
    decide +kernel
  obtain ⟨_, _, cells, pass, ⟨⟩, hcells, hpass, hadmits⟩ := exists_of_passPoint? hpoint
  obtain ⟨r, hr, -⟩ := delivers_of_admits (reachable_lostBefore 41 5) hcells hpass hadmits 10
  have hasked : ((lostBefore 41 5).cells.bind fun cells ↦ cells.passes[0]?.map fun pass ↦
      (pass.observed (Tti.ofNat 8) (lostBefore 41 5).terminals cells.pools).1.map fun seen ↦
        (seen.rnti, seen.dlNew.map fun q ↦ (q.units, q.pending))) =
      some [(⟨70⟩, none), (⟨71⟩, some (2, 8))] := by
    decide +kernel
  have hsize : ((lostBefore 41 5).cells.bind fun cells ↦ cells.passes[0]?.map fun pass ↦
      (pass.observed (Tti.ofNat 8) (lostBefore 41 5).terminals cells.pools).2.1.map fun t ↦
        (t.rnti, (t.link? 0).map fun l ↦ (l.sizeForUnits 2 8 .downlink).total)) =
      some [(⟨70⟩, some 8), (⟨71⟩, some 8)] := by
    decide +kernel
  have hplan : ((lostBefore 41 5).cells.bind fun cells ↦ cells.passes[0]?.map fun pass ↦
      (pass.planOf (cells.policy.prioritize (Tti.ofNat 8) 0) (Tti.ofNat 8)
        (lostBefore 41 5).terminals cells.pools).dl.map fun d ↦ (d.rnti, d.mask.count)) =
      some [(⟨70⟩, 11), (⟨71⟩, 2)] := by
    decide +kernel
  have hgrants : (((lostBefore 41 5).pull (Tti.ofNat 8) 0 10).2.resultOf? 0).map (fun r ↦
      r.dl.map fun g ↦ (g.rnti, g.isRetx, g.totalBytes)) =
        some [(⟨70⟩, true, 44), (⟨71⟩, false, 6)] := by
    decide +kernel
  have hleft : ((lostBefore 41 5).pull (Tti.ofNat 8) 0 10).2.terminals.map
      (fun t ↦ (t.rnti, t.downlinkPending)) = [(⟨70⟩, 0), (⟨71⟩, 5)] := by
    decide +kernel
  rw [hcells, Option.bind_some, hpass, Option.map_some] at hasked hsize hplan
  rw [hr, Option.map_some] at hgrants
  exact ⟨cells, pass, r, reachable_lostBefore 41 5, hcells, hpass, hadmits, hr,
    Option.some.inj hasked, Option.some.inj hsize, Option.some.inj hplan,
    Option.some.inj hgrants, hleft⟩

/-- In every pass, a fresh downlink grant carries something and leaves less waiting, unless no
control element waits and its one block is of the smallest ones; then it carries nothing.  All
that waits has to be a count for this; a grant that carries nothing always leaves it as it is. -/
theorem fresh_grants_progress (h : s.Reachable) (hcells : s.cells = some cells)
    (hpass : cells.passes[carrier]? = some pass) (hadmits : pass.Admits now) (elapsed : Nat) :
    ∃ r : SubframeResult, (s.pull now carrier elapsed).2.resultOf? carrier = some r ∧
      ∀ g ∈ r.dl, g.isRetx = false →
        ∃ d ∈ (pass.planOf (cells.policy.prioritize now carrier) now s.terminals cells.pools).dl,
        ∃ q t l t', d.Delivered pass.params
          (pass.observed now s.terminals cells.pools).2.1
          (s.pull now carrier elapsed).2.terminals q g t l t' ∧
        (t.channels.backlog ≤ maxCount →
          (g.pdus ≠ [] ↔ t.channels.ces ≠ [] ∨
            1 < g.nofPrb ∨ 1 < l.topMcs .downlink ∨ l.nofLayers .downlink = 2) ∧
          (g.pdus ≠ [] → t'.downlinkPending < t.downlinkPending)) ∧
        (g.pdus = [] → t'.downlinkPending = t.downlinkPending) := by
  obtain ⟨r, hr, hdelivers⟩ := delivers_of_admits h hcells hpass hadmits elapsed
  refine ⟨r, hr, fun g hg hfresh ↦ ?_⟩
  obtain ⟨d, hd, q, t, l, t', hdelivered⟩ := hdelivers.of_grant g hg hfresh
  exact ⟨d, hd, q, t, l, t', hdelivered, fun hbacklog ↦
    ⟨hdelivered.pdus_ne_nil_iff hbacklog, hdelivered.downlinkPending_lt hbacklog⟩,
    hdelivered.downlinkPending_eq⟩

/-- Behind the block sent again, a grant of two full groups carries what waits. -/
theorem grant_progresses_behind_lost :
    ∃ (cells : CellSet) (pass : CarrierPass) (r : SubframeResult) (g : DlGrant),
      (lostBefore 5 5).cells = some cells ∧ cells.passes[0]? = some pass ∧
      pass.Admits (Tti.ofNat 8) ∧
      ((lostBefore 5 5).pull (Tti.ofNat 8) 0 10).2.resultOf? 0 = some r ∧
      g ∈ r.dl ∧ g.isRetx = false ∧ g.pdus = [.rlc 0 5] ∧
      ∃ d ∈ (pass.planOf (cells.policy.prioritize (Tti.ofNat 8) 0) (Tti.ofNat 8)
          (lostBefore 5 5).terminals cells.pools).dl,
        ∃ q t l t', d.Delivered pass.params
            (pass.observed (Tti.ofNat 8) (lostBefore 5 5).terminals cells.pools).2.1
            ((lostBefore 5 5).pull (Tti.ofNat 8) 0 10).2.terminals q g t l t' ∧
          (t.channels.ces ≠ [] ∨
            1 < g.nofPrb ∨ 1 < l.topMcs .downlink ∨ l.nofLayers .downlink = 2) ∧
          t'.downlinkPending < t.downlinkPending := by
  have hpoint : (lostBefore 5 5).passPoint? (.pull (Tti.ofNat 8) 0 10) = some (Tti.ofNat 8) := by
    decide +kernel
  obtain ⟨_, _, cells, pass, ⟨⟩, hcells, hpass, hadmits⟩ := exists_of_passPoint? hpoint
  obtain ⟨r, hr, hall⟩ := fresh_grants_progress (reachable_lostBefore 5 5) hcells hpass hadmits 10
  have hgrant : (((lostBefore 5 5).pull (Tti.ofNat 8) 0 10).2.resultOf? 0).bind (fun r ↦
      r.dl[1]?.map fun g ↦ (g.rnti, g.isRetx, g.pdus)) = some (⟨71⟩, false, [.rlc 0 5]) := by
    decide +kernel
  rw [hr, Option.bind_some] at hgrant
  obtain ⟨g, hg, hgeq⟩ := Option.map_eq_some_iff.mp hgrant
  simp only [Prod.mk.injEq] at hgeq
  obtain ⟨hrnti, hfresh, hpdus⟩ := hgeq
  have hg := List.mem_of_getElem? hg
  obtain ⟨d, hd, q, t, l, t', hdelivered, hprogress, -⟩ := hall g hg hfresh
  have hbefore := hdelivered.before_eq
  rw [← hdelivered.rnti_eq, hrnti] at hbefore
  obtain ⟨hcarries, hless⟩ := hprogress (backlog_lostBefore hcells hpass hbefore)
  have hne : g.pdus ≠ [] := hpdus ▸ List.cons_ne_nil _ _
  exact ⟨cells, pass, r, g, hcells, hpass, hadmits, hr, hg, hfresh, hpdus, d, hd, q, t, l, t',
    hdelivered, hcarries.mp hne, hless hne⟩

/-- Behind the block sent again, only the short last group is left for a terminal that asks for
all groups; it is granted a block that carries nothing. -/
theorem last_group_carries_nothing :
    ∃ (cells : CellSet) (pass : CarrierPass) (r : SubframeResult),
      (lostBefore 45 100).Reachable ∧ (lostBefore 45 100).cells = some cells ∧
      cells.passes[0]? = some pass ∧ pass.Admits (Tti.ofNat 8) ∧
      ((lostBefore 45 100).pull (Tti.ofNat 8) 0 10).2.resultOf? 0 = some r ∧
      (r.dl.map fun g ↦ (g.rnti, g.isRetx, g.totalBytes, g.pdus)) =
        [(⟨70⟩, true, 48, []), (⟨71⟩, false, 2, [])] ∧
      ((lostBefore 45 100).terminals.map fun t ↦ (t.rnti, t.downlinkPending)) =
        [(⟨70⟩, 0), (⟨71⟩, 103)] ∧
      (((lostBefore 45 100).pull (Tti.ofNat 8) 0 10).2.terminals.map fun t ↦
        (t.rnti, t.downlinkPending)) = [(⟨70⟩, 0), (⟨71⟩, 103)] := by
  have hpoint : (lostBefore 45 100).passPoint? (.pull (Tti.ofNat 8) 0 10) =
      some (Tti.ofNat 8) := by
    decide +kernel
  obtain ⟨_, _, cells, pass, ⟨⟩, hcells, hpass, hadmits⟩ := exists_of_passPoint? hpoint
  obtain ⟨r, hr, -⟩ := delivers_of_admits (reachable_lostBefore 45 100) hcells hpass hadmits 10
  have hgrants : (((lostBefore 45 100).pull (Tti.ofNat 8) 0 10).2.resultOf? 0).map (fun r ↦
      r.dl.map fun g ↦ (g.rnti, g.isRetx, g.totalBytes, g.pdus)) =
        some [(⟨70⟩, true, 48, []), (⟨71⟩, false, 2, [])] := by
    decide +kernel
  have hbefore : ((lostBefore 45 100).terminals.map fun t ↦ (t.rnti, t.downlinkPending)) =
      [(⟨70⟩, 0), (⟨71⟩, 103)] := by
    decide +kernel
  have hleft : (((lostBefore 45 100).pull (Tti.ofNat 8) 0 10).2.terminals.map fun t ↦
      (t.rnti, t.downlinkPending)) = [(⟨70⟩, 0), (⟨71⟩, 103)] := by
    decide +kernel
  rw [hr, Option.map_some] at hgrants
  exact ⟨cells, pass, r, reachable_lostBefore 45 100, hcells, hpass, hadmits, hr,
    Option.some.inj hgrants, hbefore, hleft⟩

end MacScheduler.Scheduler
