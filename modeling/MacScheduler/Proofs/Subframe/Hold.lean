import MacScheduler.Proofs.Control.Region
import MacScheduler.Proofs.Grid.Prb
import MacScheduler.Proofs.Grid.Rbg
import MacScheduler.Subframe.Plan

/-!
# Resources set aside for retransmissions

The first phase of a plan goes through the terminals and sets resources aside:
whatever it takes was free, has the size of the last allocation, and is recorded
with the terminal it is for.  The second phase keeps what needs no grant message
or got one, and gives the rest back.  A last uplink allocation whose end wraps around
may pass for free while others hold its blocks; the blocks taken are then covered by
what is set aside, and no longer partitioned.
-/

namespace MacScheduler

/-- What the snapshot names ends within the counts: its candidates and the interval of its
uplink retransmission. -/
structure Snapshot.Counted (s : Snapshot) : Prop where
  candidates : s.aggrLevel ≤ maxAggrLevel →
    ∀ first ∈ s.candidates, DciLocation.Counted ⟨first, s.aggrLevel⟩
  uplink : ∀ q, s.ulRetx = some q → q.alloc.Counted

namespace SubframePlan

/-! ## One terminal -/

theorem overlaps_retxMask (used alloc : RbgMask) :
    used.overlaps (retxMask used alloc) = false := by
  unfold retxMask
  split
  · exact used.overlaps_pickFree _
  · rename_i h
    exact Bool.eq_false_iff.mpr h

theorem retxMask_eq_or_ofCarrier (used alloc : RbgMask) :
    retxMask used alloc = alloc ∨ (retxMask used alloc).OfCarrier used.size := by
  unfold retxMask
  split
  · exact .inr (RbgMask.ofCarrier_pickFree rfl _)
  · exact .inl rfl

theorem holdDownlink_cases (h : Holds) (s : Snapshot) :
    holdDownlink h s = h ∨ ∃ retx, s.dlRetx = some retx ∧
      (retxMask h.rbgs retx.alloc).count = retx.alloc.count ∧
      holdDownlink h s = { h with
        rbgs := h.rbgs.union (retxMask h.rbgs retx.alloc)
        dl := h.dl ++ [⟨s.rnti, retx.pid, retxMask h.rbgs retx.alloc⟩]
        requests := h.requests ++ [dciRequest s .downlink] } := by
  unfold holdDownlink
  cases hretx : s.dlRetx with
  | none => exact .inl rfl
  | some retx =>
      by_cases hcount : (retxMask h.rbgs retx.alloc).count = retx.alloc.count
      · exact .inr ⟨retx, rfl, hcount, if_pos hcount⟩
      · exact .inl (if_neg hcount)

/-- An uplink retransmission goes to free blocks, as many as before. -/
theorem of_retxInterval? {used : PrbMap} {alloc interval : PrbInterval} {moved : Bool}
    (h : retxInterval? used alloc = some (interval, moved)) :
    (alloc.Counted → used.Free interval) ∧ interval.len = alloc.len ∧
      (moved = false → interval = alloc) ∧ (moved = true → 0 < interval.len) := by
  unfold retxInterval? at h
  split at h
  · rename_i hfree
    cases h
    exact ⟨fun hcounted ↦ (PrbMap.isFree_iff_free hcounted).mp hfree, rfl, fun _ ↦ rfl, by simp⟩
  · obtain ⟨i, hi, heq⟩ := Option.map_eq_some_iff.mp h
    cases heq
    obtain ⟨hlen, hpos, hfree⟩ := PrbMap.of_findExact hi
    exact ⟨fun _ ↦ hfree, hlen, by simp, fun _ ↦ hlen ▸ hpos⟩

theorem holdUplink_cases (h : Holds) (s : Snapshot) :
    holdUplink h s = h ∨ ∃ retx interval moved, s.ulRetx = some retx ∧
      retxInterval? h.prbs retx.alloc = some (interval, moved) ∧
      holdUplink h s = { h with
        prbs := h.prbs.fill interval
        ul := h.ul ++ [⟨s.rnti, retx.pid, interval, moved⟩]
        requests := if moved then h.requests ++ [dciRequest s .uplink] else h.requests } := by
  unfold holdUplink
  cases hretx : s.ulRetx with
  | none => exact .inl rfl
  | some retx =>
      cases hinterval : retxInterval? h.prbs retx.alloc with
      | none => exact .inl (by simp [hinterval])
      | some found =>
          obtain ⟨interval, moved⟩ := found
          exact .inr ⟨retx, interval, moved, rfl, hinterval, by simp [hinterval]⟩

/-! ## All terminals -/

def edges (p : CellParams) : List PrbInterval :=
  [⟨0, p.puschRegion.start⟩, ⟨p.puschRegion.stop, p.nofPrb - p.puschRegion.stop⟩]

theorem puschRegion_end (p : CellParams) :
    p.puschRegion.start + p.puschRegion.len = p.nofPrb - p.puschRegion.start := by
  have hstart : p.puschRegion.start ≤ p.nofPrb / 2 := Nat.min_le_right _ _
  change p.puschRegion.start + (p.nofPrb - 2 * p.puschRegion.start) = _
  omega

theorem puschRegion_counted {p : CellParams} (hp : p.nofPrb ≤ 128) : p.puschRegion.Counted :=
  PrbInterval.counted_of_le (Nat.le_trans (Nat.le_of_eq (puschRegion_end p)) (Nat.sub_le _ _)) hp

theorem puschRegion_stop {p : CellParams} (hp : p.nofPrb ≤ 128) :
    p.puschRegion.stop = p.nofPrb - p.puschRegion.start :=
  (puschRegion_counted hp).stop_eq.trans (puschRegion_end p)

theorem uplinkMap_partitionedBy {p : CellParams} (hp : p.nofPrb ≤ 128) :
    (uplinkMap p).PartitionedBy (edges p) := by
  have hstart : p.puschRegion.start ≤ p.nofPrb / 2 := Nat.min_le_right _ _
  have hstop := puschRegion_stop hp
  have hlow : (PrbMap.empty p.nofPrb).Free ⟨0, p.puschRegion.start⟩ := by
    refine ⟨?_, fun k _ ↦ PrbMap.taken_empty _ k⟩
    change 0 + p.puschRegion.start ≤ p.nofPrb
    omega
  refine ((PrbMap.PartitionedBy.nil hp).fill hlow).fill ⟨?_, ?_⟩
  · change p.puschRegion.stop + (p.nofPrb - p.puschRegion.stop) ≤ p.nofPrb
    omega
  · rintro k ⟨hk, -⟩
    have hedge : PrbInterval.stop ⟨0, p.puschRegion.start⟩ ≤ 0 + p.puschRegion.start :=
      PrbInterval.stop_le _
    change p.puschRegion.stop ≤ k at hk
    rw [PrbMap.taken_fill, PrbMap.taken_empty, Bool.false_or]
    simp only [Bool.and_eq_false_iff, decide_eq_false_iff_not]
    omega

/-- What is set aside after the downlink of the terminals `dlSeen` and the uplink of
the terminals `ulSeen`. -/
structure Holds.Consistent (p : CellParams) (dlSeen ulSeen : List Snapshot) (h : Holds) :
    Prop where
  rbgs : h.rbgs.PartitionedBy (h.dl.map (·.mask))
  rbgs_size : h.rbgs.size = p.nofRbg
  covered : h.prbs.CoveredBy (edges p ++ h.ul.map (·.interval))
  prbs : (∀ s ∈ ulSeen, s.Counted) → h.prbs.PartitionedBy (edges p ++ h.ul.map (·.interval))
  prbs_size : h.prbs.size = p.nofPrb
  dl_rntis : (h.dl.map (·.rnti)).Sublist ((dlSeen.filter (·.dlRetx.isSome)).map (·.rnti))
  ul_rntis : (h.ul.map (·.rnti)).Sublist ((ulSeen.filter (·.ulRetx.isSome)).map (·.rnti))
  dl_source : ∀ d ∈ h.dl, ∃ s ∈ dlSeen, ∃ retx, s.dlRetx = some retx ∧ d.rnti = s.rnti ∧
    d.pid = retx.pid ∧ d.mask.count = retx.alloc.count ∧
    (d.mask = retx.alloc ∨ d.mask.OfCarrier p.nofRbg)
  ul_source : ∀ u ∈ h.ul, ∃ s ∈ ulSeen, ∃ retx, s.ulRetx = some retx ∧ u.rnti = s.rnti ∧
    u.pid = retx.pid ∧ u.interval.len = retx.alloc.len ∧
    (u.moved = false → u.interval = retx.alloc)
  keys : (h.requests.map DciRequest.key).Perm
    (h.dl.map (fun d ↦ (d.rnti, Direction.downlink)) ++
      (h.ul.filter (·.moved)).map fun u ↦ (u.rnti, Direction.uplink))
  counted : (∀ s ∈ dlSeen, s.Counted) → (∀ s ∈ ulSeen, s.Counted) →
    ∀ q ∈ h.requests, q.Counted

namespace Holds.Consistent

variable {p : CellParams} {dlSeen ulSeen : List Snapshot} {h : Holds}

theorem start {p : CellParams} (hp : p.nofPrb ≤ 128) :
    Holds.Consistent p [] [] ⟨.empty p.nofRbg, uplinkMap p, [], [], []⟩ where
  rbgs := .nil _
  rbgs_size := rfl
  covered := by simpa using (uplinkMap_partitionedBy hp).covered
  prbs := fun _ ↦ by simpa using uplinkMap_partitionedBy hp
  prbs_size := rfl
  dl_rntis := by simp
  ul_rntis := by simp
  dl_source := by simp
  ul_source := by simp
  keys := by simp
  counted := by simp

theorem holdDownlink (hc : h.Consistent p dlSeen ulSeen) (s : Snapshot) :
    (SubframePlan.holdDownlink h s).Consistent p (dlSeen ++ [s]) ulSeen := by
  have hseen : (dlSeen.filter (·.dlRetx.isSome)).map (·.rnti) |>.Sublist
      (((dlSeen ++ [s]).filter (·.dlRetx.isSome)).map (·.rnti)) :=
    ((List.sublist_append_left dlSeen [s]).filter _).map _
  have hsource : ∀ {d : DlHold}, (∃ s ∈ dlSeen, ∃ retx, s.dlRetx = some retx ∧ d.rnti = s.rnti ∧
      d.pid = retx.pid ∧ d.mask.count = retx.alloc.count ∧
      (d.mask = retx.alloc ∨ d.mask.OfCarrier p.nofRbg)) → ∃ t ∈ dlSeen ++ [s], ∃ retx,
        t.dlRetx = some retx ∧ d.rnti = t.rnti ∧ d.pid = retx.pid ∧
        d.mask.count = retx.alloc.count ∧ (d.mask = retx.alloc ∨ d.mask.OfCarrier p.nofRbg) :=
    fun ⟨t, ht, rest⟩ ↦ ⟨t, List.mem_append_left _ ht, rest⟩
  rcases holdDownlink_cases h s with heq | ⟨retx, hretx, hcount, heq⟩
  · rw [heq]
    exact { hc with
      dl_rntis := hc.dl_rntis.trans hseen
      dl_source := fun d hd ↦ hsource (hc.dl_source d hd)
      counted := fun hdl ↦ hc.counted fun t ht ↦ hdl t (List.mem_append_left _ ht) }
  · rw [heq]
    exact {
      rbgs := by
        rw [List.map_append]
        exact hc.rbgs.union (overlaps_retxMask _ _)
      rbgs_size := hc.rbgs_size
      covered := hc.covered
      prbs := hc.prbs
      prbs_size := hc.prbs_size
      dl_rntis := by
        rw [List.map_append, List.filter_append, List.map_append]
        exact hc.dl_rntis.append (by simp [hretx])
      ul_rntis := hc.ul_rntis
      dl_source := by
        intro d hd
        rcases List.mem_append.mp hd with hd | hd
        · exact hsource (hc.dl_source d hd)
        · obtain rfl := List.mem_singleton.mp hd
          refine ⟨s, by simp, retx, hretx, rfl, rfl, hcount, ?_⟩
          rw [← hc.rbgs_size]
          exact retxMask_eq_or_ofCarrier _ _
      ul_source := hc.ul_source
      keys := by
        rw [List.map_append, List.map_append, List.append_assoc]
        apply (hc.keys.append_right _).trans
        rw [List.append_assoc]
        exact List.perm_append_comm.append_left _
      counted := by
        intro hdl hul q hq
        rcases List.mem_append.mp hq with hq | hq
        · exact hc.counted (fun t ht ↦ hdl t (List.mem_append_left _ ht)) hul q hq
        · obtain rfl := List.mem_singleton.mp hq
          exact (hdl s (by simp)).candidates }

theorem holdUplink (hc : h.Consistent p dlSeen ulSeen) (s : Snapshot) :
    (SubframePlan.holdUplink h s).Consistent p dlSeen (ulSeen ++ [s]) := by
  have hseen : (ulSeen.filter (·.ulRetx.isSome)).map (·.rnti) |>.Sublist
      (((ulSeen ++ [s]).filter (·.ulRetx.isSome)).map (·.rnti)) :=
    ((List.sublist_append_left ulSeen [s]).filter _).map _
  have hsource : ∀ {u : UlHold}, (∃ s ∈ ulSeen, ∃ retx, s.ulRetx = some retx ∧ u.rnti = s.rnti ∧
      u.pid = retx.pid ∧ u.interval.len = retx.alloc.len ∧
      (u.moved = false → u.interval = retx.alloc)) → ∃ t ∈ ulSeen ++ [s], ∃ retx,
        t.ulRetx = some retx ∧ u.rnti = t.rnti ∧ u.pid = retx.pid ∧
        u.interval.len = retx.alloc.len ∧ (u.moved = false → u.interval = retx.alloc) :=
    fun ⟨t, ht, rest⟩ ↦ ⟨t, List.mem_append_left _ ht, rest⟩
  rcases holdUplink_cases h s with heq | ⟨retx, interval, moved, hretx, hfound, heq⟩
  · rw [heq]
    exact { hc with
      prbs := fun hcounted ↦ hc.prbs fun t ht ↦ hcounted t (List.mem_append_left _ ht)
      ul_rntis := hc.ul_rntis.trans hseen
      ul_source := fun u hu ↦ hsource (hc.ul_source u hu)
      counted := fun hdl hul ↦ hc.counted hdl fun t ht ↦ hul t (List.mem_append_left _ ht) }
  · obtain ⟨hfree, hlen, hkept, -⟩ := of_retxInterval? hfound
    rw [heq]
    exact {
      rbgs := hc.rbgs
      rbgs_size := hc.rbgs_size
      covered := by
        rw [List.map_append, ← List.append_assoc]
        exact hc.covered.fill interval
      prbs := by
        intro hcounted
        have hs := (hcounted s (by simp)).uplink retx hretx
        rw [List.map_append, ← List.append_assoc]
        exact (hc.prbs fun t ht ↦ hcounted t (List.mem_append_left _ ht)).fill (hfree hs)
      prbs_size := hc.prbs_size
      dl_rntis := hc.dl_rntis
      ul_rntis := by
        rw [List.map_append, List.filter_append, List.map_append]
        exact hc.ul_rntis.append (by simp [hretx])
      dl_source := hc.dl_source
      ul_source := by
        intro u hu
        rcases List.mem_append.mp hu with hu | hu
        · exact hsource (hc.ul_source u hu)
        · obtain rfl := List.mem_singleton.mp hu
          exact ⟨s, by simp, retx, hretx, rfl, rfl, hlen, hkept⟩
      keys := by
        cases moved with
        | false => simpa using hc.keys
        | true =>
            simp only [if_true, List.map_append, List.filter_append]
            rw [← List.append_assoc]
            exact hc.keys.append_right _
      counted := by
        intro hdl hul q hq
        have hseen := hc.counted hdl fun t ht ↦ hul t (List.mem_append_left _ ht)
        cases moved with
        | false => exact hseen q hq
        | true =>
            rcases List.mem_append.mp hq with hq | hq
            · exact hseen q hq
            · obtain rfl := List.mem_singleton.mp hq
              exact (hul s (by simp)).candidates }

theorem holdAll (hc : h.Consistent p dlSeen ulSeen) (snapshots : List Snapshot) :
    (SubframePlan.holdAll h snapshots).Consistent p (dlSeen ++ snapshots)
      (ulSeen ++ snapshots) := by
  induction snapshots generalizing h dlSeen ulSeen with
  | nil => simpa [SubframePlan.holdAll] using hc
  | cons s snapshots ih =>
      have hrest := ih ((hc.holdDownlink s).holdUplink s)
      rw [List.append_assoc, List.append_assoc] at hrest
      exact hrest

/-- Where the last allocations are of the carrier, so is what is set aside. -/
theorem ofCarrier (hc : h.Consistent p dlSeen ulSeen)
    (hdl : ∀ s ∈ dlSeen, ∀ q, s.dlRetx = some q → q.alloc.OfCarrier p.nofRbg) :
    ∀ d ∈ h.dl, d.mask.OfCarrier p.nofRbg := by
  intro d hd
  obtain ⟨s, hs, retx, hretx, -, -, -, hmask⟩ := hc.dl_source d hd
  rcases hmask with hmask | hmask
  · exact hmask ▸ hdl s hs retx hretx
  · exact hmask

end Holds.Consistent

end SubframePlan

end MacScheduler
