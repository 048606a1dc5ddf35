import Mathlib.Algebra.Order.BigOperators.Group.List
import Mathlib.Algebra.Order.Ring.Nat
import MacScheduler.Proofs.Buffer.Fill

/-!
# What a filled block leaves waiting

An empty block leaves the buffers as they were.  A block that carries anything leaves less
waiting than before, and one that has room for all that waits leaves nothing, as long as all
that waits is a count; what is summed up beyond it is not what waits.
-/

namespace MacScheduler

theorem total_eq_sum (ns : List Nat) : total ns = ns.sum := by
  induction ns with
  | nil => rfl
  | cons n ns ih => rw [total_cons, ih, List.sum_cons]

theorem total_lt_total {ι : Type} {is : List ι} {f g : ι → Nat} (hle : ∀ i ∈ is, f i ≤ g i)
    (hlt : ∃ i ∈ is, f i < g i) : total (is.map f) < total (is.map g) := by
  rw [total_eq_sum, total_eq_sum]
  exact List.sum_lt_sum f g hle hlt

theorem total_le_total {ι : Type} {is : List ι} {f g : ι → Nat} (hle : ∀ i ∈ is, f i ≤ g i) :
    total (is.map f) ≤ total (is.map g) := by
  rw [total_eq_sum, total_eq_sum]
  exact List.sum_le_sum hle

namespace Channels

variable {c : Channels} {tbs : Nat}

theorem channels_eq_map (c : Channels) :
    c.channels = (List.range c.channels.length).map c.channel := by
  apply List.ext_getElem
  · rw [List.length_map, List.length_range]
  · intro i hi hi'
    rw [List.getElem_map, List.getElem_range, channel_of_lt hi]

theorem demand_eq (c : Channels) :
    c.demand = total (c.ces.map MacCe.size) +
      total ((List.range c.channels.length).map fun lcid ↦ channelDemand (c.channel lcid)) := by
  have hmap : c.channels.map channelDemand =
      (List.range c.channels.length).map fun lcid ↦ channelDemand (c.channel lcid) := by
    conv_lhs => rw [channels_eq_map c, List.map_map]
    rfl
  rw [demand, hmap]

/-! ## All that waits -/

/-- Bytes that empty a channel, summed up without wrapping around. -/
def channelBacklog (ch : Channel) : Nat := if ch.waiting = 0 then 0 else ch.waiting + rlcSubheader

/-- Bytes that empty all buffers, summed up without wrapping around. -/
def backlog (c : Channels) : Nat :=
  total (c.ces.map MacCe.size) + total (c.channels.map channelBacklog)

theorem waiting_le_channelBacklog (ch : Channel) : ch.waiting ≤ channelBacklog ch := by
  unfold channelBacklog
  split <;> omega

theorem counted_of_backlog (h : c.backlog ≤ maxCount) : c.Counted := by
  intro ch hch
  have hle : channelBacklog ch ≤ total (c.channels.map channelBacklog) :=
    le_total_of_mem (List.mem_map.mpr ⟨ch, hch, rfl⟩)
  have hwaiting := waiting_le_channelBacklog ch
  unfold backlog at h
  exact hwaiting.trans (by omega)

theorem Counted.demand_eq_backlog (hc : c.Counted) : c.demand = c.backlog := by
  have hmap : c.channels.map channelDemand = c.channels.map channelBacklog := by
    refine List.map_congr_left fun ch hch ↦ ?_
    rw [channelDemand, channelBacklog, (hc ch hch).downlinkBytes_eq]
  rw [demand, backlog, hmap]

theorem downlinkPending_eq_backlog (h : c.backlog ≤ maxCount) : c.downlinkPending = c.backlog := by
  have hdemand := (counted_of_backlog h).demand_eq_backlog
  change wrap c.demand = c.backlog
  rw [hdemand, wrap_of_le h]

theorem downlinkPending_eq_zero_iff (h : c.backlog ≤ maxCount) :
    c.downlinkPending = 0 ↔ c.Drained := by
  rw [downlinkPending_eq_backlog h, ← (counted_of_backlog h).demand_eq_backlog,
    demand_eq_zero_iff]

/-- Where no control element is queued, what waits is more than a subheader. -/
theorem subheader_lt_downlinkPending (h : c.backlog ≤ maxCount) (hces : c.ces = [])
    (hpos : 0 < c.downlinkPending) : rlcSubheader < c.downlinkPending := by
  obtain ⟨lcid, hne⟩ : ∃ lcid, (c.channel lcid).downlinkBytes ≠ 0 := by
    by_contra hnone
    have hempty : ∀ lcid, (c.channel lcid).downlinkBytes = 0 := by simpa using hnone
    exact Nat.ne_of_gt hpos (Drained.downlinkPending_eq ⟨hces, hempty⟩)
  have hlt : lcid < c.channels.length := by
    by_contra hge
    rw [channel_of_le (Nat.le_of_not_lt hge)] at hne
    exact hne rfl
  have hle := le_total_of_mem (List.mem_map.mpr ⟨lcid, List.mem_range.mpr hlt, rfl⟩ :
    channelDemand (c.channel lcid) ∈
      (List.range c.channels.length).map fun lcid ↦ channelDemand (c.channel lcid))
  rw [channelDemand_of_pos (Nat.pos_of_ne_zero hne)] at hle
  rw [downlinkPending_eq_backlog h, ← (counted_of_backlog h).demand_eq_backlog, demand_eq]
  omega

theorem length_fill (c : Channels) (tbs : Nat) :
    (c.fill tbs).2.channels.length = c.channels.length := by
  have hlength := congrArg List.length (bearers_fill c tbs)
  rwa [bearers, bearers, List.length_map, List.length_map] at hlength

theorem channelDemand_mono {ch ch' : Channel} (h : ch'.downlinkBytes ≤ ch.downlinkBytes) :
    channelDemand ch' ≤ channelDemand ch := by
  unfold channelDemand
  split <;> split <;> omega

theorem channelDemand_lt {ch ch' : Channel} (h : ch'.downlinkBytes < ch.downlinkBytes) :
    channelDemand ch' < channelDemand ch := by
  unfold channelDemand
  split <;> split <;> omega

namespace Filled

variable {sent : List MacCe} {units : List (Nat × Nat)} {pdus : List DlPdu} {c' : Channels}

theorem downlinkBytes_le (h : Filled c tbs sent units pdus c') (lcid : Nat) :
    (c'.channel lcid).downlinkBytes ≤ (c.channel lcid).downlinkBytes := by
  by_cases hmem : lcid ∈ units.map Prod.fst
  · obtain ⟨⟨_, n⟩, hunit, rfl⟩ := List.mem_map.mp hmem
    have hbytes := (h.sends _ n hunit).2.2.downlinkBytes_add
    dsimp only at hbytes ⊢
    omega
  · exact Nat.le_of_eq (congrArg _ (h.keeps lcid hmem))

theorem total_ces (h : Filled c tbs sent units pdus c') :
    total (c.ces.map MacCe.size) =
      total (sent.map MacCe.size) + total (c'.ces.map MacCe.size) := by
  rw [← h.ces_eq, List.map_append, total_append]

theorem sent_pos (h : sent ≠ []) : 2 ≤ total (sent.map MacCe.size) := by
  obtain ⟨ce, hce⟩ := List.exists_mem_of_ne_nil sent h
  exact le_total_of_mem (List.mem_map.mpr ⟨ce, hce, rfl⟩)

theorem roomFor_pos (h : Filled c tbs sent units pdus c') (hne : units ≠ []) :
    rlcSubheader < roomFor units := by
  obtain ⟨u, hu⟩ := List.exists_mem_of_ne_nil units hne
  have hpos := (h.sends u.1 u.2 hu).2.1
  have hle : (rlcPdu u).size ≤ roomFor units :=
    le_total_of_mem (List.mem_map.mpr ⟨_, List.mem_map.mpr ⟨u, hu, rfl⟩, rfl⟩)
  have hsize : (rlcPdu u).size = u.2 + rlcSubheader := rfl
  omega

end Filled

/-- A block that carries anything leaves a smaller demand. -/
theorem demand_fill_lt (hc : c.Counted) (h : (c.fill tbs).1 ≠ []) :
    (c.fill tbs).2.demand < c.demand := by
  obtain ⟨sent, units, hfilled⟩ := exists_filled hc tbs
  rw [demand_eq, demand_eq, length_fill]
  have hces := hfilled.total_ces
  have hdemand : ∀ lcid ∈ List.range c.channels.length,
      channelDemand ((c.fill tbs).2.channel lcid) ≤ channelDemand (c.channel lcid) :=
    fun lcid _ ↦ channelDemand_mono (hfilled.downlinkBytes_le lcid)
  by_cases hsent : sent = []
  · have hunits : units ≠ [] := by
      rintro rfl
      exact h (hfilled.pdus_eq.trans (by rw [hsent]; rfl))
    obtain ⟨⟨lcid, n⟩, hu⟩ := List.exists_mem_of_ne_nil units hunits
    obtain ⟨hdownlink, hpos, hsends⟩ := hfilled.sends lcid n hu
    have hbytes := hsends.downlinkBytes_add
    have hlt : lcid < c.channels.length := by
      by_contra hge
      have hnone := bearer_of_le (Nat.le_of_not_lt hge)
      rw [Channel.hasDownlink, hnone] at hdownlink
      cases hdownlink
    have hless := total_lt_total hdemand
      ⟨lcid, List.mem_range.mpr hlt, channelDemand_lt (by omega)⟩
    omega
  · have hpos := Filled.sent_pos hsent
    have hless := total_le_total hdemand
    omega

/-- A block that carries anything leaves less waiting. -/
theorem downlinkPending_fill_lt (h : c.backlog ≤ maxCount) (hpdus : (c.fill tbs).1 ≠ []) :
    (c.fill tbs).2.downlinkPending < c.downlinkPending := by
  have hc := counted_of_backlog h
  rw [downlinkPending_eq_backlog h, ← hc.demand_eq_backlog]
  exact Nat.lt_of_le_of_lt (wrap_le_self _) (demand_fill_lt hc hpdus)

theorem serve_of_nil {room : Nat} {lcids : List Nat} (h : (c.serve room lcids).1 = []) :
    (c.serve room lcids).2 = c := by
  cases lcids with
  | nil => rfl
  | cons lcid lcids =>
      rcases Nat.lt_or_ge rlcSubheader room with hroom | hroom
      · rw [serve_cons hroom] at h
        cases h
      · rw [serve, if_pos hroom]

/-- An empty block leaves the buffers as they are. -/
theorem fill_of_nil (h : (c.fill tbs).1 = []) : (c.fill tbs).2 = c := by
  obtain ⟨hsent, hserved⟩ := List.append_eq_nil_iff.mp h
  have hces := takeCes_append tbs c.ces
  rw [List.map_eq_nil_iff.mp hsent, List.nil_append] at hces
  refine (serve_of_nil hserved).trans ?_
  rw [hces]

theorem fill_ne_nil_of_ces (hroom : 2 ≤ tbs) (hces : c.ces ≠ []) : (c.fill tbs).1 ≠ [] := by
  obtain ⟨ce, ces, hcons⟩ := List.exists_cons_of_ne_nil hces
  have hfits : ¬tbs < ce.size := Nat.not_lt_of_le hroom
  rw [fill, hcons, takeCes, if_neg hfits]
  exact List.cons_ne_nil _ _

/-- A block is empty where no element and no byte of a channel fits, or where nothing waits. -/
theorem fill_eq_nil_iff (hc : c.Counted) : (c.fill tbs).1 = [] ↔
    tbs < 2 ∨ c.ces = [] ∧ (tbs ≤ rlcSubheader ∨ c.Drained) := by
  obtain ⟨sent, units, hfilled⟩ := exists_filled hc tbs
  constructor
  · intro hnil
    rcases Nat.lt_or_ge tbs 2 with hlt | hge
    · exact .inl hlt
    · have hleft := leftover_fill hc tbs
      rw [fill_of_nil hnil, hnil] at hleft
      exact .inr ⟨by_contra fun hces ↦ fill_ne_nil_of_ces hge hces hnil,
        hleft.symm.imp_left fun h ↦ h.trans_eq (Nat.zero_add rlcSubheader)⟩
  · intro h
    have hsize := hfilled.size_le
    rw [hfilled.pdus_eq, total_size_pdus] at hsize
    have hsub : rlcSubheader = 3 := rfl
    have hsent : sent = [] := by
      by_contra hne
      have hpos := Filled.sent_pos hne
      rcases h with hlt | ⟨hces, -⟩
      · omega
      · exact hne (List.append_eq_nil_iff.mp (hfilled.ces_eq.trans hces)).1
    have hunits : units = [] := by
      by_contra hne
      have hpos := hfilled.roomFor_pos hne
      rcases h with hlt | ⟨-, hle | hdrained⟩
      · omega
      · omega
      · obtain ⟨⟨lcid, n⟩, hu⟩ := List.exists_mem_of_ne_nil units hne
        obtain ⟨-, hn, hsends⟩ := hfilled.sends lcid n hu
        have hbytes := hsends.downlinkBytes_add
        have hempty := hdrained.2 lcid
        omega
    rw [hfilled.pdus_eq, hsent, hunits]
    rfl

/-! ## Room for all that waits -/

theorem total_serviceOrder_le (c : Channels) :
    total (c.serviceOrder.map fun lcid ↦ channelDemand (c.channel lcid)) ≤
      total ((List.range c.channels.length).map fun lcid ↦ channelDemand (c.channel lcid)) := by
  have hperm := (List.mergeSort_perm ((List.range c.channels.length).filter fun lcid ↦
    decide (0 < (c.channel lcid).downlinkBytes)) c.servedBefore).map
      fun lcid ↦ channelDemand (c.channel lcid)
  have hsplit := total_filter_add (fun lcid ↦ decide (0 < (c.channel lcid).downlinkBytes))
    (fun lcid ↦ channelDemand (c.channel lcid)) (List.range c.channels.length)
  rw [total_eq_sum, serviceOrder, hperm.sum_eq, ← total_eq_sum, ← hsplit]
  exact Nat.le_add_right _ _

/-- A block with room for all that waits empties the buffers. -/
theorem downlinkPending_fill_eq_zero (h : c.backlog ≤ maxCount) (hroom : c.downlinkPending ≤ tbs) :
    (c.fill tbs).2.downlinkPending = 0 := by
  have hc := counted_of_backlog h
  obtain ⟨units, -, hserved⟩ := served_fill hc tbs
  obtain ⟨htaken, hleft⟩ := takeCes_spec tbs c.ces
  have hces := congrArg (fun ces ↦ total (ces.map MacCe.size)) (takeCes_append tbs c.ces)
  rw [List.map_append, total_append] at hces
  rw [downlinkPending_eq_backlog h, ← hc.demand_eq_backlog, demand_eq] at hroom
  have horder := total_serviceOrder_le c
  have hnil : (takeCes tbs c.ces).2.2 = [] := by
    refine hleft.elim id fun hlt ↦ by_contra fun hne ↦ ?_
    have hpos := Filled.sent_pos hne
    omega
  rw [hnil, List.map_nil, total_nil] at hces
  refine (drained_fill hc hnil (hserved.ample ?_)).downlinkPending_eq
  refine horder.trans ?_
  omega

end Channels

end MacScheduler
