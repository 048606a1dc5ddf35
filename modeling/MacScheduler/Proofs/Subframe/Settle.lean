import MacScheduler.Proofs.Subframe.Hold
import Mathlib.Data.List.Nodup

/-!
# Retransmissions that stay in the plan

The batch answers every request once, so a terminal and direction name one
answer.  The retransmissions that stay are those whose answer, where they need
one, is a place; the resources of the others are free again.
-/

namespace MacScheduler

open ControlRegion

def DlPlan.message (d : DlPlan) : DciAlloc := ⟨d.rnti, .downlink, d.dci⟩

def UlPlan.message? (u : UlPlan) : Option DciAlloc := u.dci.map fun dci ↦ ⟨u.rnti, .uplink, dci⟩

namespace SubframePlan

variable {placed : List (DciRequest × Option DciLocation)}

/-! ## Answers of a batch -/

def messageFor (placed : List (DciRequest × Option DciLocation)) (key : Rnti × Direction) :
    Option DciAlloc :=
  (placedFor placed key.1 key.2).map fun loc ↦ ⟨key.1, key.2, loc⟩

theorem placedFor_cons (answer : DciRequest × Option DciLocation) (key : Rnti × Direction) :
    placedFor (answer :: placed) key.1 key.2 =
      if answer.1.key = key then answer.2 else placedFor placed key.1 key.2 := by
  obtain ⟨rnti, dir⟩ := key
  by_cases hk : answer.1.rnti = rnti ∧ answer.1.dir = dir
  · simp [placedFor, DciRequest.key, hk]
  · simp only [placedFor, DciRequest.key, Prod.mk.injEq, if_neg hk]
    rw [List.find?_cons_of_neg]
    simpa using hk

/-- Where no two requests are for the same terminal and direction, the answer
found for a request is its own. -/
theorem placedFor_of_mem (hkeys : (placed.map (·.1.key)).Nodup)
    {answer : DciRequest × Option DciLocation} (h : answer ∈ placed) :
    placedFor placed answer.1.rnti answer.1.dir = answer.2 := by
  induction placed with
  | nil => cases h
  | cons other placed ih =>
      obtain ⟨hother, hrest⟩ := List.nodup_cons.mp hkeys
      change placedFor (other :: placed) answer.1.key.1 answer.1.key.2 = _
      rw [placedFor_cons]
      rcases List.mem_cons.mp h with rfl | h
      · exact if_pos rfl
      · have hne : other.1.key ≠ answer.1.key := fun heq ↦
          hother (List.mem_map.mpr ⟨answer, h, heq.symm⟩)
        rw [if_neg hne]
        exact ih hrest h

theorem filterMap_placedAlloc? (hkeys : (placed.map (·.1.key)).Nodup) :
    placed.filterMap placedAlloc? = (placed.map (·.1.key)).filterMap (messageFor placed) := by
  rw [List.filterMap_map]
  apply List.filterMap_congr
  intro answer h
  simp only [Function.comp_apply, messageFor, placedAlloc?, DciRequest.key]
  rw [placedFor_of_mem hkeys h]

/-! ## What stays -/

/-- The plan of a downlink hold whose request was answered with a place. -/
def DlHold.plan? (placed : List (DciRequest × Option DciLocation)) (h : DlHold) : Option DlPlan :=
  (placedFor placed h.rnti .downlink).map fun dci ↦ ⟨h.rnti, h.pid, h.mask, dci⟩

/-- The plan of an uplink hold that was not moved or was answered with a place. -/
def UlHold.plan? (placed : List (DciRequest × Option DciLocation)) (h : UlHold) : Option UlPlan :=
  if h.moved then
    (placedFor placed h.rnti .uplink).map fun dci ↦ ⟨h.rnti, h.pid, h.interval, some dci⟩
  else some ⟨h.rnti, h.pid, h.interval, none⟩

theorem settleDownlink_fst (rbgs : RbgMask) (holds : List DlHold) :
    (settleDownlink placed rbgs holds).1 = holds.filterMap (DlHold.plan? placed) := by
  induction holds generalizing rbgs with
  | nil => rfl
  | cons h holds ih =>
      rw [List.filterMap_cons, settleDownlink, DlHold.plan?]
      cases hplaced : placedFor placed h.rnti .downlink with
      | none => exact ih _
      | some dci => exact congrArg (_ :: ·) (ih _)

theorem settleUplink_fst (prbs : PrbMap) (holds : List UlHold) :
    (settleUplink placed prbs holds).1 = holds.filterMap (UlHold.plan? placed) := by
  induction holds generalizing prbs with
  | nil => rfl
  | cons h holds ih =>
      rw [List.filterMap_cons, settleUplink, UlHold.plan?]
      by_cases hmoved : h.moved = true
      · rw [if_pos hmoved, if_pos hmoved]
        cases hplaced : placedFor placed h.rnti .uplink with
        | none => exact ih _
        | some dci => exact congrArg (_ :: ·) (ih _)
      · rw [if_neg hmoved, if_neg hmoved]
        exact congrArg (_ :: ·) (ih _)

theorem settleDownlink_partitionedBy {rbgs : RbgMask} {kept : List RbgMask}
    {holds : List DlHold} (h : rbgs.PartitionedBy (kept ++ holds.map (·.mask))) :
    (settleDownlink placed rbgs holds).2.PartitionedBy
      (kept ++ (settleDownlink placed rbgs holds).1.map (·.mask)) := by
  induction holds generalizing rbgs kept with
  | nil => exact h
  | cons d holds ih =>
      rw [settleDownlink]
      cases hplaced : placedFor placed d.rnti .downlink with
      | none => exact ih h.diff
      | some dci =>
          have hnext : rbgs.PartitionedBy ((kept ++ [d.mask]) ++ holds.map (·.mask)) := by
            simpa using h
          simpa using ih hnext

/-- What a map keeps when an interval is given back holds of the map and the intervals after
settling. -/
theorem settleUplink_keeps {P : PrbMap → List PrbInterval → Prop}
    (hclear : ∀ {prbs : PrbMap} {before after : List PrbInterval} {i : PrbInterval},
      P prbs (before ++ i :: after) → P (prbs.clear i) (before ++ after))
    {prbs : PrbMap} {kept : List PrbInterval} {holds : List UlHold}
    (h : P prbs (kept ++ holds.map (·.interval))) :
    P (settleUplink placed prbs holds).2
      (kept ++ (settleUplink placed prbs holds).1.map (·.interval)) := by
  induction holds generalizing prbs kept with
  | nil => exact h
  | cons u holds ih =>
      have hnext : P prbs ((kept ++ [u.interval]) ++ holds.map (·.interval)) := by
        simpa using h
      rw [settleUplink]
      by_cases hmoved : u.moved = true
      · rw [if_pos hmoved]
        cases hplaced : placedFor placed u.rnti .uplink with
        | none => exact ih (hclear h)
        | some dci => simpa using ih hnext
      · rw [if_neg hmoved]
        simpa using ih hnext

theorem size_settleDownlink (rbgs : RbgMask) (holds : List DlHold) :
    (settleDownlink placed rbgs holds).2.size = rbgs.size := by
  induction holds generalizing rbgs with
  | nil => rfl
  | cons h holds ih =>
      rw [settleDownlink]
      cases hplaced : placedFor placed h.rnti .downlink with
      | none => exact ih _
      | some dci => exact ih _

theorem size_settleUplink (prbs : PrbMap) (holds : List UlHold) :
    (settleUplink placed prbs holds).2.size = prbs.size := by
  induction holds generalizing prbs with
  | nil => rfl
  | cons h holds ih =>
      rw [settleUplink]
      by_cases hmoved : h.moved = true
      · rw [if_pos hmoved]
        cases hplaced : placedFor placed h.rnti .uplink with
        | none => exact ih _
        | some dci => exact ih _
      · rw [if_neg hmoved]
        exact ih _

theorem of_dlPlan? {h : DlHold} {d : DlPlan} (hd : DlHold.plan? placed h = some d) :
    d.rnti = h.rnti ∧ d.pid = h.pid ∧ d.mask = h.mask ∧
      placedFor placed h.rnti .downlink = some d.dci := by
  obtain ⟨dci, hdci, rfl⟩ := Option.map_eq_some_iff.mp hd
  exact ⟨rfl, rfl, rfl, hdci⟩

theorem of_ulPlan? {h : UlHold} {u : UlPlan} (hu : UlHold.plan? placed h = some u) :
    u.rnti = h.rnti ∧ u.pid = h.pid ∧ u.interval = h.interval ∧
      (h.moved = false → u.dci = none) := by
  unfold UlHold.plan? at hu
  split at hu
  · rename_i hmoved
    obtain ⟨dci, -, rfl⟩ := Option.map_eq_some_iff.mp hu
    exact ⟨rfl, rfl, rfl, by simp [hmoved]⟩
  · cases hu
    exact ⟨rfl, rfl, rfl, fun _ ↦ rfl⟩

theorem sublist_map_filterMap {β γ δ : Type} {f : β → Option γ} {g : γ → δ} {k : β → δ}
    (hf : ∀ b c, f b = some c → g c = k b) (l : List β) :
    ((l.filterMap f).map g).Sublist (l.map k) := by
  induction l with
  | nil => exact List.Sublist.slnil
  | cons b l ih =>
      cases hb : f b with
      | none =>
          rw [List.filterMap_cons_none hb]
          exact ih.trans (List.sublist_cons_self _ _)
      | some c =>
          rw [List.filterMap_cons_some hb, List.map_cons, List.map_cons, hf b c hb]
          exact ih.cons_cons _

/-! ## The messages of what stays -/

theorem filterMap_message_dl (holds : List DlHold) :
    (holds.filterMap (DlHold.plan? placed)).map DlPlan.message =
      (holds.map fun h ↦ (h.rnti, Direction.downlink)).filterMap (messageFor placed) := by
  rw [List.map_filterMap, List.filterMap_map]
  apply List.filterMap_congr
  intro h _
  simp only [DlHold.plan?, messageFor, Option.map_map, Function.comp_apply]
  rfl

theorem filterMap_message_ul (holds : List UlHold) :
    (holds.filterMap (UlHold.plan? placed)).filterMap UlPlan.message? =
      ((holds.filter (·.moved)).map fun h ↦ (h.rnti, Direction.uplink)).filterMap
        (messageFor placed) := by
  induction holds with
  | nil => rfl
  | cons h holds ih =>
      by_cases hmoved : h.moved = true
      · rw [List.filter_cons_of_pos hmoved, List.map_cons, List.filterMap_cons,
          List.filterMap_cons, ← ih, UlHold.plan?, if_pos hmoved, messageFor]
        cases placedFor placed h.rnti .uplink <;> rfl
      · rw [List.filter_cons_of_neg hmoved, List.filterMap_cons, ← ih, UlHold.plan?,
          if_neg hmoved]
        rfl

theorem nodup_keys {β : Type} {rnti : β → Rnti} {l : List β} (h : (l.map rnti).Nodup)
    (dir : Direction) : (l.map fun x ↦ (rnti x, dir)).Nodup := by
  have hmap : ((l.map rnti).map (·, dir)).Nodup := h.map fun a b hab ↦ (Prod.mk.inj hab).1
  rwa [List.map_map] at hmap

theorem keys_allocBatch {p : CellParams} {dlSeen ulSeen : List Snapshot} {h : Holds}
    (hc : h.Consistent p dlSeen ulSeen) (size : Nat) :
    (((ControlRegion.empty size).allocBatch h.requests).1.map (·.1.key)).Perm
      (h.dl.map (fun d ↦ (d.rnti, Direction.downlink)) ++
        (h.ul.filter (·.moved)).map fun u ↦ (u.rnti, Direction.uplink)) := by
  have hfst : ((ControlRegion.empty size).allocBatch h.requests).1.map (·.1.key) =
      (h.requests.mergeSort servedBefore).map DciRequest.key := by
    rw [← allocAll_fst (ControlRegion.empty size) (h.requests.mergeSort servedBefore),
      List.map_map]
    rfl
  rw [hfst]
  exact ((List.mergeSort_perm h.requests servedBefore).map _).trans hc.keys

theorem nodup_keys_allocBatch {p : CellParams} {dlSeen ulSeen : List Snapshot} {h : Holds}
    (hc : h.Consistent p dlSeen ulSeen) (hdl : (dlSeen.map (·.rnti)).Nodup)
    (hul : (ulSeen.map (·.rnti)).Nodup) (size : Nat) :
    (((ControlRegion.empty size).allocBatch h.requests).1.map (·.1.key)).Nodup := by
  have hdlNodup : (h.dl.map (fun d ↦ (d.rnti, Direction.downlink))).Nodup :=
    nodup_keys (hdl.sublist (hc.dl_rntis.trans (List.filter_sublist.map _))) .downlink
  have hulNodup : ((h.ul.filter (·.moved)).map (fun u ↦ (u.rnti, Direction.uplink))).Nodup :=
    nodup_keys (hul.sublist ((List.filter_sublist.map _).trans
      (hc.ul_rntis.trans (List.filter_sublist.map _)))) .uplink
  refine (keys_allocBatch hc size).nodup_iff.mpr (List.nodup_append.mpr ⟨hdlNodup, hulNodup, ?_⟩)
  intro a ha b hb hab
  obtain ⟨d, -, rfl⟩ := List.mem_map.mp ha
  obtain ⟨u, -, rfl⟩ := List.mem_map.mp hb
  exact absurd (Prod.mk.inj hab).2 (by decide)

/-- The messages that a batch places are those of the retransmissions that stay. -/
theorem allocBatch_allocs {p : CellParams} {dlSeen ulSeen : List Snapshot} {h : Holds}
    (hc : h.Consistent p dlSeen ulSeen) (hdl : (dlSeen.map (·.rnti)).Nodup)
    (hul : (ulSeen.map (·.rnti)).Nodup) (size : Nat)
    (hplaced : placed = ((ControlRegion.empty size).allocBatch h.requests).1) :
    ((ControlRegion.empty size).allocBatch h.requests).2.allocs.Perm
      ((h.dl.filterMap (DlHold.plan? placed)).map DlPlan.message ++
        (h.ul.filterMap (UlHold.plan? placed)).filterMap UlPlan.message?) := by
  have hkeys : (placed.map (·.1.key)).Nodup := hplaced ▸ nodup_keys_allocBatch hc hdl hul size
  have hallocs : ((ControlRegion.empty size).allocBatch h.requests).2.allocs =
      placed.filterMap placedAlloc? := by
    rw [hplaced]
    exact allocAll_allocs _ _
  rw [hallocs, filterMap_placedAlloc? hkeys, filterMap_message_dl, filterMap_message_ul,
    ← List.filterMap_append, hplaced]
  exact (keys_allocBatch hc size).filterMap _

end SubframePlan

end MacScheduler
