import MacScheduler.Proofs.Harq.Chain

/-!
# Transmissions of a table

What each operation sends from a slot, read off its answer.  In a run that keeps
pace, the transmissions of every slot are chains: retransmissions one round trip
apart, as many as are allowed, and a new-data indicator that toggles from one
chain to the next, even when the table is reset in between.
-/

namespace MacScheduler.HarqTable

variable {α : Type}

def txAt (h : HarqTable α) (pid : Nat) : Option Tti := (h.get? pid).bind (·.txTti)

/-- What an operation sends from slot `tb` of process `pid`. -/
def sentAt (h : HarqTable α) (pid tb : Nat) (op : HarqOp α) : Option Sent :=
  match op, (h.perform op).1 with
  | .newTx k t _ _, .started (.ok grants) => if k = pid then grants[tb]?.map (Sent.mk t) else none
  | .newRetx k t _, .resent (.ok grants) =>
      if k = pid then
        (((h.get? pid).bind (·.retxIndex? tb)).bind (grants[·]?)).map (Sent.mk t)
      else none
  | _, _ => none

def transmissions (h : HarqTable α) (pid tb : Nat) : List (HarqOp α) → List Sent
  | [] => []
  | op :: ops => (h.sentAt pid tb op).toList ++ (h.perform op).2.transmissions pid tb ops

variable {h : HarqTable α}

theorem of_slot? {pid tb : Nat} {b : TbSlot} (hb : h.slot? pid tb = some b) :
    ∃ p, h.get? pid = some p ∧ p.slots[tb]? = some b := Option.bind_eq_some_iff.mp hb

theorem txAt_eq {pid : Nat} {p : HarqProcess α} (hp : h.get? pid = some p) :
    h.txAt pid = p.txTti := by
  simp [txAt, hp]

theorem txAt_put_self {pid : Nat} {p : HarqProcess α} (hp : h.get? pid = some p)
    (q : HarqProcess α) : (h.put pid q).txAt pid = q.txTti := by
  have hlt : pid < h.nofProcs := (List.getElem?_eq_some_iff.mp hp).1
  exact txAt_eq (by rw [get?_put, if_pos ⟨rfl, hlt⟩])

theorem txAt_put_of_ne {pid k : Nat} (hk : pid ≠ k) (q : HarqProcess α) :
    (h.put pid q).txAt k = h.txAt k := by
  unfold txAt
  rw [get?_put, if_neg fun hand ↦ hk hand.1]

theorem move_put_of_ne {pid tb k : Nat} {b : TbSlot} (hk : k ≠ pid) (hb : h.slot? pid tb = some b)
    (q : HarqProcess α) :
    ∃ b', (h.put k q).slot? pid tb = some b' ∧
      SlotMove h.roundTrip h.maxRetx (h.txAt pid) b ((h.put k q).txAt pid) b' none := by
  rw [slot?_put_of_ne hk, txAt_put_of_ne hk]
  exact ⟨b, hb, .same _ b⟩

/-- A slot makes one move in an operation, together with what the operation sends from it. -/
def MovesIn (h : HarqTable α) (pid tb : Nat) (b : TbSlot) (op : HarqOp α) : Prop :=
  ∃ b', (h.perform op).2.slot? pid tb = some b' ∧
    SlotMove h.roundTrip h.maxRetx (h.txAt pid) b ((h.perform op).2.txAt pid) b'
      (h.sentAt pid tb op)

variable {pid tb : Nat} {b : TbSlot}

theorem movesIn_advance (hs : h.Sound) (hb : h.slot? pid tb = some b) (t : Tti) :
    h.MovesIn pid tb b (.advance t) := by
  unfold MovesIn
  obtain ⟨p, hp, hslot⟩ := of_slot? hb
  rcases h.advance_cases t with ⟨-, heq⟩ | ⟨-, heq⟩
  · simp only [sentAt, perform, heq]
    exact ⟨b, hb, .same _ b⟩
  · have hget : (h.perform (.advance t)).2.get? pid =
        some (p.advance t h.roundTrip h.maxRetx).1 := by
      simp only [perform, heq, get?, List.getElem?_map, show h.procs[pid]? = some p from hp,
        Option.map_some]
    rw [slot?_eq hget, txAt_eq hget, txAt_eq hp]
    exact HarqProcess.move_advance (hs.of_get? hp).1 t h.roundTrip h.maxRetx hslot

theorem movesIn_newTx (hb : h.slot? pid tb = some b) (k : Nat) (t : Tti)
    (sizes : List (Nat × Nat)) (alloc : α) : h.MovesIn pid tb b (.newTx k t sizes alloc) := by
  unfold MovesIn
  rcases h.newTx_cases k t sizes alloc with ⟨e, heq⟩ | ⟨q, hq, hempty, -, heq⟩
  · simp only [sentAt, perform, heq]
    exact ⟨b, hb, .same _ b⟩
  · simp only [sentAt, perform, heq]
    by_cases hk : k = pid
    · subst hk
      have hslot : q.slots[tb]? = some b := (slot?_eq hq tb).symm.trans hb
      rw [slot?_put_self hq, txAt_put_self hq, txAt_eq hq, if_pos rfl]
      exact HarqProcess.move_start hempty h.roundTrip h.maxRetx t sizes alloc hslot
    · rw [if_neg hk]
      exact move_put_of_ne hk hb _

theorem movesIn_newRetx {t : Tti} (ht : h.TimelyAt t) (hr : h.roundTrip ≤ 5119)
    (hb : h.slot? pid tb = some b) (k : Nat) (alloc : α) :
    h.MovesIn pid tb b (.newRetx k t alloc) := by
  unfold MovesIn
  rcases h.newRetx_cases k t alloc with ⟨e, heq⟩ | ⟨q, hq, hdue, heq⟩
  · simp only [sentAt, perform, heq]
    exact ⟨b, hb, .same _ b⟩
  · simp only [sentAt, perform, heq]
    by_cases hk : k = pid
    · subst hk
      have hslot : q.slots[tb]? = some b := (slot?_eq hq tb).symm.trans hb
      rw [slot?_put_self hq, txAt_put_self hq, txAt_eq hq, if_pos rfl, hq, Option.bind_some]
      obtain ⟨tx, elapsed, hflight⟩ := ht.inFlight_of_hasPendingRetx hq hdue
      exact HarqProcess.move_resend (ht.sound.of_get? hq).1 hflight hr hdue h.maxRetx alloc hslot
    · rw [if_neg hk]
      exact move_put_of_ne hk hb _

theorem movesIn_setAck (hs : h.Sound) (hb : h.slot? pid tb = some b) (k i : Nat) (ack : Bool) :
    h.MovesIn pid tb b (.setAck k i ack) := by
  unfold MovesIn
  rcases h.setAck_cases k i ack with ⟨e, heq⟩ | ⟨q, hq, heq⟩
  · simp only [sentAt, perform, heq]
    exact ⟨b, hb, .same _ b⟩
  · have hsent : h.sentAt pid tb (.setAck k i ack) = none := by simp only [sentAt]
    have hafter : (h.perform (.setAck k i ack)).2.slot? pid tb =
        (h.put k (q.feedback i ack h.roundTrip h.maxRetx).2.1).slot? pid tb ∧
      (h.perform (.setAck k i ack)).2.txAt pid =
        (h.put k (q.feedback i ack h.roundTrip h.maxRetx).2.1).txAt pid := by
      simp only [perform, heq]
      exact ⟨rfl, rfl⟩
    rw [hafter.1, hafter.2, hsent]
    by_cases hk : k = pid
    · subst hk
      have hslot : q.slots[tb]? = some b := (slot?_eq hq tb).symm.trans hb
      rw [slot?_put_self hq, txAt_put_self hq, txAt_eq hq]
      exact HarqProcess.move_feedback (hs.of_get? hq).1 i ack h.roundTrip h.maxRetx hslot
    · exact move_put_of_ne hk hb _

theorem movesIn_reset (hb : h.slot? pid tb = some b) : h.MovesIn pid tb b .reset := by
  unfold MovesIn
  obtain ⟨p, hp, hslot⟩ := of_slot? hb
  have hget : (h.perform .reset).2.get? pid = some p.reset := by
    simp only [perform, reset, get?, List.getElem?_map, show h.procs[pid]? = some p from hp,
      Option.map_some]
  rw [slot?_eq hget]
  refine ⟨b.reset, ?_, .empty rfl rfl⟩
  simp only [HarqProcess.reset, List.getElem?_map, hslot, Option.map_some]

theorem move_perform (ht : h.Timely) (hr : h.roundTrip ≤ 5119) {op : HarqOp α}
    (hop : op.KeepsPace h.roundTrip h.lastTti) (hb : h.slot? pid tb = some b) :
    h.MovesIn pid tb b op := by
  cases op with
  | advance t => exact movesIn_advance ht.sound hb t
  | newTx k t sizes alloc => exact movesIn_newTx hb k t sizes alloc
  | newRetx k t alloc => exact movesIn_newRetx (ht t (.inr hop)) hr hb k alloc
  | setAck k i ack => exact movesIn_setAck ht.sound hb k i ack
  | takeDropped => exact ⟨b, hb, .same _ b⟩
  | reset => exact movesIn_reset hb

theorem follows_run {ops : List (HarqOp α)} (ht : h.Timely) (hpos : 0 < h.roundTrip)
    (hr : h.roundTrip ≤ 5119) (hpaced : Paced h.roundTrip h.lastTti ops) {pid tb : Nat}
    {b : TbSlot} (hb : h.slot? pid tb = some b) {history : List Sent} {chains : List Chain}
    (hf : Follows h.roundTrip h.maxRetx history chains (h.txAt pid) b) :
    ∃ chains' tx b', Follows h.roundTrip h.maxRetx (history ++ h.transmissions pid tb ops)
      chains' tx b' := by
  induction ops generalizing h history chains b with
  | nil => exact ⟨chains, _, b, by simpa [transmissions] using hf⟩
  | cons op ops ih =>
      obtain ⟨hop, hrest⟩ := hpaced
      obtain ⟨hround, hmax⟩ := h.perform_bounds op
      obtain ⟨b', hb', hmove⟩ := move_perform ht hr hop hb
      obtain ⟨chains', hf'⟩ := hf.step hmove
      have htail := @ih (h.perform op).2 (ht.perform hpos hr hop)
      rw [hround, hmax, lastTti_perform hpos hop] at htail
      obtain ⟨chains'', tx, b'', hf''⟩ := htail hpos hr hrest hb' hf'
      exact ⟨chains'', tx, b'', by simpa [transmissions, List.append_assoc] using hf''⟩

/-! ## Slots that a table does not have -/

theorem slot?_put_eq_none {pid tb k : Nat} {p q : HarqProcess α} (hp : h.get? k = some p)
    (hlen : q.slots.length = p.slots.length) (hnone : h.slot? pid tb = none) :
    (h.put k q).slot? pid tb = none := by
  by_cases hk : k = pid
  · subst hk
    rw [slot?_eq hp] at hnone
    rw [slot?_put_self hp]
    have hge := List.getElem?_eq_none_iff.mp hnone
    exact List.getElem?_eq_none (by omega)
  · rw [slot?_put_of_ne hk, hnone]

theorem slot?_map_eq_none {f : HarqProcess α → HarqProcess α}
    (hf : ∀ p, (f p).slots.length = p.slots.length) {g : HarqTable α}
    (hg : g.procs = h.procs.map f) {pid tb : Nat} (hnone : h.slot? pid tb = none) :
    g.slot? pid tb = none := by
  unfold slot? get? at hnone ⊢
  rw [hg, List.getElem?_map]
  cases hp : h.procs[pid]? with
  | none => rfl
  | some p =>
      rw [hp, Option.bind_some] at hnone
      have hge := List.getElem?_eq_none_iff.mp hnone
      have hlen := hf p
      rw [Option.map_some, Option.bind_some]
      exact List.getElem?_eq_none (by omega)

theorem sentAt_of_none {pid tb : Nat} (hnone : h.slot? pid tb = none) (op : HarqOp α) :
    h.sentAt pid tb op = none ∧ (h.perform op).2.slot? pid tb = none := by
  cases op with
  | advance t =>
      constructor
      · rfl
      · rcases h.advance_cases t with ⟨-, heq⟩ | ⟨-, heq⟩
        · simpa only [perform, heq] using hnone
        · simp only [perform, heq]
          exact slot?_map_eq_none (fun p ↦ p.length_advance t h.roundTrip h.maxRetx) rfl hnone
  | newTx k t sizes alloc =>
      rcases h.newTx_cases k t sizes alloc with ⟨e, heq⟩ | ⟨p, hp, -, -, heq⟩
      · simpa only [sentAt, perform, heq, true_and] using hnone
      · simp only [sentAt, perform, heq]
        constructor
        · by_cases hk : k = pid
          · subst hk
            rw [slot?_eq hp] at hnone
            have hgrant : (p.start t sizes alloc).1[tb]? = none := by
              change (HarqProcess.startSlots p.slots sizes).2[tb]? = none
              rw [HarqProcess.getElem?_startSlots_grants, hnone]
            rw [if_pos rfl, hgrant, Option.map_none]
          · rw [if_neg hk]
        · exact slot?_put_eq_none hp (p.length_start t sizes alloc) hnone
  | newRetx k t alloc =>
      rcases h.newRetx_cases k t alloc with ⟨e, heq⟩ | ⟨p, hp, -, heq⟩
      · simpa only [sentAt, perform, heq, true_and] using hnone
      · simp only [sentAt, perform, heq]
        constructor
        · by_cases hk : k = pid
          · subst hk
            rw [slot?_eq hp] at hnone
            have hindex : p.retxIndex? tb = none := by simp [HarqProcess.retxIndex?, hnone]
            rw [if_pos rfl, hp, Option.bind_some, hindex, Option.bind_none, Option.map_none]
          · rw [if_neg hk]
        · exact slot?_put_eq_none hp (p.length_resend t alloc) hnone
  | setAck k i ack =>
      rcases h.setAck_cases k i ack with ⟨e, heq⟩ | ⟨p, hp, heq⟩
      · simpa only [sentAt, perform, heq, true_and] using hnone
      · constructor
        · simp only [sentAt]
        · simp only [perform, heq]
          exact slot?_put_eq_none hp (p.length_feedback i ack h.roundTrip h.maxRetx) hnone
  | takeDropped => exact ⟨rfl, hnone⟩
  | reset => exact ⟨rfl, slot?_map_eq_none (fun p ↦ p.length_reset) rfl hnone⟩

theorem transmissions_of_none {pid tb : Nat} (hnone : h.slot? pid tb = none)
    (ops : List (HarqOp α)) : h.transmissions pid tb ops = [] := by
  induction ops generalizing h with
  | nil => rfl
  | cons op ops ih =>
      obtain ⟨hsent, hafter⟩ := sentAt_of_none hnone op
      rw [transmissions, hsent, ih hafter]
      rfl

/-! ## Runs -/

/-- The transmissions are chains, none of which has more retransmissions than allowed. -/
def Chained (roundTrip maxRetx : Nat) (sent : List Sent) : Prop :=
  ∃ chains, sent = chains.flatMap (Chain.sent roundTrip) ∧
    (∀ c ∈ chains, c.nofRetx ≤ maxRetx) ∧ Chain.Alternate false chains

theorem follows_fresh (roundTrip nofTbs maxRetx : Nat) {pid tb : Nat} {b : TbSlot}
    (hb : (HarqTable.empty roundTrip nofTbs maxRetx : HarqTable α).slot? pid tb = some b) :
    Follows roundTrip maxRetx [] []
      ((HarqTable.empty roundTrip nofTbs maxRetx : HarqTable α).txAt pid) b := by
  obtain ⟨p, hp, hslot⟩ := of_slot? hb
  obtain ⟨i, -, rfl⟩ := List.mem_map.mp (List.mem_of_getElem? hp)
  obtain rfl : b = {} := List.eq_of_mem_replicate (List.mem_of_getElem? hslot)
  exact ⟨rfl, by simp, trivial, rfl, fun hstate ↦ absurd rfl hstate,
    by simp [TbSlot.isPendingRetx]⟩

/-- While the clock keeps pace, the transmissions of every slot are chains. -/
theorem chained_of_paced {roundTrip : Nat} (hmin : 8 ≤ roundTrip) (hmax : roundTrip ≤ 16)
    (nofTbs maxRetx : Nat) {ops : List (HarqOp α)} (hpaced : Paced roundTrip none ops)
    (pid tb : Nat) :
    Chained roundTrip maxRetx
      ((HarqTable.empty roundTrip nofTbs maxRetx).transmissions pid tb ops) := by
  have hround : (HarqTable.empty roundTrip nofTbs maxRetx : HarqTable α).roundTrip = roundTrip := by
    simp [HarqTable.empty, HarqTable.roundTrip]
  have htimely : (HarqTable.empty roundTrip nofTbs maxRetx : HarqTable α).Timely :=
    .empty roundTrip nofTbs maxRetx
  cases hslot : (HarqTable.empty roundTrip nofTbs maxRetx : HarqTable α).slot? pid tb with
  | none =>
      rw [transmissions_of_none hslot]
      exact ⟨[], rfl, by simp, trivial⟩
  | some b =>
      have hrun := @follows_run α _ ops htimely
      rw [hround] at hrun
      obtain ⟨chains, tx, b', hf⟩ := hrun (by omega) (by omega) hpaced hslot
        (follows_fresh roundTrip nofTbs maxRetx hslot)
      exact ⟨chains, hf.sent, hf.bounded, hf.alternate⟩

/-- Two blocks at the end of a turn of the clock: one is refused at once, the other is
never answered; both are sent again after the turn, and the table is reset. -/
def wrappingOps : List (HarqOp Unit) :=
  [.advance (Tti.ofNat 10236), .newTx 4 (Tti.ofNat 10236) [(100, 5), (40, 5)] (),
    .setAck 4 0 false, .setAck 4 0 false, .advance (Tti.ofNat 4), .setAck 9 9 true,
    .newRetx 4 (Tti.ofNat 4) (), .reset, .takeDropped, .newTx 4 (Tti.ofNat 4) [(7, 2)] ()]

theorem paced_wrappingOps : Paced 8 none wrappingOps := by
  refine ⟨fun _ hnone ↦ (by cases hnone), rfl, trivial, trivial, fun last hlast ↦ ?_, trivial,
    rfl, trivial, trivial, rfl, trivial⟩
  obtain rfl : Tti.ofNat 10236 = last := Option.some.inj hlast
  exact ⟨8, by decide, by decide, by decide⟩

theorem chained_wrappingOps :
    Paced 8 none wrappingOps ∧
      Chained 8 4 ((HarqTable.empty 8 2 4).transmissions 4 0 wrappingOps) ∧
      (HarqTable.empty 8 2 4).transmissions 4 0 wrappingOps =
        [⟨Tti.ofNat 10236, ⟨100, 5, true, 0, false⟩⟩, ⟨Tti.ofNat 4, ⟨100, 5, true, 2, true⟩⟩,
          ⟨Tti.ofNat 4, ⟨7, 2, false, 0, false⟩⟩] :=
  ⟨paced_wrappingOps,
    chained_of_paced (by decide) (by decide) 2 4 paced_wrappingOps 4 0, by decide⟩

end MacScheduler.HarqTable
