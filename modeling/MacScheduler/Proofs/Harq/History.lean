import MacScheduler.Proofs.Harq.Ledger

/-!
# The blocks of a slot

Every operation does something to the block in a given slot, or nothing: it
starts one, acknowledges it or gives it up.  The events of a slot replay as a
sequence of blocks, each of which ends at most once and before the next one
starts.
-/

namespace MacScheduler

inductive BlockEvent where
  | started (tbs : Nat)
  | acked (tbs : Nat)
  | dropped (tbs : Nat)
deriving DecidableEq

/-- The size of the block in flight after an event, where the event may happen. -/
def BlockEvent.next? : Option Nat → BlockEvent → Option (Option Nat)
  | none, .started tbs => some (some tbs)
  | some size, .acked tbs => if tbs = size then some none else none
  | some size, .dropped tbs => if tbs = size then some none else none
  | _, _ => none

/-- A block and how it ended, if it did. -/
structure BlockRecord where
  tbs : Nat
  /-- Whether it was acknowledged; otherwise it was given up. -/
  acked : Option Bool
deriving DecidableEq

namespace BlockRecord

def events (b : BlockRecord) : List BlockEvent :=
  .started b.tbs ::
    match b.acked with
    | none => []
    | some true => [.acked b.tbs]
    | some false => [.dropped b.tbs]

/-- The size of a block that has not ended. -/
def open? (b : BlockRecord) : Option Nat := if b.acked.isNone then some b.tbs else none

end BlockRecord

/-- Blocks that follow each other: all but the last one have ended. -/
def Successive (blocks : List BlockRecord) : Prop := ∀ b ∈ blocks.dropLast, b.acked.isSome

namespace Successive

variable {b : BlockRecord} {blocks : List BlockRecord}

theorem cons (hb : b.acked.isSome) (h : Successive blocks) : Successive (b :: blocks) := by
  intro b' hb'
  cases blocks with
  | nil => simp at hb'
  | cons c blocks =>
      rw [List.dropLast_cons_of_ne_nil (by simp)] at hb'
      rcases List.mem_cons.mp hb' with rfl | hb'
      · exact hb
      · exact h b' hb'

theorem getLast?_cons (hb : b.acked.isSome) (blocks : List BlockRecord) :
    (b :: blocks).getLast?.bind BlockRecord.open? =
      blocks.getLast?.bind BlockRecord.open? := by
  cases hlast : blocks.getLast? with
  | none =>
      rw [List.getLast?_eq_none_iff.mp hlast]
      simp [BlockRecord.open?, Option.isSome_iff_ne_none.mp hb]
  | some c => simp [List.getLast?_cons, hlast]

end Successive

/-- Events that replay are those of successive blocks; the last one is in flight if
the replay ends with one. -/
theorem blocks_of_replay {last : Option Nat} : {events : List BlockEvent} →
    events.foldlM BlockEvent.next? none = some last →
    ∃ blocks, events = blocks.flatMap BlockRecord.events ∧ Successive blocks ∧
      blocks.getLast?.bind BlockRecord.open? = last
  | [], h => ⟨[], rfl, by simp [Successive], by simpa using h⟩
  | [.started tbs], h => 
      ⟨[⟨tbs, none⟩], rfl, by simp [Successive],
        by simpa [BlockEvent.next?, BlockRecord.open?] using h⟩
  | .started _ :: .started _ :: _, h => by cases h
  | .acked _ :: _, h => by cases h
  | .dropped _ :: _, h => by cases h
  | .started tbs :: .acked size :: events, h => by
      obtain ⟨rfl, hrest⟩ : size = tbs ∧ events.foldlM BlockEvent.next? none = some last := by
        by_cases hsize : size = tbs
        · exact ⟨hsize, by simpa [BlockEvent.next?, hsize] using h⟩
        · simp [BlockEvent.next?, hsize] at h
      obtain ⟨blocks, rfl, hsucc, hlast⟩ := blocks_of_replay hrest
      exact ⟨⟨size, some true⟩ :: blocks, rfl, hsucc.cons rfl,
        (Successive.getLast?_cons rfl blocks).trans hlast⟩
  | .started tbs :: .dropped size :: events, h => by
      obtain ⟨rfl, hrest⟩ : size = tbs ∧ events.foldlM BlockEvent.next? none = some last := by
        by_cases hsize : size = tbs
        · exact ⟨hsize, by simpa [BlockEvent.next?, hsize] using h⟩
        · simp [BlockEvent.next?, hsize] at h
      obtain ⟨blocks, rfl, hsucc, hlast⟩ := blocks_of_replay hrest
      exact ⟨⟨size, some false⟩ :: blocks, rfl, hsucc.cons rfl,
        (Successive.getLast?_cons rfl blocks).trans hlast⟩
termination_by events => events.length

/-! ## Events of an operation -/

def recordsOf (pid tb : Nat) (records : List DroppedTb) : List DroppedTb :=
  records.filter fun d ↦ decide (d.pid = pid ∧ d.tb = tb)

def dropEvents (records : List DroppedTb) : List BlockEvent :=
  records.map fun d ↦ .dropped d.tbs

def ackEvents : Except HarqError AckOutcome → List BlockEvent
  | .ok (.acked tbs) => [.acked tbs]
  | _ => []

namespace HarqTable

variable {α : Type}

def queuedBy (h : HarqTable α) : HarqOp α → List DroppedTb
  | .takeDropped => []
  | op => (h.perform op).2.dropped.drop h.dropped.length

/-- What an operation answers about the block in slot `tb` of process `pid`. -/
def answersAt (h : HarqTable α) (pid tb : Nat) (op : HarqOp α) : List BlockEvent :=
  match op, (h.perform op).1 with
  | .newTx k _ _ _, .started (.ok grants) =>
      if k = pid then (grants[tb]?.map fun g ↦ .started g.tbs).toList else []
  | .setAck k i _, .answered r => if k = pid ∧ i = tb then ackEvents r else []
  | _, _ => []

/-- What an operation does to the block in slot `tb` of process `pid`. -/
def eventsAt (h : HarqTable α) (pid tb : Nat) (op : HarqOp α) : List BlockEvent :=
  h.answersAt pid tb op ++ dropEvents (recordsOf pid tb (h.queuedBy op))

def history (h : HarqTable α) (pid tb : Nat) : List (HarqOp α) → List BlockEvent
  | [] => []
  | op :: ops => h.eventsAt pid tb op ++ (h.perform op).2.history pid tb ops

def queuedIn (h : HarqTable α) : List (HarqOp α) → List DroppedTb
  | [] => []
  | op :: ops => h.queuedBy op ++ (h.perform op).2.queuedIn ops

/-- The size of the block in flight in slot `tb` of process `pid`. -/
def openAt (h : HarqTable α) (pid tb : Nat) : Option Nat := (h.slot? pid tb).bind TbSlot.open?

end HarqTable

/-! ## Replaying one operation -/

namespace HarqProcess

variable {α : Type}

theorem AdvancedSlot.replay {now tx : Tti} {roundTrip maxRetx pid tb : Nat} {due : Option Tti}
    {b : TbSlot} {out : TbSlot × Option Tti × List DroppedTb} (hb : b.Sound)
    (h : AdvancedSlot now tx roundTrip maxRetx pid tb due b out) :
    (dropEvents out.2.2).foldlM BlockEvent.next? b.open? = some out.1.open? := by
  cases h with
  | kept => rfl
  | timedOut hawait =>
      rw [TbSlot.open?_of_state (hb.not_empty hawait)]
      rfl
  | exhausted hawait =>
      rw [TbSlot.open?_of_state (hb.not_empty hawait)]
      simp [dropEvents, BlockEvent.next?, TbSlot.open?, TbSlot.isEmpty]
  | overshot hawait =>
      rw [TbSlot.open?_of_state (hb.not_empty hawait)]
      simp [dropEvents, BlockEvent.next?, TbSlot.open?, TbSlot.isEmpty]
  | missed hpending =>
      have hstate : b.state ≠ .empty := by simp [(TbSlot.isPendingRetx_iff.mp hpending).1]
      rw [TbSlot.open?_of_state hstate]
      simp [dropEvents, BlockEvent.next?, TbSlot.open?, TbSlot.isEmpty, TbSlot.drop]

theorem replay_advance {p : HarqProcess α} (hp : p.Sound) (now : Tti) (roundTrip maxRetx tb : Nat) :
    (dropEvents (recordsOf p.pid tb (p.advance now roundTrip maxRetx).2)).foldlM
        BlockEvent.next? (p.slots[tb]?.bind TbSlot.open?) =
      some ((p.advance now roundTrip maxRetx).1.slots[tb]?.bind TbSlot.open?) := by
  rcases p.advance_eq now roundTrip maxRetx with ⟨-, heq⟩ | ⟨tx, -, heq⟩
  · rw [heq]
    rfl
  · obtain ⟨hlen, hmem, hslots⟩ :=
      advanceSlots_spec now tx roundTrip maxRetx p.pid 0 p.retxTti p.slots
    rw [heq, slots_settle]
    simp only [Nat.zero_add] at hmem hslots
    generalize advanceSlots now tx roundTrip maxRetx p.pid 0 p.retxTti p.slots = out at *
    have hrecords : recordsOf p.pid tb out.2.2 =
        out.2.2.filter fun d ↦ decide (d.tb = tb) :=
      List.filter_congr fun d hd ↦ by simp [(hmem d hd).1]
    rw [hrecords]
    cases hslot : p.slots[tb]? with
    | none =>
        have hge := List.getElem?_eq_none_iff.mp hslot
        have hout : out.1[tb]? = none := List.getElem?_eq_none (hlen ▸ hge)
        rw [filter_tb_eq_nil fun d hd ↦ by have := (hmem d hd).2.2; omega, hout]
        rfl
    | some b =>
        obtain ⟨due, -, hout, hdropped⟩ := hslots tb b hslot
        rw [hout, hdropped]
        exact (advanceSlot_spec _ _ _ _ _ _ _ _).replay (hp b (List.mem_of_getElem? hslot))

theorem replay_start {p : HarqProcess α} (hp : p.isEmpty = true) (t : Tti)
    (sizes : List (Nat × Nat)) (alloc : α) (tb : Nat) :
    ((p.start t sizes alloc).1[tb]?.map fun g ↦ BlockEvent.started g.tbs).toList.foldlM
        BlockEvent.next? (p.slots[tb]?.bind TbSlot.open?) =
      some ((p.start t sizes alloc).2.slots[tb]?.bind TbSlot.open?) := by
  change ((startSlots p.slots sizes).2[tb]?.map _).toList.foldlM _ _ =
    some ((startSlots p.slots sizes).1[tb]?.bind _)
  rw [getElem?_startSlots, getElem?_startSlots_grants]
  cases hslot : p.slots[tb]? with
  | none => rfl
  | some b =>
      have hempty : b.isEmpty = true :=
        TbSlot.isEmpty_iff.mpr (isEmpty_iff.mp hp b (List.mem_of_getElem? hslot))
      cases sizes[tb]? with
      | none => rfl
      | some size =>
          rw [Option.bind_some, TbSlot.open?_of_isEmpty hempty]
          rfl

theorem open?_resend (p : HarqProcess α) (t : Tti) (alloc : α) (tb : Nat) :
    (p.resend t alloc).2.slots[tb]?.bind TbSlot.open? = p.slots[tb]?.bind TbSlot.open? := by
  simp only [resend, List.getElem?_map]
  cases p.slots[tb]? with
  | none => rfl
  | some b =>
      simp only [Option.map_some, Option.bind_some]
      split <;> rfl

theorem open?_setSlot {p : HarqProcess α} {tb : Nat} {b : TbSlot} (h : p.slots[tb]? = some b)
    (b' : TbSlot) (k : Nat) :
    (p.setSlot tb b').slots[k]?.bind TbSlot.open? =
      if tb = k then b'.open? else p.slots[k]?.bind TbSlot.open? := by
  by_cases hk : tb = k
  · subst hk
    have hlt : tb < p.slots.length := (List.getElem?_eq_some_iff.mp h).1
    simp [hlt]
  · simp [hk]

theorem replay_feedback {p : HarqProcess α} (hp : p.Sound) (tb : Nat) (ack : Bool)
    (roundTrip maxRetx k : Nat) :
    ((if tb = k then ackEvents (p.feedback tb ack roundTrip maxRetx).1 else []) ++
        dropEvents (recordsOf p.pid k (p.feedback tb ack roundTrip maxRetx).2.2)).foldlM
        BlockEvent.next? (p.slots[k]?.bind TbSlot.open?) =
      some ((p.feedback tb ack roundTrip maxRetx).2.1.slots[k]?.bind TbSlot.open?) := by
  have hspec := p.feedback_spec tb ack roundTrip maxRetx
  generalize p.feedback tb ack roundTrip maxRetx = out at hspec
  have hfull : ∀ {b : TbSlot}, p.slots[tb]? = some b → b.state ≠ .empty →
      p.slots[tb]?.bind TbSlot.open? = some b.tbs :=
    fun hslot hb ↦ by rw [hslot, Option.bind_some, TbSlot.open?_of_state hb]
  have hawaiting : ∀ {b : TbSlot}, p.slots[tb]? = some b → b.awaiting = true →
      b.state ≠ .empty :=
    fun hslot hawait ↦ (hp _ (List.mem_of_getElem? hslot)).not_empty hawait
  cases hspec with
  | absent => split <;> rfl
  | repeated => split <;> rfl
  | refused => split <;> rfl
  | @lateAck b hslot hack hpending =>
      have hb : b.state ≠ .empty := by simp [(TbSlot.isPendingRetx_iff.mp hpending).1]
      simp only [slots_settle, open?_setSlot hslot]
      split
      · subst k
        rw [hfull hslot hb]
        simp [ackEvents, recordsOf, dropEvents, BlockEvent.next?, TbSlot.open?, TbSlot.isEmpty]
      · rfl
  | @acked b hslot hawait hack =>
      simp only [slots_settle, open?_setSlot hslot]
      split
      · subst k
        rw [hfull hslot (hawaiting hslot hawait)]
        simp [ackEvents, recordsOf, dropEvents, BlockEvent.next?, TbSlot.open?, TbSlot.isEmpty]
      · rfl
  | @nacked b tx hslot hawait htx hack hretx =>
      simp only [slots_settle, open?_setSlot hslot]
      split
      · subst k
        rw [hfull hslot (hawaiting hslot hawait), TbSlot.open?_of_state (by simp)]
        rfl
      · rfl
  | @dropped b hslot hawait hack hretx =>
      simp only [slots_settle, open?_setSlot hslot]
      split
      · subst k
        rw [hfull hslot (hawaiting hslot hawait)]
        simp [ackEvents, recordsOf, dropEvents, BlockEvent.next?, TbSlot.open?, TbSlot.isEmpty]
      · rename_i hk
        simp [recordsOf, dropEvents, hk]

end HarqProcess

/-! ## Replaying a run -/

theorem recordsOf_append (pid tb : Nat) (ds es : List DroppedTb) :
    recordsOf pid tb (ds ++ es) = recordsOf pid tb ds ++ recordsOf pid tb es :=
  List.filter_append ..

theorem recordsOf_eq_nil {pid : Nat} {ds : List DroppedTb} (h : ∀ d ∈ ds, d.pid ≠ pid) (tb : Nat) :
    recordsOf pid tb ds = [] := by
  apply List.filter_eq_nil_iff.mpr
  intro d hd
  simp [h d hd]

/-- Of the records of numbered processes, those of a slot come from its process. -/
theorem recordsOf_flatten {α : Type} {procs : List (HarqProcess α)}
    {f : HarqProcess α → List DroppedTb} (hf : ∀ p, ∀ d ∈ f p, d.pid = p.pid) {base : Nat}
    (hpid : ∀ (i : Nat) (p : HarqProcess α), procs[i]? = some p → p.pid = base + i)
    (i tb : Nat) :
    recordsOf (base + i) tb (procs.map f).flatten =
      recordsOf (base + i) tb ((procs[i]?.map f).getD []) := by
  induction procs generalizing base i with
  | nil => rfl
  | cons p procs ih =>
      have hrest : ∀ (j : Nat) (q : HarqProcess α), procs[j]? = some q → q.pid = base + 1 + j := by
        intro j q hq
        have := hpid (j + 1) q (by simpa using hq)
        omega
      have hp : p.pid = base := by simpa using hpid 0 p rfl
      rw [List.map_cons, List.flatten_cons, recordsOf_append]
      cases i with
      | zero =>
          have hother : ∀ d ∈ (procs.map f).flatten, d.pid ≠ base + 0 := by
            intro d hd
            obtain ⟨ds, hds, hd⟩ := List.mem_flatten.mp hd
            obtain ⟨q, hq, rfl⟩ := List.mem_map.mp hds
            obtain ⟨j, hj⟩ := List.mem_iff_getElem?.mp hq
            have := hrest j q hj
            have := hf q d hd
            omega
          rw [recordsOf_eq_nil hother, List.append_nil]
          rfl
      | succ i =>
          have hother : ∀ d ∈ f p, d.pid ≠ base + (i + 1) := by
            intro d hd
            have := hf p d hd
            omega
          have htail := ih hrest i
          rw [show base + 1 + i = base + (i + 1) by omega] at htail
          rw [recordsOf_eq_nil hother, List.nil_append, htail, List.getElem?_cons_succ]

namespace HarqProcess

theorem pid_of_mem_advance {α : Type} (p : HarqProcess α) (now : Tti) (roundTrip maxRetx : Nat) :
    ∀ d ∈ (p.advance now roundTrip maxRetx).2, d.pid = p.pid := by
  rcases p.advance_eq now roundTrip maxRetx with ⟨-, heq⟩ | ⟨tx, -, heq⟩
  · rw [heq]
    simp
  · rw [heq]
    exact fun d hd ↦ ((advanceSlots_spec now tx roundTrip maxRetx p.pid 0 p.retxTti
      p.slots).2.1 d hd).1

theorem pid_of_mem_feedback {α : Type} (p : HarqProcess α) (tb : Nat) (ack : Bool)
    (roundTrip maxRetx : Nat) :
    ∀ d ∈ (p.feedback tb ack roundTrip maxRetx).2.2, d.pid = p.pid := by
  have hspec := p.feedback_spec tb ack roundTrip maxRetx
  generalize p.feedback tb ack roundTrip maxRetx = out at hspec
  cases hspec <;> simp

end HarqProcess

namespace HarqTable

variable {α : Type} {h : HarqTable α}

theorem replay_advance (hs : h.Sound) (t : Tti) (pid tb : Nat) :
    (h.eventsAt pid tb (.advance t)).foldlM BlockEvent.next? (h.openAt pid tb) =
      some ((h.perform (.advance t)).2.openAt pid tb) := by
  rcases h.advance_cases t with ⟨-, heq⟩ | ⟨-, heq⟩
  · simp [eventsAt, answersAt, queuedBy, perform, heq, recordsOf, dropEvents]
  · have hnumbered : ∀ (i : Nat) (p : HarqProcess α), h.procs[i]? = some p → p.pid = 0 + i :=
      fun i p hp ↦ by rw [hs.pid_eq i p hp, Nat.zero_add]
    have hflat := recordsOf_flatten
      (fun p ↦ p.pid_of_mem_advance t h.roundTrip h.maxRetx) hnumbered pid tb
    rw [Nat.zero_add] at hflat
    simp only [eventsAt, answersAt, queuedBy, perform, heq, List.drop_left, hflat]
    unfold openAt slot? get?
    rw [List.getElem?_map]
    cases hp : h.procs[pid]? with
    | none => rfl
    | some p =>
        have hreplay := HarqProcess.replay_advance (hs.of_get? hp).1 t h.roundTrip h.maxRetx tb
        rwa [(hs.of_get? hp).2] at hreplay

theorem replay_newTx (k : Nat) (t : Tti) (sizes : List (Nat × Nat)) (alloc : α) (pid tb : Nat) :
    (h.eventsAt pid tb (.newTx k t sizes alloc)).foldlM BlockEvent.next? (h.openAt pid tb) =
      some ((h.perform (.newTx k t sizes alloc)).2.openAt pid tb) := by
  rcases h.newTx_cases k t sizes alloc with ⟨e, heq⟩ | ⟨p, hp, hempty, -, heq⟩
  · simp [eventsAt, answersAt, queuedBy, perform, heq, recordsOf, dropEvents]
  · have hqueued : h.queuedBy (.newTx k t sizes alloc) = [] := by
      simp [queuedBy, perform, heq, put]
    simp only [eventsAt, answersAt, perform, heq, hqueued]
    by_cases hk : k = pid
    · subst hk
      rw [openAt, openAt, slot?_eq hp, slot?_put_self hp, if_pos rfl]
      simpa [recordsOf, dropEvents] using HarqProcess.replay_start hempty t sizes alloc tb
    · rw [openAt, openAt, slot?_put_of_ne hk, if_neg hk]
      rfl

theorem replay_newRetx (k : Nat) (t : Tti) (alloc : α) (pid tb : Nat) :
    (h.eventsAt pid tb (.newRetx k t alloc)).foldlM BlockEvent.next? (h.openAt pid tb) =
      some ((h.perform (.newRetx k t alloc)).2.openAt pid tb) := by
  rcases h.newRetx_cases k t alloc with ⟨e, heq⟩ | ⟨p, hp, -, heq⟩
  · simp [eventsAt, answersAt, queuedBy, perform, heq, recordsOf, dropEvents]
  · have hqueued : h.queuedBy (.newRetx k t alloc) = [] := by
      simp [queuedBy, perform, heq, put]
    simp only [eventsAt, answersAt, perform, heq, hqueued]
    by_cases hk : k = pid
    · subst hk
      rw [openAt, openAt, slot?_eq hp, slot?_put_self hp, HarqProcess.open?_resend]
      rfl
    · rw [openAt, openAt, slot?_put_of_ne hk]
      rfl

theorem replay_setAck (hs : h.Sound) (k i : Nat) (ack : Bool) (pid tb : Nat) :
    (h.eventsAt pid tb (.setAck k i ack)).foldlM BlockEvent.next? (h.openAt pid tb) =
      some ((h.perform (.setAck k i ack)).2.openAt pid tb) := by
  rcases h.setAck_cases k i ack with ⟨e, heq⟩ | ⟨p, hp, heq⟩
  · simp [eventsAt, answersAt, queuedBy, perform, heq, recordsOf, dropEvents, ackEvents]
  · have hqueued : h.queuedBy (.setAck k i ack) =
        (p.feedback i ack h.roundTrip h.maxRetx).2.2 := by
      simp only [queuedBy, perform, heq, List.drop_left]
    have hafter : (h.perform (.setAck k i ack)).2.openAt pid tb =
        (h.put k (p.feedback i ack h.roundTrip h.maxRetx).2.1).openAt pid tb := by
      simp only [perform, heq]
      rfl
    rw [hafter, eventsAt, hqueued]
    simp only [answersAt, perform, heq]
    by_cases hk : k = pid
    · subst hk
      have hreplay := HarqProcess.replay_feedback (hs.of_get? hp).1 i ack h.roundTrip
        h.maxRetx tb
      rw [(hs.of_get? hp).2] at hreplay
      rw [openAt, openAt, slot?_eq hp, slot?_put_self hp]
      simpa using hreplay
    · have hother : ∀ d ∈ (p.feedback i ack h.roundTrip h.maxRetx).2.2, d.pid ≠ pid := by
        intro d hd hpid
        exact hk (((hs.of_get? hp).2.symm.trans (p.pid_of_mem_feedback _ _ _ _ d hd).symm).trans
          hpid)
      rw [openAt, openAt, slot?_put_of_ne hk, recordsOf_eq_nil hother,
        if_neg fun hand ↦ hk hand.1]
      rfl

theorem replay_perform (hs : h.Sound) {op : HarqOp α} (hop : op ≠ .reset) (pid tb : Nat) :
    (h.eventsAt pid tb op).foldlM BlockEvent.next? (h.openAt pid tb) =
      some ((h.perform op).2.openAt pid tb) := by
  cases op with
  | advance t => exact replay_advance hs t pid tb
  | newTx k t sizes alloc => exact replay_newTx k t sizes alloc pid tb
  | newRetx k t alloc => exact replay_newRetx k t alloc pid tb
  | setAck k i ack => exact replay_setAck hs k i ack pid tb
  | takeDropped => rfl
  | reset => exact absurd rfl hop

theorem replay_run (hs : h.Sound) {ops : List (HarqOp α)} (hops : ∀ op ∈ ops, op ≠ .reset)
    (pid tb : Nat) :
    (h.history pid tb ops).foldlM BlockEvent.next? (h.openAt pid tb) =
      some ((h.run ops).2.openAt pid tb) := by
  induction ops generalizing h with
  | nil => rfl
  | cons op ops ih =>
      rw [history, List.foldlM_append, replay_perform hs (hops op List.mem_cons_self)]
      exact ih (hs.perform op) fun op' hop' ↦ hops op' (List.mem_cons_of_mem op hop')

theorem queue_perform {op : HarqOp α} (hop : op ≠ .reset) :
    h.dropped ++ h.queuedBy op =
      (h.perform op).1.records ++ (h.perform op).2.dropped := by
  cases op with
  | advance t =>
      rcases h.advance_cases t with ⟨-, heq⟩ | ⟨-, heq⟩ <;>
        simp [queuedBy, perform, heq, HarqReply.records]
  | newTx k t sizes alloc =>
      rcases h.newTx_cases k t sizes alloc with ⟨e, heq⟩ | ⟨p, -, -, -, heq⟩ <;>
        simp [queuedBy, perform, heq, HarqReply.records, put]
  | newRetx k t alloc =>
      rcases h.newRetx_cases k t alloc with ⟨e, heq⟩ | ⟨p, -, -, heq⟩ <;>
        simp [queuedBy, perform, heq, HarqReply.records, put]
  | setAck k i ack =>
      rcases h.setAck_cases k i ack with ⟨e, heq⟩ | ⟨p, -, heq⟩ <;>
        simp [queuedBy, perform, heq, HarqReply.records]
  | takeDropped => simp [queuedBy, perform, takeDropped, HarqReply.records]
  | reset => exact absurd rfl hop

theorem queue_run {ops : List (HarqOp α)} (hops : ∀ op ∈ ops, op ≠ .reset) :
    h.dropped ++ h.queuedIn ops =
      (h.run ops).1.flatMap HarqReply.records ++ (h.run ops).2.dropped := by
  induction ops generalizing h with
  | nil => simp [queuedIn, run]
  | cons op ops ih =>
      have hrest := @ih (h.perform op).2 fun op' hop' ↦ hops op' (List.mem_cons_of_mem op hop')
      rw [queuedIn, ← List.append_assoc, queue_perform (hops op List.mem_cons_self),
        List.append_assoc, hrest, run, List.flatMap_cons, List.append_assoc]

/-- In every slot, blocks follow each other: each is acknowledged or given up at most
once, before the next one starts. -/
theorem history_blocks (hs : h.Sound) {ops : List (HarqOp α)} (hops : ∀ op ∈ ops, op ≠ .reset)
    {pid tb : Nat} (hopen : h.openAt pid tb = none) :
    ∃ blocks, h.history pid tb ops = blocks.flatMap BlockRecord.events ∧ Successive blocks ∧
      blocks.getLast?.bind BlockRecord.open? = (h.run ops).2.openAt pid tb := by
  have hreplay := replay_run hs hops pid tb
  rw [hopen] at hreplay
  exact blocks_of_replay hreplay

theorem openAt_empty (roundTrip nofTbs maxRetx pid tb : Nat) :
    (HarqTable.empty roundTrip nofTbs maxRetx : HarqTable α).openAt pid tb = none := by
  unfold openAt slot? get? HarqTable.empty
  rw [List.getElem?_map]
  cases (List.range roundTrip)[pid]? with
  | none => rfl
  | some i =>
      simp only [Option.map_some, Option.bind_some, HarqProcess.idle]
      cases hslot : (List.replicate slotsPerProcess ({} : TbSlot))[tb]? with
      | none => rfl
      | some b =>
          obtain rfl := List.eq_of_mem_replicate (List.mem_of_getElem? hslot)
          rfl

theorem pendingBytes_empty (roundTrip nofTbs maxRetx : Nat) :
    (HarqTable.empty roundTrip nofTbs maxRetx : HarqTable α).pendingBytes = 0 := by
  apply total_eq_zero_iff.mpr
  intro n hn
  simp only [HarqTable.empty, List.map_map, List.mem_map] at hn
  obtain ⟨pid, -, rfl⟩ := hn
  rfl

/-- The ledger of a run: every byte that was started is accounted for, and in every
slot blocks follow each other, each acknowledged or given up at most once. -/
structure Accounted (h : HarqTable α) (ops : List (HarqOp α)) : Prop where
  bytes : total ((h.run ops).1.map HarqReply.startedBytes) =
    total ((h.run ops).1.map HarqReply.ackedBytes) +
      (droppedBytes ((h.run ops).1.flatMap HarqReply.records) +
        droppedBytes (h.run ops).2.dropped) +
      (h.run ops).2.pendingBytes
  records : h.queuedIn ops = (h.run ops).1.flatMap HarqReply.records ++ (h.run ops).2.dropped
  blocks : ∀ pid tb, ∃ blocks, h.history pid tb ops = blocks.flatMap BlockRecord.events ∧
    Successive blocks ∧ blocks.getLast?.bind BlockRecord.open? = (h.run ops).2.openAt pid tb

/-- However a table is used, no byte is lost or counted twice until it is reset. -/
theorem accounted_of_no_reset (roundTrip nofTbs maxRetx : Nat) (ops : List (HarqOp α))
    (hops : ∀ op ∈ ops, op ≠ .reset) : Accounted (.empty roundTrip nofTbs maxRetx) ops where
  bytes := by
    have hbytes := bytes_run (.empty roundTrip nofTbs maxRetx) hops
    have hqueue :
        droppedBytes (HarqTable.empty roundTrip nofTbs maxRetx : HarqTable α).dropped = 0 := rfl
    rw [pendingBytes_empty, hqueue] at hbytes
    omega
  records := @queue_run α (.empty roundTrip nofTbs maxRetx) ops hops
  blocks := fun pid tb ↦
    history_blocks (.empty roundTrip nofTbs maxRetx) hops (openAt_empty _ _ _ pid tb)

/-- A process of two blocks: one is acknowledged, repeatedly; the other is not
answered, sent again and given up. -/
def exampleOps : List (HarqOp Unit) :=
  [.advance (Tti.ofNat 10236), .newTx 0 (Tti.ofNat 10236) [(100, 5), (40, 5)] (),
    .setAck 0 0 true, .setAck 0 0 true, .setAck 0 0 false, .advance (Tti.ofNat 4),
    .newRetx 0 (Tti.ofNat 4) (), .setAck 0 1 false, .takeDropped,
    .newTx 0 (Tti.ofNat 4) [(7, 5)] ()]

theorem accounted_exampleOps :
    (∀ op ∈ exampleOps, op ≠ .reset) ∧ Accounted (.empty 8 2 1) exampleOps ∧
      ((HarqTable.empty 8 2 1).history 0 1 exampleOps) = [.started 40, .dropped 40] :=
  ⟨by simp [exampleOps], accounted_of_no_reset 8 2 1 exampleOps (by simp [exampleOps]),
    by decide⟩

end HarqTable

end MacScheduler
