import MacScheduler.Proofs.Harq.Run

/-!
# The ledger of a table

Bytes enter a table when a block starts and leave it when the block is
acknowledged or given up.  Each operation balances: what is in flight, queued
and handed out afterwards is what was there before and what was started.
-/

namespace MacScheduler

/-- What records count for, when a block of `n` bytes counts for `w n`. -/
def droppedLoad (w : Nat → Nat) (records : List DroppedTb) : Nat :=
  total (records.map fun d ↦ w d.tbs)

@[simp] theorem droppedLoad_nil (w : Nat → Nat) : droppedLoad w [] = 0 := rfl

@[simp] theorem droppedLoad_append (w : Nat → Nat) (ds es : List DroppedTb) :
    droppedLoad w (ds ++ es) = droppedLoad w ds + droppedLoad w es := by
  simp [droppedLoad]

def droppedBytes (records : List DroppedTb) : Nat := total (records.map (·.tbs))

@[simp] theorem droppedBytes_nil : droppedBytes [] = 0 := rfl

@[simp] theorem droppedBytes_append (ds es : List DroppedTb) :
    droppedBytes (ds ++ es) = droppedBytes ds + droppedBytes es := droppedLoad_append id ds es

def ackedBytes : Except HarqError AckOutcome → Nat
  | .ok (.acked tbs) => tbs
  | _ => 0

/-! ## Bytes of one process -/

/-- What a block in flight counts for, when a block of `n` bytes counts for `w n`. -/
def TbSlot.load (w : Nat → Nat) (b : TbSlot) : Nat := if b.isEmpty then 0 else w b.tbs

theorem TbSlot.load_of_ne {b : TbSlot} (h : b.state ≠ .empty) (w : Nat → Nat) :
    b.load w = w b.tbs := by
  simp [load, isEmpty, h]

theorem TbSlot.load_of_eq {b : TbSlot} (h : b.state = .empty) (w : Nat → Nat) : b.load w = 0 := by
  simp [load, isEmpty, h]

theorem TbSlot.pendingBytes_of_ne {b : TbSlot} (h : b.state ≠ .empty) : b.pendingBytes = b.tbs :=
  load_of_ne h id

theorem TbSlot.pendingBytes_of_eq {b : TbSlot} (h : b.state = .empty) : b.pendingBytes = 0 :=
  load_of_eq h id

theorem AdvancedSlot.load {now tx : Tti} {roundTrip maxRetx pid tb : Nat} {due : Option Tti}
    {b : TbSlot} {out : TbSlot × Option Tti × List DroppedTb} (hb : b.Sound)
    (h : HarqProcess.AdvancedSlot now tx roundTrip maxRetx pid tb due b out) (w : Nat → Nat) :
    b.load w = out.1.load w + droppedLoad w out.2.2 := by
  cases h with
  | kept => rfl
  | timedOut hawait =>
      rw [TbSlot.load_of_ne (hb.not_empty hawait), TbSlot.load_of_ne (by simp)]
      rfl
  | exhausted hawait =>
      rw [TbSlot.load_of_ne (hb.not_empty hawait), TbSlot.load_of_eq rfl]
      simp [droppedLoad]
  | overshot hawait =>
      rw [TbSlot.load_of_ne (hb.not_empty hawait), TbSlot.load_of_eq rfl]
      simp [droppedLoad]
  | missed hpending =>
      have hstate : b.state ≠ .empty := by simp [(TbSlot.isPendingRetx_iff.mp hpending).1]
      rw [TbSlot.load_of_ne hstate, TbSlot.load_of_eq rfl]
      simp [droppedLoad]

namespace HarqProcess

variable {α : Type}

@[simp] theorem pendingBytes_settle (p : HarqProcess α) :
    p.settle.pendingBytes = p.pendingBytes := by
  simp [pendingBytes]

def load (w : Nat → Nat) (p : HarqProcess α) : Nat := total (p.slots.map (TbSlot.load w))

theorem load_advanceSlots (now tx : Tti) (roundTrip maxRetx pid tb : Nat)
    (due : Option Tti) {slots : List TbSlot} (hs : ∀ b ∈ slots, b.Sound) (w : Nat → Nat) :
    total (slots.map (TbSlot.load w)) =
      total ((advanceSlots now tx roundTrip maxRetx pid tb due slots).1.map (TbSlot.load w)) +
        droppedLoad w (advanceSlots now tx roundTrip maxRetx pid tb due slots).2.2 := by
  induction slots generalizing tb due with
  | nil => rfl
  | cons b slots ih =>
      have hb := AdvancedSlot.load (hs b List.mem_cons_self)
        (advanceSlot_spec now tx roundTrip maxRetx pid tb due b) w
      have hrest := ih (tb + 1) (advanceSlot now tx roundTrip maxRetx pid tb due b).2.1
        fun b' hb' ↦ hs b' (List.mem_cons_of_mem b hb')
      simp only [advanceSlots_cons, List.map_cons, total_cons, droppedLoad_append]
      omega

theorem load_advance {p : HarqProcess α} (hp : p.Sound) (now : Tti) (roundTrip maxRetx : Nat)
    (w : Nat → Nat) :
    p.load w = (p.advance now roundTrip maxRetx).1.load w +
      droppedLoad w (p.advance now roundTrip maxRetx).2 := by
  rcases p.advance_eq now roundTrip maxRetx with ⟨-, heq⟩ | ⟨tx, -, heq⟩
  · rw [heq]
    rfl
  · rw [heq, load, load, slots_settle]
    exact load_advanceSlots now tx roundTrip maxRetx p.pid 0 p.retxTti hp w

theorem pendingBytes_startSlots {slots : List TbSlot} (hs : ∀ b ∈ slots, b.state = .empty)
    (sizes : List (Nat × Nat)) :
    total ((startSlots slots sizes).1.map TbSlot.pendingBytes) =
      grantedBytes (startSlots slots sizes).2 := by
  induction slots generalizing sizes with
  | nil => rfl
  | cons b slots ih =>
      have hrest := ih fun b' hb' ↦ hs b' (List.mem_cons_of_mem b hb')
      cases sizes with
      | nil =>
          apply total_eq_zero_iff.mpr
          intro n hn
          obtain ⟨b', hb', rfl⟩ := List.mem_map.mp hn
          exact TbSlot.pendingBytes_of_eq (hs b' hb')
      | cons size sizes =>
          simp only [startSlots, grantedBytes, List.map_cons, total_cons]
          rw [hrest sizes]
          rfl

theorem pendingBytes_start {p : HarqProcess α} (hp : p.isEmpty = true) (t : Tti)
    (sizes : List (Nat × Nat)) (alloc : α) :
    p.pendingBytes = 0 ∧
      (p.start t sizes alloc).2.pendingBytes = grantedBytes (p.start t sizes alloc).1 := by
  have hslots := isEmpty_iff.mp hp
  refine ⟨total_eq_zero_iff.mpr fun n hn ↦ ?_, pendingBytes_startSlots hslots sizes⟩
  obtain ⟨b, hb, rfl⟩ := List.mem_map.mp hn
  exact TbSlot.pendingBytes_of_eq (hslots b hb)

theorem pendingBytes_resend (p : HarqProcess α) (t : Tti) (alloc : α) :
    (p.resend t alloc).2.pendingBytes = p.pendingBytes := by
  have hslots : (p.resend t alloc).2.slots.map TbSlot.pendingBytes =
      p.slots.map TbSlot.pendingBytes := by
    rw [resend, List.map_map]
    apply List.map_congr_left
    intro b _
    simp only [Function.comp_apply]
    split <;> rfl
  rw [pendingBytes, hslots, pendingBytes]

theorem pendingBytes_setSlot {p : HarqProcess α} {tb : Nat} {b : TbSlot}
    (h : p.slots[tb]? = some b) (b' : TbSlot) :
    (p.setSlot tb b').pendingBytes + b.pendingBytes = p.pendingBytes + b'.pendingBytes := by
  have hb : (p.slots.map TbSlot.pendingBytes)[tb]? = some b.pendingBytes := by
    rw [List.getElem?_map, h, Option.map_some]
  unfold pendingBytes
  rw [slots_setSlot, List.map_set]
  exact total_set hb _

theorem pendingBytes_feedback {p : HarqProcess α} (hp : p.Sound) (tb : Nat) (ack : Bool)
    (roundTrip maxRetx : Nat) :
    p.pendingBytes = (p.feedback tb ack roundTrip maxRetx).2.1.pendingBytes +
      ackedBytes (p.feedback tb ack roundTrip maxRetx).1 +
      droppedBytes (p.feedback tb ack roundTrip maxRetx).2.2 := by
  have hspec := p.feedback_spec tb ack roundTrip maxRetx
  generalize p.feedback tb ack roundTrip maxRetx = out at hspec
  -- a block is resolved by emptying its slot, which held all of its bytes
  have hset : ∀ {b : TbSlot} (b' : TbSlot), p.slots[tb]? = some b → b.state ≠ .empty →
      (p.setSlot tb b').pendingBytes + b.tbs = p.pendingBytes + b'.pendingBytes :=
    fun b' hslot hb ↦ TbSlot.pendingBytes_of_ne hb ▸ pendingBytes_setSlot hslot b'
  have hfull : ∀ {b : TbSlot}, p.slots[tb]? = some b → b.awaiting = true → b.state ≠ .empty :=
    fun hslot hawait ↦ (hp _ (List.mem_of_getElem? hslot)).not_empty hawait
  cases hspec with
  | absent => rfl
  | @lateAck b hslot hack hpending =>
      have hb : b.state ≠ .empty := by simp [(TbSlot.isPendingRetx_iff.mp hpending).1]
      have h := hset { b with state := .empty, lastAck := some true } hslot hb
      rw [TbSlot.pendingBytes_of_eq rfl] at h
      simp only [pendingBytes_settle, ackedBytes, droppedBytes_nil]
      omega
  | repeated => rfl
  | refused => rfl
  | @acked b hslot hawait hack =>
      have h := hset { b with state := .empty, awaiting := false, lastAck := some true } hslot
        (hfull hslot hawait)
      rw [TbSlot.pendingBytes_of_eq rfl] at h
      simp only [pendingBytes_settle, ackedBytes, droppedBytes_nil]
      omega
  | @nacked b tx hslot hawait htx hack hretx =>
      have h := hset { b with state := .activeRetx, awaiting := false, lastAck := some false } hslot
        (hfull hslot hawait)
      rw [TbSlot.pendingBytes_of_ne (by simp)] at h
      have hsame : ∀ (q : HarqProcess α) (due : Option Tti),
          pendingBytes { q with retxTti := due } = q.pendingBytes := fun _ _ ↦ rfl
      simp only [pendingBytes_settle, hsame, ackedBytes, droppedBytes_nil] at h ⊢
      omega
  | @dropped b hslot hawait hack hretx =>
      have h := hset { b with state := .empty, awaiting := false, lastAck := some false } hslot
        (hfull hslot hawait)
      rw [TbSlot.pendingBytes_of_eq rfl] at h
      simp only [pendingBytes_settle, ackedBytes, droppedBytes, List.map_cons, List.map_nil,
        total_cons, total_nil]
      omega

end HarqProcess

/-! ## Bytes of a run -/

namespace HarqReply

def startedBytes : HarqReply → Nat
  | .started (.ok grants) => grantedBytes grants
  | _ => 0

def ackedBytes : HarqReply → Nat
  | .answered r => MacScheduler.ackedBytes r
  | _ => 0

def records : HarqReply → List DroppedTb
  | .taken dropped => dropped
  | _ => []

end HarqReply

namespace HarqTable

variable {α : Type} {h : HarqTable α}

theorem pendingBytes_put {pid : Nat} {p : HarqProcess α} (hp : h.get? pid = some p)
    (q : HarqProcess α) :
    (h.put pid q).pendingBytes + p.pendingBytes = h.pendingBytes + q.pendingBytes := by
  have hbytes : (h.procs.map HarqProcess.pendingBytes)[pid]? = some p.pendingBytes := by
    rw [List.getElem?_map, show h.procs[pid]? = some p from hp, Option.map_some]
  unfold pendingBytes put
  rw [List.map_set]
  exact total_set hbytes _

/-- What a table holds, each block counting for `w` of its bytes. -/
def load (w : Nat → Nat) (h : HarqTable α) : Nat := total (h.procs.map (HarqProcess.load w))

theorem load_advance_procs {procs : List (HarqProcess α)} (hs : ∀ p ∈ procs, p.Sound) (t : Tti)
    (roundTrip maxRetx : Nat) (w : Nat → Nat) :
    total (procs.map (HarqProcess.load w)) =
      total ((procs.map fun p ↦ (p.advance t roundTrip maxRetx).1).map (HarqProcess.load w)) +
      droppedLoad w (procs.map fun p ↦ (p.advance t roundTrip maxRetx).2).flatten := by
  induction procs with
  | nil => rfl
  | cons p procs ih =>
      have hp := HarqProcess.load_advance (hs p List.mem_cons_self) t roundTrip maxRetx w
      have hrest := ih fun q hq ↦ hs q (List.mem_cons_of_mem p hq)
      simp only [List.map_cons, total_cons, List.flatten_cons, droppedLoad_append]
      omega

/-- The clock moves blocks from the processes to the queue. -/
theorem load_advance (hs : h.Sound) (t : Tti) (w : Nat → Nat) :
    h.load w + droppedLoad w h.dropped =
      (h.advance t).2.load w + droppedLoad w (h.advance t).2.dropped := by
  rcases h.advance_cases t with ⟨-, heq⟩ | ⟨-, heq⟩
  · rw [heq]
  · have htotal := load_advance_procs hs.blocks t h.roundTrip h.maxRetx w
    rw [heq, droppedLoad_append]
    simp only [load]
    omega

/-- An operation moves bytes between the processes, the queue and its answer. -/
theorem bytes_perform (hs : h.Sound) {op : HarqOp α} (hop : op ≠ .reset) :
    h.pendingBytes + droppedBytes h.dropped + (h.perform op).1.startedBytes =
      (h.perform op).2.pendingBytes + droppedBytes (h.perform op).2.dropped +
        (h.perform op).1.ackedBytes + droppedBytes (h.perform op).1.records := by
  cases op with
  | advance t =>
      simp only [perform, HarqReply.startedBytes, HarqReply.ackedBytes, HarqReply.records,
        droppedBytes_nil]
      exact h.load_advance hs t id
  | newTx pid t sizes alloc =>
      simp only [perform, HarqReply.ackedBytes, HarqReply.records, droppedBytes_nil]
      rcases h.newTx_cases pid t sizes alloc with ⟨e, heq⟩ | ⟨p, hp, hempty, -, heq⟩
      · rw [heq]
        rfl
      · obtain ⟨hzero, hstarted⟩ := HarqProcess.pendingBytes_start hempty t sizes alloc
        have hput := pendingBytes_put hp (p.start t sizes alloc).2
        rw [heq]
        simp only [HarqReply.startedBytes, put] at hput ⊢
        omega
  | newRetx pid t alloc =>
      simp only [perform, HarqReply.startedBytes, HarqReply.ackedBytes, HarqReply.records,
        droppedBytes_nil]
      rcases h.newRetx_cases pid t alloc with ⟨e, heq⟩ | ⟨p, hp, -, heq⟩
      · rw [heq]
      · have hput := pendingBytes_put hp (p.resend t alloc).2
        rw [HarqProcess.pendingBytes_resend] at hput
        rw [heq]
        simp only [put] at hput ⊢
        omega
  | setAck pid tb ack =>
      simp only [perform, HarqReply.startedBytes, HarqReply.ackedBytes, HarqReply.records,
        droppedBytes_nil]
      rcases h.setAck_cases pid tb ack with ⟨e, heq⟩ | ⟨p, hp, heq⟩
      · rw [heq]
        rfl
      · have hfed := HarqProcess.pendingBytes_feedback (hs.of_get? hp).1 tb ack h.roundTrip
          h.maxRetx
        have hput := pendingBytes_put hp (p.feedback tb ack h.roundTrip h.maxRetx).2.1
        rw [heq, droppedBytes_append]
        simp only [put, pendingBytes] at hput ⊢
        omega
  | takeDropped =>
      simp only [perform, takeDropped, HarqReply.startedBytes, HarqReply.ackedBytes,
        HarqReply.records, droppedBytes_nil, pendingBytes]
      omega
  | reset => exact absurd rfl hop

theorem bytes_run (hs : h.Sound) {ops : List (HarqOp α)} (hops : ∀ op ∈ ops, op ≠ .reset) :
    h.pendingBytes + droppedBytes h.dropped +
        total ((h.run ops).1.map HarqReply.startedBytes) =
      (h.run ops).2.pendingBytes + droppedBytes (h.run ops).2.dropped +
        total ((h.run ops).1.map HarqReply.ackedBytes) +
        droppedBytes ((h.run ops).1.flatMap HarqReply.records) := by
  induction ops generalizing h with
  | nil => rfl
  | cons op ops ih =>
      have hstep := bytes_perform hs (hops op List.mem_cons_self)
      have hrest := ih (hs.perform op) fun op' hop' ↦ hops op' (List.mem_cons_of_mem op hop')
      simp only [run, List.map_cons, total_cons, List.flatMap_cons, droppedBytes_append]
      omega

/-! ## Blocks -/

/-- Blocks in flight. -/
def inFlight (h : HarqTable α) : Nat := h.load fun _ ↦ 1

theorem droppedLoad_one (records : List DroppedTb) :
    droppedLoad (fun _ ↦ 1) records = records.length := by
  induction records with
  | nil => rfl
  | cons d records ih =>
      rw [droppedLoad, List.map_cons, total_cons, List.length_cons, Nat.add_comm]
      exact congrArg (· + 1) ih

/-- The clock queues exactly the blocks that it takes out of flight. -/
theorem length_dropped_advance (hs : h.Sound) (t : Tti) :
    (h.advance t).2.dropped.length =
      h.dropped.length + (h.inFlight - (h.advance t).2.inFlight) := by
  have hload := h.load_advance hs t fun _ ↦ 1
  rw [droppedLoad_one, droppedLoad_one] at hload
  have hprefix : h.dropped.length ≤ (h.advance t).2.dropped.length := by
    rcases h.advance_cases t with ⟨-, heq⟩ | ⟨-, heq⟩ <;> simp [heq]
  simp only [inFlight]
  omega

end HarqTable

/-- The block that an answer reports as given up, if any. -/
def nofDropped {ε : Type} : Except ε AckOutcome → Nat
  | .ok (.dropped _) => 1
  | _ => 0

theorem nofDropped_mapError {ε δ : Type} (f : ε → δ) (r : Except ε AckOutcome) :
    nofDropped (r.mapError f) = nofDropped r := by
  cases r with
  | error e => rfl
  | ok o => cases o <;> rfl

/-- Feedback queues a block exactly when it answers that the block is given up. -/
theorem HarqTable.length_dropped_setAck {α : Type} (h : HarqTable α) (pid tb : Nat) (ack : Bool) :
    (h.setAck pid tb ack).2.dropped.length =
      h.dropped.length + nofDropped (h.setAck pid tb ack).1 := by
  rcases h.setAck_cases pid tb ack with ⟨e, heq⟩ | ⟨p, -, heq⟩
  · rw [heq]
    rfl
  · have hspec := p.feedback_spec tb ack h.roundTrip h.maxRetx
    rw [heq]
    generalize p.feedback tb ack h.roundTrip h.maxRetx = out at hspec
    cases hspec <;> simp [nofDropped]

end MacScheduler
