import MacScheduler.Proofs.Harq.Timing

/-!
# Chains of transmissions

The transmissions of a block form a chain: a first one, and retransmissions one
round trip apart that repeat it.  What an operation sends from a slot is read
off its answer; the chains of a slot are then built operation by operation.
-/

namespace MacScheduler

structure Sent where
  t : Tti
  grant : TbGrant
deriving DecidableEq

/-- A block and the number of its retransmissions. -/
structure Chain where
  first : Tti
  tbs : Nat
  mcs : Nat
  ndi : Bool
  nofRetx : Nat
deriving DecidableEq

namespace Chain

def nth (roundTrip : Nat) (c : Chain) (k : Nat) : Sent :=
  ⟨c.first + k * roundTrip,
    { tbs := c.tbs, mcs := c.mcs, ndi := c.ndi, rv := redundancyVersion k,
      isRetx := decide (0 < k) }⟩

def sent (roundTrip : Nat) (c : Chain) : List Sent :=
  (List.range (c.nofRetx + 1)).map (c.nth roundTrip)

theorem sent_extend (roundTrip : Nat) (c : Chain) :
    ({ c with nofRetx := c.nofRetx + 1 } : Chain).sent roundTrip =
      c.sent roundTrip ++ [c.nth roundTrip (c.nofRetx + 1)] := by
  simp only [sent]
  rw [List.range_succ, List.map_append]
  rfl

/-- The new-data indicator after the last of some chains. -/
def lastNdi (before : Bool) (cs : List Chain) : Bool := (cs.getLast?.map (·.ndi)).getD before

/-- Each chain has the opposite indicator of the one before it. -/
def Alternate : Bool → List Chain → Prop
  | _, [] => True
  | before, c :: cs => c.ndi = !before ∧ Alternate c.ndi cs

theorem lastNdi_cons (before : Bool) (c : Chain) (cs : List Chain) :
    lastNdi before (c :: cs) = lastNdi c.ndi cs := by
  cases hlast : cs.getLast? with
  | none => simp [lastNdi, List.getLast?_eq_none_iff.mp hlast]
  | some d => simp [lastNdi, List.getLast?_cons, hlast]

theorem lastNdi_concat (before : Bool) (cs : List Chain) (c : Chain) :
    lastNdi before (cs ++ [c]) = c.ndi := by
  simp [lastNdi]

theorem alternate_concat_iff {before : Bool} {cs : List Chain} {c : Chain} :
    Alternate before (cs ++ [c]) ↔ Alternate before cs ∧ c.ndi = !lastNdi before cs := by
  induction cs generalizing before with
  | nil => simp [Alternate, lastNdi]
  | cons d cs ih => rw [List.cons_append, Alternate, Alternate, ih, lastNdi_cons, and_assoc]

end Chain

/-! ## What an operation does to a slot -/

/-- What an operation does to a slot, whose process was last sent at a given point: it
sends nothing, or starts a block, or sends a block again. -/
inductive SlotMove (roundTrip maxRetx : Nat) :
    Option Tti → TbSlot → Option Tti → TbSlot → Option Sent → Prop
  | quiet {tx tx' : Option Tti} {b b' : TbSlot} (ndi : b'.ndi = b.ndi)
      (kept : b'.state ≠ .empty → b.state ≠ .empty ∧ b'.tbs = b.tbs ∧ b'.mcs = b.mcs ∧
        b'.nofRetx = b.nofRetx ∧ tx' = tx)
      (bound : b'.isPendingRetx = true → b.isPendingRetx = true ∨ b.nofRetx < maxRetx) :
      SlotMove roundTrip maxRetx tx b tx' b' none
  | started {tx : Option Tti} {b : TbSlot} (t : Tti) (tbs mcs : Nat) :
      SlotMove roundTrip maxRetx tx b (some t) (b.start tbs mcs)
        (some ⟨t, (b.start tbs mcs).grant false⟩)
  | resent {tx : Tti} {b : TbSlot} (hpending : b.isPendingRetx = true) :
      SlotMove roundTrip maxRetx (some tx) b (some (tx + roundTrip)) b.resend
        (some ⟨tx + roundTrip, b.resend.grant true⟩)

namespace SlotMove

variable {roundTrip maxRetx : Nat} {tx tx' : Option Tti} {b b' : TbSlot}

theorem same (tx : Option Tti) (b : TbSlot) : SlotMove roundTrip maxRetx tx b tx b none :=
  .quiet rfl (fun h ↦ ⟨h, rfl, rfl, rfl, rfl⟩) .inl

/-- An empty slot that stays empty carries no block whatever its process does. -/
theorem empty (hempty : b'.state = .empty) (hndi : b'.ndi = b.ndi) :
    SlotMove roundTrip maxRetx tx b tx' b' none :=
  .quiet hndi (fun h ↦ absurd hempty h) (fun hp ↦ by simp [TbSlot.isPendingRetx, hempty] at hp)

theorem negative (tx : Option Tti) (hstate : b.state ≠ .empty) (hretx : b.nofRetx < maxRetx) :
    SlotMove roundTrip maxRetx tx b tx
      { b with state := .activeRetx, awaiting := false, lastAck := some false } none :=
  .quiet rfl (fun _ ↦ ⟨hstate, rfl, rfl, rfl, rfl⟩) fun _ ↦ .inr hretx

end SlotMove

/-! ## The chains of a slot -/

/-- A slot follows its chains: they make up the transmissions so far, and the block in
flight is the one of the last chain. -/
structure Follows (roundTrip maxRetx : Nat) (history : List Sent) (chains : List Chain)
    (tx : Option Tti) (b : TbSlot) : Prop where
  sent : history = chains.flatMap (Chain.sent roundTrip)
  bounded : ∀ c ∈ chains, c.nofRetx ≤ maxRetx
  alternate : Chain.Alternate false chains
  ndi : b.ndi = Chain.lastNdi false chains
  last : b.state ≠ .empty → ∃ (cs : List Chain) (c : Chain), chains = cs ++ [c] ∧
    c.tbs = b.tbs ∧ c.mcs = b.mcs ∧ c.nofRetx = b.nofRetx ∧
    tx = some (c.first + c.nofRetx * roundTrip)
  pending : b.isPendingRetx = true → b.nofRetx < maxRetx

namespace Follows

variable {roundTrip maxRetx : Nat} {history : List Sent} {chains : List Chain}
  {tx tx' : Option Tti} {b b' : TbSlot} {out : Option Sent}

theorem start (h : Follows roundTrip maxRetx history chains tx b) (t : Tti) (tbs mcs : Nat) :
    Follows roundTrip maxRetx (history ++ [⟨t, (b.start tbs mcs).grant false⟩])
      (chains ++ [⟨t, tbs, mcs, !b.ndi, 0⟩]) (some t) (b.start tbs mcs) where
  sent := by
    rw [h.sent, List.flatMap_append]
    simp [Chain.sent, Chain.nth, TbSlot.grant, TbSlot.start]
  bounded := by
    intro c hc
    rcases List.mem_append.mp hc with hc | hc
    · exact h.bounded c hc
    · rw [List.mem_singleton.mp hc]
      exact Nat.zero_le _
  alternate := Chain.alternate_concat_iff.mpr ⟨h.alternate, congrArg (!·) h.ndi⟩
  ndi := (Chain.lastNdi_concat false chains ⟨t, tbs, mcs, !b.ndi, 0⟩).symm
  last := fun _ ↦ ⟨chains, _, rfl, rfl, rfl, rfl, by simp⟩
  pending := by simp [TbSlot.isPendingRetx, TbSlot.start]

theorem resend {tx : Tti} (h : Follows roundTrip maxRetx history chains (some tx) b)
    (hpending : b.isPendingRetx = true) :
    ∃ chains', Follows roundTrip maxRetx
      (history ++ [⟨tx + roundTrip, b.resend.grant true⟩]) chains' (some (tx + roundTrip))
      b.resend := by
  have hstate : b.state ≠ .empty := by simp [(TbSlot.isPendingRetx_iff.mp hpending).1]
  obtain ⟨cs, c, rfl, htbs, hmcs, hretx, htx⟩ := h.last hstate
  have hndi : b.ndi = c.ndi := by rw [h.ndi, Chain.lastNdi_concat]
  have hdue : tx + roundTrip = c.first + (c.nofRetx + 1) * roundTrip := by
    rw [Option.some.inj htx, Tti.add_add, Nat.add_mul, Nat.one_mul]
  refine ⟨cs ++ [{ c with nofRetx := c.nofRetx + 1 }], ?_⟩
  exact
    { sent := by
        have hnext : c.nth roundTrip (c.nofRetx + 1) =
            ⟨tx + roundTrip, b.resend.grant true⟩ := by
          simp [Chain.nth, TbSlot.grant, TbSlot.resend, hdue, htbs, hmcs, hretx, hndi]
        rw [h.sent, List.flatMap_append, List.flatMap_append, List.append_assoc]
        simp only [List.flatMap_cons, List.flatMap_nil, List.append_nil]
        rw [Chain.sent_extend, hnext]
      bounded := by
        intro d hd
        rcases List.mem_append.mp hd with hd | hd
        · exact h.bounded d (List.mem_append_left _ hd)
        · have := h.pending hpending
          rw [List.mem_singleton.mp hd]
          change c.nofRetx + 1 ≤ maxRetx
          omega
      alternate := by
        obtain ⟨hcs, hc⟩ := Chain.alternate_concat_iff.mp h.alternate
        exact Chain.alternate_concat_iff.mpr ⟨hcs, hc⟩
      ndi := by
        rw [Chain.lastNdi_concat]
        exact hndi
      last := fun _ ↦ ⟨cs, _, rfl, htbs, hmcs, congrArg (· + 1) hretx, congrArg some hdue⟩
      pending := by simp [TbSlot.isPendingRetx, TbSlot.resend] }

/-- Whatever an operation does to a slot, the slot goes on following its chains. -/
theorem step (h : Follows roundTrip maxRetx history chains tx b)
    (hmove : SlotMove roundTrip maxRetx tx b tx' b' out) :
    ∃ chains', Follows roundTrip maxRetx (history ++ out.toList) chains' tx' b' := by
  cases hmove with
  | quiet hndi kept bound =>
      refine ⟨chains, ?_⟩
      exact
        { sent := by simpa using h.sent
          bounded := h.bounded
          alternate := h.alternate
          ndi := hndi.trans h.ndi
          last := by
            intro hstate
            obtain ⟨hbefore, htbs, hmcs, hretx, htx⟩ := kept hstate
            rw [htbs, hmcs, hretx, htx]
            exact h.last hbefore
          pending := by
            intro hp
            have hstate : b'.state ≠ .empty := by simp [(TbSlot.isPendingRetx_iff.mp hp).1]
            rw [(kept hstate).2.2.2.1]
            exact (bound hp).elim h.pending id }
  | started t tbs mcs => exact ⟨_, h.start t tbs mcs⟩
  | resent hpending => exact h.resend hpending

end Follows

/-! ## Moves of a process -/

namespace HarqProcess

variable {α : Type} {p : HarqProcess α} {tb : Nat} {b : TbSlot}

/-- Where the grant of a slot stands among those of a retransmission, which lists the
slots to be sent again in order. -/
def retxIndex? (p : HarqProcess α) (tb : Nat) : Option Nat :=
  if p.slots[tb]?.any TbSlot.isPendingRetx then
    some ((p.slots.take tb).countP TbSlot.isPendingRetx)
  else none

theorem AdvancedSlot.move {now tx : Tti} {roundTrip maxRetx pid : Nat} {due : Option Tti}
    {out : TbSlot × Option Tti × List DroppedTb} (hb : b.Sound)
    (h : AdvancedSlot now tx roundTrip maxRetx pid tb due b out) (sent : Option Tti) :
    SlotMove roundTrip maxRetx sent b sent out.1 none := by
  cases h with
  | kept => exact .same sent b
  | timedOut hawait hlate hretx => exact .negative sent (hb.not_empty hawait) hretx
  | exhausted => exact .empty rfl rfl
  | overshot => exact .empty rfl rfl
  | missed => exact .empty rfl rfl

theorem move_advance (hs : p.Sound) (now : Tti) (roundTrip maxRetx : Nat)
    (hb : p.slots[tb]? = some b) :
    ∃ b', (p.advance now roundTrip maxRetx).1.slots[tb]? = some b' ∧
      SlotMove roundTrip maxRetx p.txTti b (p.advance now roundTrip maxRetx).1.txTti b' none := by
  rcases p.advance_eq now roundTrip maxRetx with ⟨-, heq⟩ | ⟨tx, -, heq⟩
  · rw [heq]
    exact ⟨b, hb, .same _ b⟩
  · obtain ⟨-, -, hslots⟩ := advanceSlots_spec now tx roundTrip maxRetx p.pid 0 p.retxTti p.slots
    obtain ⟨due, -, hout, -⟩ := hslots tb b hb
    rw [heq, slots_settle, txTti_settle]
    exact ⟨_, hout, (advanceSlot_spec _ _ _ _ _ _ _ _).move
      (hs b (List.mem_of_getElem? hb)) p.txTti⟩

theorem move_start (hempty : p.isEmpty = true) (roundTrip maxRetx : Nat) (t : Tti)
    (sizes : List (Nat × Nat)) (alloc : α) (hb : p.slots[tb]? = some b) :
    ∃ b', (p.start t sizes alloc).2.slots[tb]? = some b' ∧
      SlotMove roundTrip maxRetx p.txTti b (some t) b'
        ((p.start t sizes alloc).1[tb]?.map (Sent.mk t)) := by
  have hstate := isEmpty_iff.mp hempty b (List.mem_of_getElem? hb)
  change ∃ b', (startSlots p.slots sizes).1[tb]? = some b' ∧
    SlotMove roundTrip maxRetx p.txTti b (some t) b'
      ((startSlots p.slots sizes).2[tb]?.map (Sent.mk t))
  rw [getElem?_startSlots, getElem?_startSlots_grants, hb]
  cases sizes[tb]? with
  | none => exact ⟨b, rfl, .empty hstate rfl⟩
  | some size => exact ⟨_, rfl, .started t size.1 size.2⟩

theorem getElem?_filter {slots : List TbSlot} {q : TbSlot → Bool} {tb : Nat}
    (hb : slots[tb]? = some b) (hq : q b = true) :
    (slots.filter q)[(slots.take tb).countP q]? = some b := by
  induction slots generalizing tb with
  | nil => simp at hb
  | cons c slots ih =>
      cases tb with
      | zero =>
          obtain rfl : c = b := by simpa using hb
          simp [hq]
      | succ tb =>
          have hrest := ih (by simpa using hb : slots[tb]? = some b)
          cases hc : q c with
          | false => simpa [hc] using hrest
          | true => simpa [hc] using hrest

theorem move_resend {roundTrip elapsed : Nat} {now tx : Tti} (hs : p.Sound)
    (hflight : p.InFlight roundTrip now tx elapsed) (hr : roundTrip ≤ 5119)
    (hdue : p.hasPendingRetx now = true) (maxRetx : Nat) (alloc : α)
    (hb : p.slots[tb]? = some b) :
    ∃ b', (p.resend now alloc).2.slots[tb]? = some b' ∧
      SlotMove roundTrip maxRetx p.txTti b (some now) b'
        (((p.retxIndex? tb).bind ((p.resend now alloc).1[·]?)).map (Sent.mk now)) := by
  obtain ⟨rfl, hidle⟩ := hflight.of_hasPendingRetx hr hdue
  have hmem := List.mem_of_getElem? hb
  have hafter : (p.resend now alloc).2.slots[tb]? =
      some (if b.isPendingRetx then b.resend else b) := by
    simp only [resend, List.getElem?_map, hb, Option.map_some]
  rw [hafter]
  cases hpending : b.isPendingRetx with
  | false =>
      have hindex : p.retxIndex? tb = none := by simp [retxIndex?, hb, hpending]
      rw [hindex]
      exact ⟨b, rfl, .empty ((hs b hmem).eq_empty (hidle b hmem) hpending) rfl⟩
  | true =>
      have hindex : p.retxIndex? tb = some ((p.slots.take tb).countP TbSlot.isPendingRetx) := by
        simp [retxIndex?, hb, hpending]
      have hgrant : (p.resend now alloc).1[(p.slots.take tb).countP TbSlot.isPendingRetx]? =
          some (b.resend.grant true) := by
        simp only [resend, List.getElem?_map, getElem?_filter hb hpending, Option.map_some]
      rw [hindex, Option.bind_some, hgrant, hflight.sent, hflight.now_eq]
      exact ⟨b.resend, rfl, .resent hpending⟩

theorem move_feedback (hs : p.Sound) (i : Nat) (ack : Bool) (roundTrip maxRetx : Nat)
    (hb : p.slots[tb]? = some b) :
    ∃ b', (p.feedback i ack roundTrip maxRetx).2.1.slots[tb]? = some b' ∧
      SlotMove roundTrip maxRetx p.txTti b (p.feedback i ack roundTrip maxRetx).2.1.txTti b'
        none := by
  have hspec := p.feedback_spec i ack roundTrip maxRetx
  generalize p.feedback i ack roundTrip maxRetx = out at hspec
  -- the answer is about slot `i`; the block of another slot stays as it is
  have hset : ∀ {c c' : TbSlot}, p.slots[i]? = some c →
      SlotMove roundTrip maxRetx p.txTti c p.txTti c' none →
      ∃ b', (p.slots.set i c')[tb]? = some b' ∧
        SlotMove roundTrip maxRetx p.txTti b p.txTti b' none := by
    intro c c' hc hmove
    by_cases hi : i = tb
    · subst hi
      obtain rfl : b = c := Option.some.inj (hb.symm.trans hc)
      have hlt : i < p.slots.length := (List.getElem?_eq_some_iff.mp hb).1
      exact ⟨c', by simp [hlt], hmove⟩
    · exact ⟨b, by simp [hi, hb], .same _ b⟩
  cases hspec with
  | absent => exact ⟨b, hb, .same _ b⟩
  | repeated => exact ⟨b, hb, .same _ b⟩
  | refused => exact ⟨b, hb, .same _ b⟩
  | lateAck hslot =>
      rw [slots_settle, txTti_settle]
      exact hset hslot (.empty rfl rfl)
  | acked hslot =>
      rw [slots_settle, txTti_settle]
      exact hset hslot (.empty rfl rfl)
  | nacked hslot hawait htx hack hretx =>
      rw [slots_settle, txTti_settle]
      have hstate := (hs _ (List.mem_of_getElem? hslot)).not_empty hawait
      exact hset hslot (.negative _ hstate hretx)
  | dropped hslot =>
      rw [slots_settle, txTti_settle]
      exact hset hslot (.empty rfl rfl)

end HarqProcess

end MacScheduler
