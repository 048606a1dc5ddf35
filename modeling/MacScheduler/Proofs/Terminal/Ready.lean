import MacScheduler.Proofs.Terminal.Formed
import MacScheduler.Proofs.Terminal.Send
import MacScheduler.Proofs.Terminal.Sides

/-!
# Grants that a snapshot asks for

A snapshot asks for what the terminal is ready to grant: the retransmission it asks
for is made on any resources of the same size, and the new data on any resources at
all.  What it asks for in one direction does not depend on the other one, so a grant
in between changes nothing about it.
-/

namespace MacScheduler

theorem HarqProcess.exists_grant_start {α : Type} {p : HarqProcess α} (h : 0 < p.slots.length)
    (t : Tti) (size : Nat × Nat) (alloc : α) :
    ∃ b, (p.start t [size] alloc).1.getLast? = some b := by
  obtain ⟨b, slots, hslots⟩ := List.exists_cons_of_length_pos h
  cases slots <;> simp [start, hslots, startSlots]

theorem HarqProcess.sizes_start {α : Type} {p : HarqProcess α} {sizes : List (Nat × Nat)}
    (h : sizes.length ≤ p.slots.length) (t : Tti) (alloc : α) :
    (p.start t sizes alloc).1.map (·.tbs) = sizes.map Prod.fst := by
  change (startSlots p.slots sizes).2.map (·.tbs) = _
  generalize p.slots = slots at h
  induction sizes generalizing slots with
  | nil => cases slots <;> rfl
  | cons size sizes ih =>
      cases slots with
      | nil => cases h
      | cons b slots => exact congrArg (size.1 :: ·) (ih slots (Nat.le_of_succ_le_succ h))

/-- The size and scheme of each block. -/
def BlockSize.blocks (s : BlockSize) : List (Nat × Nat) := List.replicate s.nofTb (s.tbs, s.mcs)

/-- The blocks that a process starts hold together what they were sized for. -/
theorem HarqProcess.grantedBytes_start {α : Type} {p : HarqProcess α} {size : BlockSize}
    (h : size.nofTb ≤ p.slots.length) (t : Tti) (alloc : α) :
    grantedBytes (p.start t size.blocks alloc).1 = size.total := by
  rw [grantedBytes, sizes_start (by rwa [BlockSize.blocks, List.length_replicate]),
    BlockSize.blocks, List.map_replicate, total_replicate]
  rfl

namespace Link

variable {l : Link} {pid : Nat}

theorem startDownlink_of_isEmpty (hl : l.Formed) (hactive : l.isActive = true)
    {p : HarqProcess RbgMask} (hp : l.dl.get? pid = some p) (hempty : p.isEmpty = true)
    {mask : RbgMask} (hblocks : 0 < mask.nofPrb l.params.nofPrb) {bytes : Nat} (hbytes : 0 < bytes)
    (t : Tti) :
    ∃ l', l.startDownlink t pid mask bytes =
      (.ok (p.start t (l.sizeForPrbs (mask.nofPrb l.params.nofPrb) bytes .downlink).blocks mask).1,
        l') := by
  have htbs := l.tbs_sizeForPrbs_pos hblocks hbytes .downlink
  have hnofTb := l.nofTb_sizeForPrbs_le (mask.nofPrb l.params.nofPrb) bytes .downlink
  have htable := hl.dlShaped.nofTbs_eq
  unfold startDownlink
  generalize l.sizeForPrbs (mask.nofPrb l.params.nofPrb) bytes .downlink = size at htbs hnofTb ⊢
  have hsizes : (List.replicate size.nofTb (size.tbs, size.mcs)).length - 1 < l.dl.nofTbs := by
    rw [List.length_replicate, htable, slotsPerProcess]
    omega
  have hnew := HarqTable.newTx_of_isEmpty hp hempty t hsizes mask
  rw [hactive]
  simp only [Bool.not_true, Bool.false_eq_true, if_false, if_neg (Nat.ne_of_gt htbs), hnew]
  exact ⟨_, rfl⟩

theorem startUplink_of_isEmpty (hl : l.Formed) (hactive : l.isActive = true)
    {p : HarqProcess PrbInterval} (hp : l.ul.get? pid = some p) (hempty : p.isEmpty = true)
    {interval : PrbInterval} (hlen : 0 < interval.len) {bytes : Nat} (hbytes : 0 < bytes)
    (t : Tti) : ∃ b l', b.isRetx = false ∧ l.startUplink t pid interval bytes = (.ok b, l') := by
  have htbs := l.tbs_sizeForPrbs_pos hlen hbytes .uplink
  unfold startUplink
  generalize l.sizeForPrbs interval.len bytes .uplink = size at htbs ⊢
  have hsizes : [(size.tbs, size.mcs)].length - 1 < l.ul.nofTbs := by
    rw [hl.ulShaped.nofTbs_eq]
    exact Nat.one_pos
  have hnew := HarqTable.newTx_of_isEmpty hp hempty t hsizes interval
  have hslots : 0 < p.slots.length := by
    rw [hl.ulShaped.of_get? hp]
    decide
  obtain ⟨b, hlast⟩ := HarqProcess.exists_grant_start hslots t (size.tbs, size.mcs) interval
  refine ⟨b, { l with ul := l.ul.put pid (p.start t [(size.tbs, size.mcs)] interval).2 }, ?_, ?_⟩
  · exact HarqProcess.isRetx_of_mem_start (List.mem_of_getLast? hlast)
  · rw [hactive]
    simp only [Bool.not_true, Bool.false_eq_true, if_false, if_neg (Nat.ne_of_gt htbs), hnew,
      lastGrant, hlast]

theorem of_newTxRequest? {dir : Direction} {pending : Nat} {pid : Option Nat} {q : NewTxRequest}
    (h : l.newTxRequest? dir pending pid = some q) :
    (l.isActive = true ∧ 0 < pending ∧ pid = some q.pid) ∧
      q.pending = pending ∧ q.units = l.unitsForBytes pending dir := by
  unfold newTxRequest? at h
  split at h
  · cases h
  · rename_i hwish
    obtain ⟨hactive, hpending⟩ := not_or.mp hwish
    obtain ⟨pid, rfl, rfl⟩ := Option.map_eq_some_iff.mp h
    exact ⟨⟨by simpa using hactive, Nat.pos_of_ne_zero hpending, rfl⟩, rfl, rfl⟩

end Link

namespace Terminal

variable {now : Tti} {t t' : Terminal} {carrier : Nat} {l l' : Link} {s : Snapshot}

/-- What a snapshot asks for in the downlink is what the link has to send. -/
structure AsksDl (now : Tti) (t : Terminal) (l : Link) (s : Snapshot) : Prop where
  retx : ∀ q, s.dlRetx = some q →
    l.allowsRetx = true ∧ l.dl.retxRequest? now.downlinkTx = some q
  fresh : ∀ q, s.dlNew = some q → s.dlRetx = none ∧ l.isActive = true ∧
    0 < t.downlinkPending ∧ l.dl.emptyProcess? now.downlinkTx = some q.pid
  demand : ∀ q, s.dlNew = some q →
    q.pending = t.downlinkPending ∧ q.units = l.unitsForBytes t.downlinkPending .downlink

structure AsksUl (now : Tti) (t : Terminal) (l : Link) (s : Snapshot) : Prop where
  retx : ∀ q, s.ulRetx = some q →
    l.allowsRetx = true ∧ l.ul.retxRequest? now.uplinkTx = some q
  fresh : ∀ q, s.ulNew = some q → s.ulRetx = none ∧ l.isActive = true ∧
    0 < t.uplinkPending ∧ l.ul.emptyProcess? now.uplinkTx = some q.pid

theorem asks_of_snapshot? (hs : t.snapshot? now carrier = some s) :
    s.rnti = t.rnti ∧ ∃ l, t.link? carrier = some l ∧ t.AsksDl now l s ∧ t.AsksUl now l s := by
  obtain ⟨l, hl, rfl⟩ := Option.map_eq_some_iff.mp hs
  refine ⟨rfl, l, hl, ⟨?_, ?_, ?_⟩, ⟨?_, ?_⟩⟩
  · exact fun q hq ↦ Option.ite_none_right_eq_some.mp hq
  · intro q hq
    obtain ⟨hretx, hwish⟩ := Option.ite_none_left_eq_some.mp hq
    exact ⟨Option.not_isSome_iff_eq_none.mp hretx, (Link.of_newTxRequest? hwish).1⟩
  · intro q hq
    exact (Link.of_newTxRequest? (Option.ite_none_left_eq_some.mp hq).2).2
  · exact fun q hq ↦ Option.ite_none_right_eq_some.mp hq
  · intro q hq
    obtain ⟨hretx, hwish⟩ := Option.ite_none_left_eq_some.mp hq
    exact ⟨Option.not_isSome_iff_eq_none.mp hretx, (Link.of_newTxRequest? hwish).1⟩

theorem AsksUl.of_side (h : t.AsksUl now l s) (ht : t'.uplinkSide = t.uplinkSide)
    (hl : l'.uplinkSide = l.uplinkSide) : t'.AsksUl now l' s := by
  have hstate : l'.state = l.state := congrArg Link.UplinkSide.state hl
  have hul : l'.ul = l.ul := congrArg Link.UplinkSide.procs hl
  have hpending := uplinkPending_of_side ht
  constructor
  · rw [Link.allowsRetx, hstate, hul]
    exact h.retx
  · rw [Link.isActive, hstate, hul, hpending]
    exact h.fresh

/-! ## The grants -/

/-- A fresh downlink grant of a link is sized for all that waits, and filled with it. -/
structure Delivers (t : Terminal) (l : Link) (g : DlGrant) (t' : Terminal) : Prop where
  nofPrb_eq : g.nofPrb = g.mask.nofPrb l.params.nofPrb
  totalBytes_eq : g.totalBytes = (l.sizeForPrbs g.nofPrb t.downlinkPending .downlink).total
  pdus_eq : g.pdus = (t.channels.fill g.totalBytes).1
  channels_eq : t'.channels = (t.channels.fill g.totalBytes).2

section

variable {pid : Nat}

theorem AsksDl.resend (h : t.AsksDl now l s) (hl : t.link? carrier = some l) (hf : l.Formed)
    {q : RetxRequest RbgMask} (hq : s.dlRetx = some q) (hpid : pid = q.pid) {mask : RbgMask}
    (hcount : mask.count = q.alloc.count) (dci : DciLocation) :
    ∃ g, (t.grantDownlink now.downlinkTx carrier pid mask dci).1 = .ok g ∧ g.isRetx = true := by
  obtain ⟨hallows, hask⟩ := h.retx q hq
  obtain ⟨p, hp, hdue, hppid, halloc⟩ := hf.dl.of_retxRequest? hask
  have hget : l.dl.get? pid = some p := hpid ▸ hppid ▸ hf.dl.get?_pid hp
  have htbs : 0 < l.dl.nofTbs := hf.dlShaped.nofTbs_eq ▸ Nat.two_pos
  exact grantDownlink_of_due hl hallows hget hdue htbs halloc hcount dci

theorem AsksDl.start (h : t.AsksDl now l s) (hl : t.link? carrier = some l) (hf : l.Formed)
    {q : NewTxRequest} (hq : s.dlNew = some q) (hpid : pid = q.pid) {mask : RbgMask}
    (hblocks : 0 < mask.nofPrb l.params.nofPrb) (dci : DciLocation) :
    ∃ g, (t.grantDownlink now.downlinkTx carrier pid mask dci).1 = .ok g ∧ g.isRetx = false ∧
      t.Delivers l g (t.grantDownlink now.downlinkTx carrier pid mask dci).2 := by
  obtain ⟨-, hactive, hpending, hask⟩ := h.fresh q hq
  obtain ⟨p, hp, hempty⟩ := hf.dl.of_emptyProcess? (hpid ▸ hask)
  have hquiet := HarqProcess.hasPendingRetx_of_isEmpty hempty now.downlinkTx
  obtain ⟨l', hstart⟩ :=
    Link.startDownlink_of_isEmpty hf hactive hp hempty hblocks hpending now.downlinkTx
  have hslots : (l.sizeForPrbs (mask.nofPrb l.params.nofPrb) t.downlinkPending .downlink).nofTb ≤
      p.slots.length := by
    rw [hf.dlShaped.of_get? hp]
    exact l.nofTb_sizeForPrbs_le _ _ _
  have hbytes := HarqProcess.grantedBytes_start hslots now.downlinkTx mask
  have hfresh : ∀ sizes, ∀ b ∈ (p.start now.downlinkTx sizes mask).1, ¬b.isRetx = true := by
    intro sizes b hb
    rw [HarqProcess.isRetx_of_mem_start hb]
    exact Bool.false_ne_true
  unfold grantDownlink
  rw [hl]
  dsimp only
  rw [if_neg (by simp [hp, hquiet]), hstart]
  exact ⟨_, rfl, List.any_eq_false.mpr (hfresh _), rfl, hbytes, rfl, rfl⟩

theorem AsksUl.resend (h : t.AsksUl now l s) (hl : t.link? carrier = some l) (hf : l.Formed)
    {q : RetxRequest PrbInterval} (hq : s.ulRetx = some q) (hpid : pid = q.pid)
    {interval : PrbInterval} (hlen : interval.len = q.alloc.len) (dci : Option DciLocation) :
    ∃ g, (t.grantUplink now.uplinkTx carrier pid interval dci).1 = .ok g ∧
      g.tb.isRetx = true := by
  obtain ⟨hallows, hask⟩ := h.retx q hq
  obtain ⟨p, hp, hdue, hppid, halloc⟩ := hf.ul.of_retxRequest? hask
  have hget : l.ul.get? pid = some p := hpid ▸ hppid ▸ hf.ul.get?_pid hp
  have htbs : 0 < l.ul.nofTbs := hf.ulShaped.nofTbs_eq ▸ Nat.one_pos
  obtain ⟨g, t', hgrant, hretx, -⟩ :=
    grantUplink_of_due hl hallows hget hdue htbs halloc hlen dci
  exact ⟨g, congrArg Prod.fst hgrant, hretx⟩

theorem AsksUl.start (h : t.AsksUl now l s) (hl : t.link? carrier = some l) (hf : l.Formed)
    {q : NewTxRequest} (hq : s.ulNew = some q) (hpid : pid = q.pid) {interval : PrbInterval}
    (hlen : 0 < interval.len) (dci : Option DciLocation) :
    ∃ g, (t.grantUplink now.uplinkTx carrier pid interval dci).1 = .ok g ∧
      g.tb.isRetx = false := by
  obtain ⟨-, hactive, hpending, hask⟩ := h.fresh q hq
  obtain ⟨p, hp, hempty⟩ := hf.ul.of_emptyProcess? (hpid ▸ hask)
  have hquiet := HarqProcess.hasPendingRetx_of_isEmpty hempty now.uplinkTx
  obtain ⟨b, l', hretx, hstart⟩ :=
    Link.startUplink_of_isEmpty hf hactive hp hempty hlen hpending now.uplinkTx
  unfold grantUplink
  rw [hl]
  dsimp only
  rw [if_neg (by simp [hp, hquiet]), hstart]
  exact ⟨_, rfl, hretx⟩

end

end Terminal

end MacScheduler
