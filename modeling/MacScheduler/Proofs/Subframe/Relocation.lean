import MacScheduler.Proofs.Subframe.Precedence
import MacScheduler.Proofs.Terminal.Commit

/-!
# Repeating a block on other groups

A downlink block is sent again on as many groups as before, in the plan and by the
link.  Groups are counted, not the resource blocks they cover: where the last group of
the carrier is a short one and only one of the two masks holds it, the block is sent
again on fewer or more resource blocks than it was sized for.
-/

namespace MacScheduler

namespace RbgMask

/-- `m` takes the place of `o` on a carrier of `n` resource blocks: it has as many groups, and
it covers as many resource blocks exactly if the last group of the carrier is a full one, or
belongs to both or to neither. -/
structure Replaces (n : Nat) (o m : RbgMask) : Prop where
  count_eq : m.count = o.count
  nofPrb_eq_iff : m.nofPrb n = o.nofPrb n ↔
    shortfall n = 0 ∨ m.test (nofRbgs n - 1) = o.test (nofRbgs n - 1)

theorem replaces_of_count_eq {n : Nat} {o m : RbgMask} (hn : nofRbgs n ≤ 64)
    (ho : o.OfCarrier (nofRbgs n)) (hm : m.OfCarrier (nofRbgs n)) (hcount : m.count = o.count) :
    Replaces n o m where
  count_eq := hcount
  nofPrb_eq_iff := by
    have hcovered := (nofPrb_add hm hn).trans (hcount ▸ (nofPrb_add ho hn).symm)
    cases hlastM : m.test (nofRbgs n - 1) <;> cases hlastO : o.test (nofRbgs n - 1) <;>
      simp only [hlastM, hlastO, if_true, Bool.false_eq_true, if_false] at hcovered <;>
      simp only [Bool.false_eq_true, Bool.true_eq_false, or_false, or_true, iff_true] <;>
      omega

end RbgMask

/-! ## In the plan -/

namespace SubframePlan

variable {p : CellParams} {snapshots : List Snapshot}

/-- Each planned retransmission is that of its terminal, on groups in the place of its own. -/
theorem retxDownlink_replaces (hp : p.nofPrb ≤ 128) (hnodup : (snapshots.map (·.rnti)).Nodup)
    (hdl : ∀ s ∈ snapshots, ∀ q, s.dlRetx = some q → q.alloc.OfCarrier p.nofRbg) {d : DlPlan}
    (hd : d ∈ (retxDownlink p snapshots).1) {s : Snapshot} (hs : s ∈ snapshots)
    (hrnti : s.rnti = d.rnti) :
    ∃ q, s.dlRetx = some q ∧ d.pid = q.pid ∧ q.alloc.Replaces p.nofPrb d.mask := by
  obtain ⟨t, ht, hsame, q, hq, hpid, hcount⟩ := retxDownlink_repeats p d hd
  obtain rfl := List.inj_on_of_nodup_map hnodup hs ht (hrnti.trans hsame)
  exact ⟨q, hq, hpid, RbgMask.replaces_of_count_eq (RbgMask.nofRbgs_le hp) (hdl s hs q hq)
    (retxDownlink_inside snapshots hp hdl d hd) hcount⟩

end SubframePlan

/-! ## By the link -/

/-- A block is granted again at the size and with the scheme it was sent with. -/
theorem HarqProcess.of_mem_resend {α : Type} {p : HarqProcess α} {t : Tti} {alloc : α}
    {g : TbGrant} (hg : g ∈ (p.resend t alloc).1) :
    ∃ b ∈ p.slots, b.isPendingRetx = true ∧ g.tbs = b.tbs ∧ g.mcs = b.mcs := by
  obtain ⟨b, hb, rfl⟩ := List.mem_map.mp hg
  obtain ⟨hmem, hpending⟩ := List.mem_filter.mp hb
  exact ⟨b, hmem, hpending, rfl, rfl⟩

/-- The blocks to send again have the size that their scheme has on the groups of `alloc`. -/
def HarqProcess.SizedFor (n : Nat) (alloc : RbgMask) (p : HarqProcess RbgMask) : Prop :=
  ∀ b ∈ p.slots, b.isPendingRetx = true → b.tbs = tbsBytes b.mcs (alloc.nofPrb n) .downlink

theorem HarqProcess.SizedFor.resend {n : Nat} {p : HarqProcess RbgMask} {alloc mask : RbgMask}
    (hp : p.SizedFor n alloc) (hsame : mask.nofPrb n = alloc.nofPrb n) (t : Tti) :
    ∀ g ∈ (p.resend t mask).1, g.tbs = tbsBytes g.mcs (mask.nofPrb n) .downlink := by
  intro g hg
  obtain ⟨b, hb, hpending, htbs, hmcs⟩ := of_mem_resend hg
  rw [htbs, hmcs, hsame, hp b hb hpending]

theorem Link.of_resendDownlink {l : Link} {tx : Tti} {pid : Nat} {mask : RbgMask}
    {grants : List TbGrant} (h : (l.resendDownlink tx pid mask).1 = .ok grants) :
    ∃ proc alloc, l.dl.get? pid = some proc ∧ proc.alloc = some alloc ∧
      mask.count = alloc.count ∧ grants = (proc.resend tx mask).1 := by
  rcases l.resendDownlink_cases tx pid mask with
    ⟨e, heq⟩ | ⟨proc, alloc, -, hproc, -, halloc, hcount, heq⟩
  · rw [heq] at h
    cases h
  · rw [heq] at h
    exact ⟨proc, alloc, hproc, halloc, hcount.symm, (Except.ok.inj h).symm⟩

namespace SubframePlan

variable {p : CellParams} {snapshots : List Snapshot}

/-- Whether planned or accepted, a retransmission goes to as many groups as before, and to as
many resource blocks exactly if the last group is a full one, or in both masks or in neither.
On as many resource blocks a block keeps the size that its scheme denotes. -/
theorem retransmission_replaces_groups (order : Direction → List Candidate → List Candidate)
    (hcell : p.cell.violations = []) (hnodup : (snapshots.map (·.rnti)).Nodup)
    (hdl : ∀ s ∈ snapshots, ∀ q, s.dlRetx = some q → q.alloc.OfCarrier p.nofRbg) :
    (make p order snapshots).dl =
        (retxDownlink p snapshots).1 ++ (newDownlink p order snapshots).1 ∧
      (∀ d ∈ (retxDownlink p snapshots).1, ∀ s ∈ snapshots, s.rnti = d.rnti →
        ∃ q, s.dlRetx = some q ∧ d.pid = q.pid ∧ q.alloc.Replaces p.nofPrb d.mask) ∧
      ∀ (l : Link) (tx : Tti) (pid : Nat) (mask : RbgMask) (grants : List TbGrant),
        l.params = p → mask.OfCarrier p.nofRbg →
        (l.resendDownlink tx pid mask).1 = .ok grants →
        ∃ proc alloc, l.dl.get? pid = some proc ∧ proc.alloc = some alloc ∧
          mask.count = alloc.count ∧
          (alloc.OfCarrier p.nofRbg → alloc.Replaces p.nofPrb mask) ∧
          (mask.nofPrb p.nofPrb = alloc.nofPrb p.nofPrb → proc.SizedFor p.nofPrb alloc →
            ∀ g ∈ grants, g.tbs = tbsBytes g.mcs (mask.nofPrb p.nofPrb) .downlink) := by
  have hp : p.nofPrb ≤ 128 := Nat.le_trans (CellConfig.nofPrb_le hcell) (by decide)
  refine ⟨rfl, fun d hd s hs ↦ retxDownlink_replaces hp hnodup hdl hd hs, ?_⟩
  intro l tx pid mask grants hl hmask hok
  obtain ⟨proc, alloc, hproc, halloc, hcount, rfl⟩ := Link.of_resendDownlink hok
  exact ⟨proc, alloc, hproc, halloc, hcount,
    fun hold ↦ RbgMask.replaces_of_count_eq (RbgMask.nofRbgs_le hp) hold hmask hcount,
    fun hsame hsized ↦ hsized.resend hsame tx⟩

/-- A link with a block that was sent on the last group but one and is due again. -/
def lostLink : Link :=
  let l := (Link.create ⟨71⟩ 0 ⟨0, {}, {}, 160, 0⟩ true 3 none none).startDownlink (Tti.ofNat 4) 5
    (.ofRange 13 11 1) 100
  { l.2 with dl := (l.2.dl.setAck 5 0 false).2 }

/-- The second terminal asks for groups of the first and is moved to others, none of them the
last group; and a link accepts another group that is not the last one. -/
theorem moved_groups_cover_as_much :
    let p : CellParams := ⟨0, {}, {}, 160, 0⟩
    p.cell.violations = [] ∧ (repeatingSnapshots.map (·.rnti)).Nodup ∧
      (∀ s ∈ repeatingSnapshots, ∀ q, s.dlRetx = some q → q.alloc.OfCarrier p.nofRbg) ∧
      ((retxDownlink p repeatingSnapshots).1.map fun d ↦ (d.rnti.val, d.mask.toList)) =
        [(70, [0, 1, 2, 3]), (71, [4, 5, 6, 7])] ∧
      (∀ d ∈ (retxDownlink p repeatingSnapshots).1, ∀ s ∈ repeatingSnapshots, s.rnti = d.rnti →
        ∃ q, s.dlRetx = some q ∧ d.mask.nofPrb 25 = q.alloc.nofPrb 25) ∧
      lostLink.params = p ∧
      (lostLink.dl.get? 5).bind (·.alloc) = some (.ofRange 13 11 1) ∧
      (lostLink.resendDownlink (Tti.ofNat 12) 5 (.ofRange 13 3 1)).1 =
        .ok [⟨tbsBytes 0 2 .downlink, 0, true, 2, true⟩] ∧
      (RbgMask.ofRange 13 11 1).Replaces p.nofPrb (.ofRange 13 3 1) := by
  intro p
  have hcell : p.cell.violations = [] := by decide
  have hnodup : (repeatingSnapshots.map (·.rnti)).Nodup := by decide
  have hgroups : p.nofRbg = 13 := by decide
  have hdl : ∀ s ∈ repeatingSnapshots, ∀ q, s.dlRetx = some q → q.alloc.OfCarrier p.nofRbg := by
    rw [hgroups]
    simp only [repeatingSnapshots, List.forall_mem_cons, Option.some.injEq, forall_eq']
    exact ⟨RbgMask.ofCarrier_ofRange 13 0 4, RbgMask.ofCarrier_ofRange 13 2 4, by simp⟩
  have hmasks : ((retxDownlink p repeatingSnapshots).1.map fun d ↦ (d.rnti.val, d.mask.toList)) =
      [(70, [0, 1, 2, 3]), (71, [4, 5, 6, 7])] := by
    rw [retxDownlink, retxBatch_of_pairwise (by decide +kernel)]
    decide +kernel
  have hlast : ∀ d ∈ (retxDownlink p repeatingSnapshots).1, d.mask.test 12 = false := by
    rw [retxDownlink, retxBatch_of_pairwise (by decide +kernel)]
    decide +kernel
  have hown : ∀ s ∈ repeatingSnapshots, ∀ q, s.dlRetx = some q → q.alloc.test 12 = false := by
    decide +kernel
  have hparams : lostLink.params = p := rfl
  have hsent : (lostLink.dl.get? 5).bind (·.alloc) = some (.ofRange 13 11 1) := by decide +kernel
  have hresent : (lostLink.resendDownlink (Tti.ofNat 12) 5 (.ofRange 13 3 1)).1 =
      .ok [⟨tbsBytes 0 2 .downlink, 0, true, 2, true⟩] := by decide +kernel
  obtain ⟨-, hplanned, haccepted⟩ :=
    retransmission_replaces_groups (fun _ cs ↦ cs) hcell hnodup hdl
  refine ⟨hcell, hnodup, hdl, hmasks, fun d hd s hs hrnti ↦ ?_, hparams, hsent, hresent, ?_⟩
  · obtain ⟨q, hq, -, hreplaces⟩ := hplanned d hd s hs hrnti
    refine ⟨q, hq, hreplaces.nofPrb_eq_iff.mpr (.inr ?_)⟩
    change d.mask.test (p.nofRbg - 1) = q.alloc.test (p.nofRbg - 1)
    rw [hgroups]
    exact (hlast d hd).trans (hown s hs q hq).symm
  · rw [hgroups] at haccepted
    obtain ⟨proc, alloc, hproc, halloc, -, hreplaces, -⟩ := haccepted lostLink _ 5 _ _ hparams
      (RbgMask.ofCarrier_ofRange 13 3 1) hresent
    rw [hproc, Option.bind_some, halloc] at hsent
    obtain rfl := Option.some.inj hsent
    exact hreplaces (RbgMask.ofCarrier_ofRange 13 11 1)

/-- A terminal repeats a block on all groups but the last, and another one on the last of
them. -/
def corneredSnapshots : List Snapshot :=
  [⟨⟨70⟩, 0, [0], some ⟨3, .ofRange 13 0 12⟩, none, none, none⟩,
    ⟨⟨71⟩, 0, [1], some ⟨5, .ofRange 13 11 1⟩, none, none, none⟩]

/-- The second terminal is left the last group, which has one resource block instead of two,
and its link accepts it: the block goes out at the size of two. -/
theorem last_group_shrinks_retransmission :
    let p : CellParams := ⟨0, {}, {}, 160, 0⟩
    p.cell.violations = [] ∧ (corneredSnapshots.map (·.rnti)).Nodup ∧
      (∀ s ∈ corneredSnapshots, s.WellFormed p) ∧
      (corneredSnapshots.map fun s ↦ (s.rnti.val, s.dlRetx.map fun q ↦ q.alloc.nofPrb p.nofPrb)) =
        [(70, some 24), (71, some 2)] ∧
      ((make p (fun _ cs ↦ cs) corneredSnapshots).dl.map fun d ↦
        (d.rnti.val, d.mask.nofPrb p.nofPrb)) = [(70, 24), (71, 1)] ∧
      ((lostLink.dl.get? 5).bind (·.alloc)).map (·.nofPrb p.nofPrb) = some 2 ∧
      (RbgMask.ofRange 13 12 1).nofPrb p.nofPrb = 1 ∧
      (lostLink.resendDownlink (Tti.ofNat 12) 5 (.ofRange 13 12 1)).1 =
        .ok [⟨tbsBytes 0 2 .downlink, 0, true, 2, true⟩] ∧
      tbsBytes 0 1 .downlink < tbsBytes 0 2 .downlink := by
  intro p
  have hgroups : p.nofRbg = 13 := by decide
  have hwf : ∀ s ∈ corneredSnapshots, s.WellFormed p := by
    simp only [Snapshot.WellFormed, hgroups, corneredSnapshots, List.forall_mem_cons,
      Option.some.injEq, forall_eq']
    exact ⟨⟨⟨by decide +kernel, RbgMask.ofCarrier_ofRange 13 0 12⟩, by simp⟩,
      ⟨⟨by decide +kernel, RbgMask.ofCarrier_ofRange 13 11 1⟩, by simp⟩, by simp⟩
  have hplan : ((make p (fun _ cs ↦ cs) corneredSnapshots).dl.map fun d ↦
      (d.rnti.val, d.mask.nofPrb p.nofPrb)) = [(70, 24), (71, 1)] := by
    change ((make p (fun _ cs ↦ cs) (corneredSnapshots.map Snapshot.withoutNew)).dl.map _) = _
    rw [(make_withoutNew (fun _ cs ↦ .refl cs) corneredSnapshots).1, retxDownlink,
      retxBatch_of_pairwise (by decide +kernel)]
    decide +kernel
  refine ⟨by decide, by decide, hwf, ?_, hplan, ?_, ?_, ?_, ?_⟩ <;> decide +kernel

end SubframePlan

end MacScheduler
