import MacScheduler.Proofs.Terminal.Failures
import MacScheduler.Proofs.Terminal.Ready
import MacScheduler.Proofs.Terminal.Refusal

/-!
# Refused grants

A grant that is refused leaves the terminal as it was, whatever was asked for.  An
uplink grant names its single block only after the process was put back into its
table, so this takes that a process which sends at all sends a block: a process that
starts has a slot, and one that sends again has a block to send again.
-/

namespace MacScheduler

namespace Link

theorem lastGrant_ne_error {grants : List TbGrant} (h : grants ≠ []) (e : GrantError) :
    lastGrant grants ≠ .error e := by
  rw [lastGrant, List.getLast?_eq_some_getLast h]
  intro heq
  cases heq

end Link

theorem HarqProcess.grants_start_ne_nil {α : Type} {p : HarqProcess α} (h : 0 < p.slots.length)
    (t : Tti) (size : Nat × Nat) (alloc : α) : (p.start t [size] alloc).1 ≠ [] := by
  obtain ⟨b, hlast⟩ := exists_grant_start h t size alloc
  intro hnil
  rw [hnil] at hlast
  cases hlast

namespace Terminal

variable {cells : List CellParams} {t : Terminal}

theorem atomic_grantDownlink (t : Terminal) (tx : Tti) (carrier pid : Nat) (mask : RbgMask)
    (dci : DciLocation) : Atomic t (t.grantDownlink tx carrier pid mask dci) := by
  have hspec := t.grantDownlink_spec tx carrier pid mask dci
  generalize t.grantDownlink tx carrier pid mask dci = out at hspec ⊢
  cases hspec with
  | refused e => exact .refl t _
  | resent => exact .of_ok t _ _
  | started => exact .of_ok t _ _

/-- A grant that comes from a process which was put back is not refused. -/
theorem atomic_of_lastGrant {grants : List TbGrant} {r : Except GrantError UlGrant}
    (htb : r.map (·.tb) = Link.lastGrant grants) (hne : grants ≠ []) (t' : Terminal) :
    Atomic t (r, t') := by
  intro e he
  obtain rfl : r = .error e := he
  exact (Link.lastGrant_ne_error hne e htb.symm).elim

theorem Formed.atomic_grantUplink (h : t.Formed cells) (tx : Tti) (carrier pid : Nat)
    (interval : PrbInterval) (dci : Option DciLocation) :
    Atomic t (t.grantUplink tx carrier pid interval dci) := by
  have hspec := t.grantUplink_spec tx carrier pid interval dci
  generalize t.grantUplink tx carrier pid interval dci = out at hspec ⊢
  cases hspec with
  | refused e => exact .refl t _
  | resent _ _ _ hdue _ _ _ htb =>
      exact atomic_of_lastGrant htb (HarqProcess.grants_resend_ne_nil hdue interval) _
  | started hlink _ hproc _ _ _ htb =>
      have hformed := h.links _ (of_link? hlink).1
      have hslots := Nat.lt_of_lt_of_eq Nat.two_pos (hformed.ulShaped.of_get? hproc).symm
      exact atomic_of_lastGrant htb (HarqProcess.grants_start_ne_nil hslots tx _ interval) _

/-- At any point of the life of a terminal a refused grant leaves all of it as it was: its
tables and the blocks they hold, its channels and their queues, the commands and requests
that wait, and its totals. -/
theorem refused_grant_unchanged (config : Config) {rnti : Rnti} {c : TerminalConfig}
    {pools pools' : PucchPools} {t : Terminal}
    (h : create rnti c (CellParams.all config) pools = (.ok t, pools')) (es : List Event)
    (tx : Tti) (carrier pid : Nat) :
    let t' := t.run (CellParams.all config) es
    (∀ mask dci e, (t'.grantDownlink tx carrier pid mask dci).1 = .error e →
      (t'.grantDownlink tx carrier pid mask dci).2 = t') ∧
    ∀ interval dci e, (t'.grantUplink tx carrier pid interval dci).1 = .error e →
      (t'.grantUplink tx carrier pid interval dci).2 = t' := by
  intro t'
  have hcells := CellParams.numbered_all config
  have hformed : t'.Formed (CellParams.all config) := (Formed.of_create hcells h).run hcells es
  exact ⟨t'.atomic_grantDownlink tx carrier pid, hformed.atomic_grantUplink tx carrier pid⟩

/-- A block of the secondary carrier whose contents are written is due again, and an uplink
process is busy.  The block is asked for on three groups instead of two, and the process is
asked for once more. -/
theorem refused_grants_amid_retransmission :
    let cells := CellParams.all twoCells
    let t := created twoCells ⟨70⟩ twoCarriers
    let es := (negativeTwice false).take 8 ++
      [.act (.editBuffer 1 5 0 fun _ ↦ ⟨#[0x3D, 0x07]⟩), .act (.reportUplink 0 500),
        .grantUplink (Tti.ofNat 13) 1 5 ⟨3, 6⟩ (some ⟨1, 0⟩)]
    let t' := t.run cells es
    let dl := t'.grantDownlink (Tti.ofNat 13) 1 5 (.ofRange 13 0 3) ⟨0, 0⟩
    let ul := t'.grantUplink (Tti.ofNat 13) 1 5 ⟨9, 6⟩ (some ⟨2, 0⟩)
    create ⟨70⟩ twoCarriers cells (unusedPools twoCells) =
        (.ok t, (create ⟨70⟩ twoCarriers cells (unusedPools twoCells)).2) ∧
      (t'.link? 1).bind (fun l ↦ (l.buffer? 5 0).toOption) = some ⟨#[0x3D, 0x07]⟩ ∧
      dl.1 = .error (.sizeMismatch 2 3) ∧ dl.2 = t' ∧ ul.1 = .error .noHarq ∧ ul.2 = t' := by
  intro cells t es t' dl ul
  have hcreate : create ⟨70⟩ twoCarriers cells (unusedPools twoCells) =
      (.ok t, (create ⟨70⟩ twoCarriers cells (unusedPools twoCells)).2) := rfl
  have hwritten : (t'.link? 1).bind (fun l ↦ (l.buffer? 5 0).toOption) =
      some ⟨#[0x3D, 0x07]⟩ := by decide +kernel
  have hdl : dl.1 = .error (.sizeMismatch 2 3) := by decide +kernel
  have hul : ul.1 = .error .noHarq := by decide +kernel
  obtain ⟨hsameDl, hsameUl⟩ := refused_grant_unchanged twoCells hcreate es (Tti.ofNat 13) 1 5
  exact ⟨hcreate, hwritten, hdl, hsameDl _ _ _ hdl, hul, hsameUl _ _ _ hul⟩

end Terminal

end MacScheduler
