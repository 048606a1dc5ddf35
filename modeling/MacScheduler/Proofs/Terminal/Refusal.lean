import MacScheduler.Proofs.Harq.Repeat
import MacScheduler.Proofs.Terminal.Run

/-!
# Refused actions

An action that a terminal refuses leaves it as it was.  Most are refused before
anything is touched; feedback is refused by the process it is for, which by then
was taken out of its table and is put back unchanged.
-/

namespace MacScheduler

theorem of_map_eq_error {ε α β : Type} {f : α → β} {x : Except ε α} {e : ε}
    (h : x.map f = .error e) : x = .error e := by
  cases x with
  | error e' => exact congrArg _ (Except.error.inj h)
  | ok a => cases h

/-- A call from the state `s` that answers with an error leaves `s` as it was. -/
def Atomic {ε α σ : Type} (s : σ) (out : Except ε α × σ) : Prop :=
  ∀ e, out.1 = .error e → out.2 = s

namespace Atomic

variable {ε ε' α β σ : Type} {s : σ} {out : Except ε α × σ}

theorem refl (s : σ) (r : Except ε α) : Atomic s (r, s) := fun _ _ ↦ rfl

theorem of_ok (s s' : σ) (a : α) : Atomic s ((.ok a, s') : Except ε α × σ) :=
  fun _ he ↦ by cases he

theorem map (h : Atomic s out) (f : α → β) : Atomic s (out.1.map f, out.2) :=
  fun e he ↦ h e (of_map_eq_error he)

theorem mapError (h : Atomic s out) (f : ε → ε') : Atomic s (out.1.mapError f, out.2) := by
  intro e he
  obtain ⟨e' | a, s'⟩ := out
  · exact h e' rfl
  · cases he

/-- The same call on a part of a larger state. -/
theorem lift {τ : Type} {u : τ} (h : Atomic s out) (put : σ → τ) (hput : put s = u) :
    Atomic u (out.1, put out.2) :=
  fun e he ↦ (congrArg put (h e he)).trans hput

end Atomic

namespace HarqTable

variable {α : Type}

theorem atomic_setAck (h : HarqTable α) (pid tb : Nat) (ack : Bool) :
    Atomic h (h.setAck pid tb ack) :=
  fun e he ↦ setAck_of_unheard (.inr ⟨e, he⟩)

end HarqTable

theorem Link.atomic_editBuffer (l : Link) (pid tb : Nat) (edit : ByteArray → ByteArray) :
    Atomic l (l.editBuffer pid tb edit) := by
  unfold Link.editBuffer
  split
  · exact .refl l _
  · exact .of_ok l _ _

namespace Channels

theorem atomic_configure (c : Channels) (lcid : Nat) (b : Bearer) :
    Atomic c (c.configure lcid b) := by
  unfold configure
  split
  · exact .refl c _
  · exact .of_ok c _ _

theorem atomic_remove (c : Channels) (lcid : Nat) : Atomic c (c.remove lcid) := by
  unfold remove
  split
  · exact .of_ok c _ _
  · exact .refl c _

end Channels

namespace Terminal

theorem atomic_configureBearer (t : Terminal) (lcid : Nat) (b : Bearer) :
    Atomic t (t.configureBearer lcid b) := by
  have hchannels := t.channels.atomic_configure lcid b
  unfold configureBearer
  generalize t.channels.configure lcid b = out at hchannels ⊢
  obtain ⟨e | _, channels⟩ := out
  · obtain rfl := hchannels e rfl
    exact .refl t _
  · exact .of_ok t _ _

theorem atomic_removeBearer (t : Terminal) (lcid : Nat) : Atomic t (t.removeBearer lcid) := by
  have hchannels := t.channels.atomic_remove lcid
  unfold removeBearer
  generalize t.channels.remove lcid = out at hchannels ⊢
  obtain ⟨e | _, channels⟩ := out
  · obtain rfl := hchannels e rfl
    exact .refl t _
  · exact .of_ok t _ _

theorem atomic_requestActivation (t : Terminal) (carrier : Nat) (activate : Bool) :
    Atomic t (t.requestActivation carrier activate) := by
  unfold requestActivation
  split
  · exact .refl t _
  · exact .refl t _
  · exact .of_ok t _ _

theorem atomic_taken {t : Terminal} {index : Nat} {out : Bool × Terminal}
    (h : out.1 = false → out.2 = t) : Atomic t (taken index out) := by
  obtain ⟨_ | _, t'⟩ := out
  · obtain rfl := h rfl
    exact .refl t' _
  · exact .of_ok t _ _

theorem atomic_reportDownlink (t : Terminal) (lcid fresh repeated : Nat) :
    Atomic t (taken lcid (t.reportDownlink lcid fresh repeated)) := by
  apply atomic_taken
  unfold reportDownlink Channels.reportDownlink
  dsimp only
  split
  · exact fun hnot ↦ by cases hnot
  · exact fun _ ↦ rfl

theorem atomic_reportUplink (t : Terminal) (lcg bytes : Nat) :
    Atomic t (taken lcg (t.reportUplink lcg bytes)) := by
  apply atomic_taken
  unfold reportUplink Channels.reportUplink
  by_cases hlt : lcg < t.channels.groups.length
  · rw [if_pos hlt]
    exact fun hnot ↦ by cases hnot
  · rw [if_neg hlt]
    exact fun _ ↦ rfl

theorem atomic_updateLink (t : Terminal) (carrier : Nat) (f : Link → Link) :
    Atomic t (t.updateLink carrier f) := by
  unfold updateLink
  split
  · exact .refl t _
  · exact .of_ok t _ _

theorem atomic_acknowledgeDownlink (t : Terminal) (received : Tti) (carrier tb : Nat)
    (ack : Bool) : Atomic t (t.acknowledgeDownlink received carrier tb ack) := by
  unfold acknowledgeDownlink
  cases hlink : t.link? carrier with
  | none => exact .refl t _
  | some l =>
      dsimp only
      cases l.dl.sentAt? received.acknowledgedTx with
      | none => exact .refl t _
      | some pid =>
          exact ((l.dl.atomic_setAck pid tb ack).mapError SchedError.harq).lift
            (fun dl ↦ t.putLink carrier { l with dl }) (putLink_self hlink)

theorem atomic_acknowledgeUplink (t : Terminal) (received : Tti) (carrier : Nat) (ack : Bool) :
    Atomic t (t.acknowledgeUplink received carrier ack) := by
  unfold acknowledgeUplink
  cases hlink : t.link? carrier with
  | none => exact .refl t _
  | some l =>
      dsimp only
      cases l.ul.sentAt? received with
      | none => exact .refl t _
      | some pid =>
          exact ((l.ul.atomic_setAck pid 0 ack).mapError SchedError.harq).lift
            (fun ul ↦ t.putLink carrier { l with ul }) (putLink_self hlink)

theorem atomic_editBuffer (t : Terminal) (carrier pid tb : Nat) (edit : ByteArray → ByteArray) :
    Atomic t (t.editBuffer carrier pid tb edit) := by
  unfold editBuffer
  cases hlink : t.link? carrier with
  | none => exact .refl t _
  | some l =>
      exact ((l.atomic_editBuffer pid tb edit).mapError SchedError.harq).lift
        (fun l ↦ t.putLink carrier l) (putLink_self hlink)

/-- A refused action changes nothing. -/
theorem atomic_perform (t : Terminal) (action : Action) : Atomic t (t.perform action) := by
  cases action with
  | configureBearer lcid b => exact (t.atomic_configureBearer lcid b).map _
  | removeBearer lcid => exact (t.atomic_removeBearer lcid).map _
  | requestActivation carrier activate => exact (t.atomic_requestActivation carrier activate).map _
  | reportDownlink lcid fresh repeated => exact t.atomic_reportDownlink lcid fresh repeated
  | reportUplink lcg bytes => exact t.atomic_reportUplink lcg bytes
  | reportChannel received carrier m => exact (t.atomic_updateLink carrier _).map _
  | acknowledgeDownlink received carrier tb ack =>
      exact (t.atomic_acknowledgeDownlink received carrier tb ack).map _
  | acknowledgeUplink received carrier ack =>
      exact (t.atomic_acknowledgeUplink received carrier ack).map _
  | pushCe | reportHeadroom | requestUplink | raisePower | lowerPower => exact .of_ok t _ _
  | editBuffer carrier pid tb edit => exact (t.atomic_editBuffer carrier pid tb edit).map _

/-! ## Configurations -/

/-- A terminal is refused by the check alone, before it takes anything from the pools. -/
theorem create_cases (rnti : Rnti) (c : TerminalConfig) (cells : List CellParams)
    (pools : PucchPools) :
    (∃ e, c.check cells.length = .error e ∧ create rnti c cells pools = (.error e, pools)) ∨
      c.check cells.length = .ok () ∧ ∃ t pools', create rnti c cells pools = (.ok t, pools') := by
  unfold create
  cases hc : c.check cells.length with
  | error e => exact .inl ⟨e, rfl, rfl⟩
  | ok _ =>
      obtain ⟨hok, -⟩ := (formed_blank rnti c).apply hc pools
      unfold blank at hok
      dsimp only
      generalize Terminal.apply _ cells c pools = out at hok ⊢
      obtain ⟨r, t, pools'⟩ := out
      obtain rfl : r = .ok () := hok
      exact .inr ⟨rfl, t, pools', rfl⟩

end Terminal

end MacScheduler
