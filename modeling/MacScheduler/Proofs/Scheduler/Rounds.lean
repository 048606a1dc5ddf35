import MacScheduler.Proofs.Policy.Rotation
import MacScheduler.Proofs.Scheduler.Keep
import MacScheduler.Proofs.Scheduler.Reachable

/-!
# Rounds of pulls

When every carrier is pulled once at every point of the clock, whatever requests
come between the pulls, the roster is orderly before each pass.  So every pass keeps
the place of every retransmission, and no uplink block is ever given up because its
retransmission was missed.
-/

namespace MacScheduler

namespace Roster

variable {cells : List CellParams} {now : Tti} {r : Roster}

theorem passed_observe (hrntis : (r.map (·.rnti)).Nodup) (hsteady : ∀ t ∈ r, t.Steady cells now)
    {d : Nat} (hd : CellParams.InPace cells d) (carrier : Nat) (pools : PucchPools) :
    r.Passed cells now d (CarrierPass.observe (now + d) carrier pools r).2.1 := by
  obtain ⟨-, hsame, hback⟩ := CarrierPass.observe_spec (now + d) carrier pools r
  refine ⟨hsame.symm ▸ hrntis, fun t' ht' ↦ ?_⟩
  obtain ⟨t, ht, pools', rfl⟩ := hback t' ht'
  exact ⟨t, ht, (hsteady t ht).newTti hd pools'⟩

/-! ## Changes to the roster -/

theorem eased_refl (hrntis : (r.map (·.rnti)).Nodup) (hsteady : ∀ t ∈ r, t.Steady cells now) :
    r.Eased cells now r :=
  ⟨hrntis, fun t ht ↦ .inr ⟨t, ht, (hsteady t ht).refl⟩⟩

theorem eased_update (hrntis : (r.map (·.rnti)).Nodup) (hsteady : ∀ t ∈ r, t.Steady cells now)
    {t t' : Terminal} (ht : t ∈ r) (hease : t.Eases cells now t') :
    r.Eased cells now (r.update t') := by
  refine ⟨(rntis_update r t').symm ▸ hrntis, fun u hu ↦ ?_⟩
  rcases mem_update hu with rfl | hu
  · exact .inr ⟨t, ht, hease⟩
  · exact .inr ⟨u, hu, (hsteady u hu).refl⟩

theorem eased_insert (hrntis : (r.map (·.rnti)).Nodup) (hsteady : ∀ t ∈ r, t.Steady cells now)
    {t : Terminal} (hnew : t.rnti ∉ r.map (·.rnti)) (hfresh : t.Steady cells now)
    (hblank : ∀ l ∈ t.links, l.Blank) : r.Eased cells now (r.insert t) := by
  refine ⟨nodup_insert hrntis hnew, fun u hu ↦ ?_⟩
  rcases mem_insert hu with rfl | hu
  · exact .inl ⟨hfresh, hblank⟩
  · exact .inr ⟨u, hu, (hsteady u hu).refl⟩

theorem eased_erase (hrntis : (r.map (·.rnti)).Nodup) (hsteady : ∀ t ∈ r, t.Steady cells now)
    (rnti : Rnti) : r.Eased cells now (r.erase rnti) := by
  refine ⟨nodup_erase hrntis rnti, fun u hu ↦ ?_⟩
  have hu : u ∈ r := (List.mem_filter.mp hu).1
  exact .inr ⟨u, hu, (hsteady u hu).refl⟩

end Roster

namespace Roster.Orderly

variable {cells : List CellParams} {now next : Tti} {served quiet : Nat → Prop} {r : Roster}

theorem observe (h : r.Orderly cells now next served quiet) {d : Nat}
    (hd : CellParams.InPace cells d) (carrier : Nat) (pools : PucchPools) :
    (CarrierPass.observe (now + d) carrier pools r).2.1.Orderly cells (now + d) next served
      fun c ↦ d = 0 ∧ quiet c :=
  h.of_passed (passed_observe h.rntis h.steady hd carrier pools)

theorem imp {served' quiet' : Nat → Prop} (h : r.Orderly cells now next served quiet)
    (hserved : ∀ c, served c → served' c) (hquiet : ∀ c, quiet' c → quiet c) :
    r.Orderly cells now next served' quiet' :=
  { h with
    dl_fresh := fun c hc ↦ h.dl_fresh c fun hs ↦ hc (hserved c hs)
    ul_fresh := fun c hc ↦ h.ul_fresh c fun hs ↦ hc (hserved c hs)
    quiet := fun c hc ↦ h.quiet c (hquiet c hc) }

/-- Nothing in flight is sent at a later point. -/
theorem sent_ne_next {α : Type} {tab : Link → HarqTable α} {carrier roundTrip : Nat} {tx : Tti}
    (hkeep : r.Keeps tab carrier roundTrip tx) {d : Nat} (hpos : 1 ≤ d)
    (hd : d + roundTrip ≤ 5120) {f : Flight α} (hf : r.Flies tab carrier f) :
    f.sent ≠ tx + d := by
  obtain ⟨t, ht, -, l, hl, hcarrier, hcarries⟩ := hf
  obtain ⟨elapsed, hle, hnow⟩ := (hkeep t ht l hl hcarrier).elapsed_le hcarries
  rw [hnow, Tti.add_add]
  exact (f.sent.add_ne_self (by omega) (by omega)).symm

theorem nextPoint (h : r.Orderly cells now now served quiet) {d : Nat} (hpos : 1 ≤ d)
    (hd : CellParams.InPace cells d) : r.Orderly cells now (now + d) (fun _ ↦ False) quiet := by
  refine { h with dl_fresh := ?_, ul_fresh := ?_ }
  · intro c _ f hf
    have hflies := hf
    obtain ⟨t, ht, -, l, hl, rfl, -⟩ := hf
    have hp := (h.steady t ht).params l hl
    rw [Tti.downlinkTx_add]
    exact sent_ne_next (h.keeps_dl hp) hpos ((h.steady t ht).roundTrip_le hd hl) hflies
  · intro c _ f hf
    have hflies := hf
    obtain ⟨t, ht, -, l, hl, rfl, -⟩ := hf
    have hp := (h.steady t ht).params l hl
    rw [Tti.uplinkTx_add]
    exact sent_ne_next (h.keeps_ul hp) hpos ((h.steady t ht).roundTrip_le hd hl) hflies

/-- After a round in which every carrier was served, none is served at the next point yet. -/
theorem nextRound (h : r.Orderly cells now now served quiet) (hcells : CellParams.Listed cells)
    (hquiet : ∀ c < cells.length, quiet c) :
    r.Orderly cells now (now + 1) (fun _ ↦ False) (fun _ ↦ True) := by
  have hnext := h.nextPoint (Nat.le_refl 1) (hcells.inPace (Nat.le_refl 1))
  refine { hnext with quiet := fun c _ t ht l hl hc ↦ ?_ }
  have hp := (h.steady t ht).params l hl
  have hlt : c < cells.length := hc ▸ (List.getElem?_eq_some_iff.mp hp).1
  exact h.quiet c (hquiet c hlt) t ht l hl hc

/-! ## Boundaries -/

theorem givenUp_not_missed (h : r.Orderly cells now next served quiet) {d : Nat} (hd : d ≤ 1)
    (hquiet : d = 1 → ∀ c, quiet c) {t : Terminal} (ht : t ∈ r) :
    ∀ x ∈ t.givenUp (now + d), x.1 = .uplink → x.2.reason ≠ .missedWindow :=
  (h.steady t ht).givenUp_not_missed hd fun hone l hl ↦
    h.quiet l.carrier (hquiet hone l.carrier) t ht l hl rfl

end Roster.Orderly

namespace CarrierPass

/-- The pass of a carrier last ran at `t`, or never. -/
structure RanAt (t : Tti) (c : CarrierPass) : Prop where
  last : c.lastTti = none ∨ c.lastTti = some t
  result : ∀ r, c.result = some r → r.rxTti = t

variable {c : CarrierPass} {t : Tti}

/-- The pass of a point less than half a turn after the last one runs. -/
theorem RanAt.admits (h : c.RanAt t) {d : Nat} (hpos : 1 ≤ d) (hd : d ≤ 5119) :
    c.Admits (t + d) := by
  refine ⟨fun r hr ↦ ?_, fun last hlast ↦ ?_⟩
  · rw [h.result r hr]
    exact (t.add_ne_self hpos (by omega)).symm
  · rcases h.last with hl | hl
    · rw [hl] at hlast
      cases hlast
    · obtain rfl := Option.some.inj (hlast.symm.trans hl)
      exact Tti.isAfter_add_self hpos hd

end CarrierPass

end MacScheduler
