import MacScheduler.Proofs.Config.Check
import MacScheduler.Proofs.Harq.Steady
import MacScheduler.Terminal.Report

/-!
# Subframe boundaries

At a boundary a terminal carries out its commands and moves every table to the
new point.  Links keep their carriers and only lose blocks, and uplink tables
that had no retransmission due give none up for having missed it.
-/

namespace MacScheduler

theorem Tti.downlinkTx_add (t : Tti) (d : Nat) : (t + d).downlinkTx = t.downlinkTx + d := by
  rw [downlinkTx, downlinkTx, add_add, add_add, Nat.add_comm]

theorem Tti.uplinkTx_add (t : Tti) (d : Nat) : (t + d).uplinkTx = t.uplinkTx + d := by
  rw [uplinkTx, uplinkTx, add_add, add_add, Nat.add_comm]

/-- A step of the clock that, with a round trip on top, stays within half a turn. -/
def CellParams.InPace (cells : List CellParams) (d : Nat) : Prop :=
  ∀ p ∈ cells, d + p.harq.roundTrip ≤ 5120

namespace Link

def Blank (l : Link) : Prop := l.dl.Blank ∧ l.ul.Blank

/-- The link kept pace up to reception point `now`. -/
structure Steady (now : Tti) (l : Link) : Prop where
  harq : l.params.harq.violations = []
  dl : l.dl.Steady l.params.harq.roundTrip now.downlinkTx
  ul : l.ul.Steady l.params.harq.roundTrip now.uplinkTx
  off : l.allowsRetx = false → l.Blank
  dropped : ∀ d ∈ l.ul.dropped, d.reason ≠ .missedWindow

/-- `l'` is `l` some time later, with nothing sent in between. -/
structure Wanes (l l' : Link) : Prop where
  params_eq : l'.params = l.params
  dl : l.dl.Wanes l'.dl
  ul : l.ul.Wanes l'.ul

/-- `l'` is `l` at the same point of the clock, with nothing sent in between. -/
structure Eases (now : Tti) (l l' : Link) : Prop where
  wanes : l.Wanes l'
  steady : l'.Steady now
  quiet : l.ul.Quiet now.uplinkTx → l'.ul.Quiet now.uplinkTx

variable {l l' : Link} {now : Tti}

theorem Wanes.carrier_eq (h : l.Wanes l') : l'.carrier = l.carrier := by
  rw [carrier, carrier, h.params_eq]

theorem Wanes.trans {l'' : Link} (h : l.Wanes l') (h' : l'.Wanes l'') : l.Wanes l'' :=
  ⟨h'.params_eq.trans h.params_eq, h.dl.trans h'.dl, h.ul.trans h'.ul⟩

theorem Steady.bounds (h : l.Steady now) :
    8 ≤ l.params.harq.roundTrip ∧ l.params.harq.roundTrip ≤ 16 :=
  HarqConfig.roundTrip_bounds h.harq

namespace Eases

theorem refl (h : l.Steady now) : l.Eases now l :=
  ⟨⟨rfl, .refl l.dl, .refl l.ul⟩, h, fun hq ↦ hq⟩

theorem trans {l'' : Link} (h : l.Eases now l') (h' : l'.Eases now l'') : l.Eases now l'' :=
  ⟨h.wanes.trans h'.wanes, h'.steady, fun hq ↦ h'.quiet (h.quiet hq)⟩

theorem of_tables (h : l.Steady now) (hparams : l'.params = l.params) (hdl : l'.dl = l.dl)
    (hul : l'.ul = l.ul) (hoff : l'.allowsRetx = false → l.allowsRetx = false) :
    l.Eases now l' where
  wanes := ⟨hparams, hdl ▸ .refl l.dl, hul ▸ .refl l.ul⟩
  steady :=
    { harq := hparams ▸ h.harq
      dl := by rw [hdl, hparams]; exact h.dl
      ul := by rw [hul, hparams]; exact h.ul
      off := fun ho ↦ by
        unfold Blank
        rw [hdl, hul]
        exact h.off (hoff ho)
      dropped := hul ▸ h.dropped }
  quiet := fun hq ↦ hul ▸ hq

theorem resetHarq (h : l.Steady now) (state : Activation) :
    l.Eases now { l.resetHarq with state } where
  wanes := ⟨rfl, .reset l.dl, .reset l.ul⟩
  steady :=
    { harq := h.harq
      dl := h.dl.reset
      ul := h.ul.reset
      off := fun _ ↦ ⟨.reset l.dl, .reset l.ul⟩
      dropped := by simp [Link.resetHarq, HarqTable.reset] }
  quiet := fun _ ↦ (HarqTable.Blank.reset l.ul).quiet now.uplinkTx

theorem setAckDl (h : l.Steady now) (pid tb : Nat) (ack : Bool) :
    l.Eases now { l with dl := (l.dl.setAck pid tb ack).2 } where
  wanes := ⟨rfl, .setAck h.dl.timely.sound pid tb ack, .refl l.ul⟩
  steady :=
    { h with
      dl := h.dl.setAck pid tb ack
      off := fun ho ↦ ⟨(h.off ho).1.of_wanes (.setAck h.dl.timely.sound pid tb ack), (h.off ho).2⟩ }
  quiet := fun hq ↦ hq

theorem setAckUl (h : l.Steady now) (pid tb : Nat) (ack : Bool) :
    l.Eases now { l with ul := (l.ul.setAck pid tb ack).2 } where
  wanes := ⟨rfl, .refl l.dl, .setAck h.ul.timely.sound pid tb ack⟩
  steady :=
    { h with
      ul := h.ul.setAck pid tb ack
      off := fun ho ↦ ⟨(h.off ho).1, (h.off ho).2.of_wanes (.setAck h.ul.timely.sound pid tb ack)⟩
      dropped := by
        intro d hd
        rcases HarqTable.of_mem_dropped_setAck hd with hd | hd
        · exact h.dropped d hd
        · simp [hd] }
  quiet := by
    intro hq
    have hround := h.ul.roundTrip_eq
    have := h.bounds
    exact hq.setAck h.ul.timely (by omega) pid tb ack

end Eases

/-! ## The boundary of a link -/

theorem Eases.completeTransition (h : l.Steady now) (ceQueued : Bool) :
    l.Eases now (Terminal.completeTransition ceQueued l) := by
  unfold Terminal.completeTransition
  split
  · exact .refl h
  · split
    · exact .of_tables h rfl rfl rfl (by simp [allowsRetx])
    · exact .resetHarq h .idle
    · exact .refl h
    · exact .refl h

theorem Eases.startTransition (h : l.Steady now) {activate : Bool}
    (hstart : Terminal.startTransition activate l = some l') : l.Eases now l' := by
  unfold Terminal.startTransition at hstart
  split at hstart
  · rename_i hstate
    cases hstart
    exact .of_tables h rfl rfl rfl fun _ ↦ by simp [allowsRetx, hstate]
  · cases hstart
    exact .of_tables h rfl rfl rfl (by simp [allowsRetx])
  · cases hstart
    exact .of_tables h rfl rfl rfl (by simp [allowsRetx])
  · cases hstart

/-- What the boundary `d` subframes later does to a link. -/
structure Passes (now : Tti) (d : Nat) (l : Link) (out : List (Direction × DroppedTb) × Link) :
    Prop where
  wanes : l.Wanes out.2
  steady : out.2.Steady (now + d)
  quiet : d = 0 → l.ul.Quiet now.uplinkTx → out.2.ul.Quiet now.uplinkTx
  granted : d ≤ 1 → (d = 1 → l.ul.Quiet now.uplinkTx) →
    ∀ d ∈ out.1, d.1 = .uplink → d.2.reason ≠ .missedWindow

theorem Steady.newTti (h : l.Steady now) {d : Nat} (hd : d + l.params.harq.roundTrip ≤ 5120) :
    l.Passes now d (l.newTti (now + d)) := by
  have hbounds := h.bounds
  have hround := h.ul.roundTrip_eq
  have hdlTx := now.downlinkTx_add d
  have hulTx := now.uplinkTx_add d
  have hdl : (l.newTti (now + d)).2.dl = (l.dl.advance (now.downlinkTx + d)).2.takeDropped.2 := by
    rw [← hdlTx]
    rfl
  have hul : (l.newTti (now + d)).2.ul = (l.ul.advance (now.uplinkTx + d)).2.takeDropped.2 := by
    rw [← hulTx]
    rfl
  have hdlWanes : l.dl.Wanes (l.newTti (now + d)).2.dl :=
    hdl ▸ (HarqTable.Wanes.advance h.dl.timely.sound _).trans (.takeDropped _)
  have hulWanes : l.ul.Wanes (l.newTti (now + d)).2.ul :=
    hul ▸ (HarqTable.Wanes.advance h.ul.timely.sound _).trans (.takeDropped _)
  refine ⟨⟨rfl, hdlWanes, hulWanes⟩, ⟨h.harq, ?_, ?_, ?_, ?_⟩, ?_, ?_⟩
  · rw [hdl, hdlTx]
    exact (h.dl.advance (by omega) hbounds.2 hd).takeDropped
  · rw [hul, hulTx]
    exact (h.ul.advance (by omega) hbounds.2 hd).takeDropped
  · exact fun ho ↦ ⟨(h.off ho).1.of_wanes hdlWanes, (h.off ho).2.of_wanes hulWanes⟩
  · rw [hul]
    simp [HarqTable.takeDropped]
  · intro hzero hq
    rw [hul, hzero, Tti.add_zero]
    exact hq.advance h.ul.timely (by omega)
  · intro hone hq rec hrec hdir
    rcases List.mem_append.mp hrec with hrec | hrec
    · obtain ⟨_, -, rfl⟩ := List.mem_map.mp hrec
      cases hdir
    · obtain ⟨d', hd', rfl⟩ := List.mem_map.mp hrec
      have hd' : d' ∈ (l.ul.advance (now.uplinkTx + d)).2.dropped := by
        rw [← hulTx]
        exact hd'
      rcases HarqTable.Quiet.not_missed hone hq h.ul.timely (by omega) d' hd' with hold | hnew
      · exact h.dropped d' hold
      · exact hnew

end Link

namespace Terminal

/-! ## The links of a terminal -/

/-- `links'` are `links` at the same point of the clock, with nothing sent in between. -/
structure EaseAll (now : Tti) (links links' : List Link) : Prop where
  carriers_eq : links'.map (·.carrier) = links.map (·.carrier)
  links : ∀ l' ∈ links', ∃ l ∈ links, l.Eases now l'

namespace EaseAll

variable {now : Tti} {links links' : List Link}

theorem refl (h : ∀ l ∈ links, l.Steady now) : EaseAll now links links :=
  ⟨rfl, fun l hl ↦ ⟨l, hl, .refl (h l hl)⟩⟩

theorem trans {links'' : List Link} (h : EaseAll now links links')
    (h' : EaseAll now links' links'') : EaseAll now links links'' := by
  refine ⟨h'.carriers_eq.trans h.carriers_eq, fun l'' hl'' ↦ ?_⟩
  obtain ⟨l', hl', hease'⟩ := h'.links l'' hl''
  obtain ⟨l, hl, hease⟩ := h.links l' hl'
  exact ⟨l, hl, hease.trans hease'⟩

theorem steady (h : EaseAll now links links') : ∀ l' ∈ links', l'.Steady now := by
  intro l' hl'
  obtain ⟨l, -, hease⟩ := h.links l' hl'
  exact hease.steady

theorem map {f : Link → Link} (h : ∀ l ∈ links, l.Eases now (f l)) :
    EaseAll now links (links.map f) where
  carriers_eq := by
    rw [List.map_map]
    exact List.map_congr_left fun l hl ↦ (h l hl).wanes.carrier_eq
  links := by
    intro l' hl'
    obtain ⟨l, hl, rfl⟩ := List.mem_map.mp hl'
    exact ⟨l, hl, h l hl⟩

theorem set (h : ∀ l ∈ links, l.Steady now) {i : Nat} {l l' : Link} (hl : links[i]? = some l)
    (hease : l.Eases now l') : EaseAll now links (links.set i l') where
  carriers_eq := by
    obtain ⟨hlt, hget⟩ := List.getElem?_eq_some_iff.mp hl
    rw [List.map_set, hease.wanes.carrier_eq, ← hget]
    exact List.ext_getElem (by simp) fun k _ _ ↦ by
      by_cases hk : i = k
      · subst hk
        simp
      · simp [hk]
  links := by
    intro k hk
    rcases List.mem_or_eq_of_mem_set hk with hk | rfl
    · exact ⟨k, hk, .refl (h k hk)⟩
    · exact ⟨l, List.mem_of_getElem? hl, hease⟩

theorem runCommands (h : ∀ l ∈ links, l.Steady now) (commands : List (Nat × Bool)) :
    EaseAll now links (Terminal.runCommands links commands).2 := by
  induction commands generalizing links with
  | nil => exact refl h
  | cons command commands ih =>
      obtain ⟨position, activate⟩ := command
      rw [Terminal.runCommands]
      cases hstart : (links[position]?).bind (startTransition activate) with
      | none => exact ih h
      | some l' =>
          obtain ⟨l, hl, hstart⟩ := Option.bind_eq_some_iff.mp hstart
          have hset := set h hl (.startTransition (h l (List.mem_of_getElem? hl)) hstart)
          exact hset.trans (ih hset.steady)

end EaseAll

def commandedLinks (t : Terminal) : List Link :=
  (runCommands (t.links.map (completeTransition (t.channels.ces.any MacCe.isScellActivation)))
    t.commands).2

def givenUp (t : Terminal) (now : Tti) : List (Direction × DroppedTb) :=
  if t.lastTti = some now then [] else t.commandedLinks.flatMap fun l ↦ (l.newTti now).1

theorem advanceLinks_eq (now : Tti) (c : Channels) (links : List Link) :
    advanceLinks now c links =
      ((links.flatMap fun l ↦ (l.newTti now).1).foldl
        (fun c d ↦ c.recordFailure d.2.tbs d.1) c,
        links.map fun l ↦ (l.newTti now).2) := by
  induction links generalizing c with
  | nil => rfl
  | cons l links ih =>
      rw [advanceLinks, List.flatMap_cons, List.foldl_append, List.map_cons]
      simp only [ih]

variable {cells : List CellParams} {now : Tti} {t t' : Terminal}

theorem newTti_of_last (h : t.lastTti = some now) (pools : PucchPools) :
    (t.newTti now pools).1 = t := by
  rw [newTti, if_pos h]

theorem newTti_links (h : t.lastTti ≠ some now) (pools : PucchPools) :
    (t.newTti now pools).1.links = t.commandedLinks.map (fun l ↦ (l.newTti now).2) ∧
      (t.newTti now pools).1.rnti = t.rnti ∧ (t.newTti now pools).1.lastTti = some now := by
  rw [newTti, if_neg h]
  simp only [advanceLinks_eq]
  exact ⟨rfl, rfl, rfl⟩

theorem rnti_newTti (t : Terminal) (now : Tti) (pools : PucchPools) :
    (t.newTti now pools).1.rnti = t.rnti := by
  by_cases h : t.lastTti = some now
  · rw [newTti_of_last h]
  · exact (newTti_links h pools).2.1

/-- The failures counted at a boundary are those of the blocks given up. -/
theorem newTti_stats (h : t.lastTti ≠ some now) (pools : PucchPools) :
    ∃ c : Channels, (c = t.channels ∨ ∃ ce, c = t.channels.pushCe ce) ∧
      (t.newTti now pools).1.channels =
        (t.givenUp now).foldl (fun c d ↦ c.recordFailure d.2.tbs d.1) c := by
  rw [newTti, if_neg h, givenUp, if_neg h]
  simp only [advanceLinks_eq]
  refine ⟨_, ?_, rfl⟩
  split
  · exact .inr ⟨_, rfl⟩
  · exact .inl rfl

/-- The terminal kept pace up to reception point `now`, on carriers with the given
parameters. -/
structure Steady (cells : List CellParams) (now : Tti) (t : Terminal) : Prop where
  clock : t.lastTti = none ∨ t.lastTti = some now
  carriers : (t.links.map (·.carrier)).Nodup
  params : ∀ l ∈ t.links, cells[l.carrier]? = some l.params
  links : ∀ l ∈ t.links, l.Steady now

/-- What the boundary `d` subframes later does to a terminal. -/
structure Passes (cells : List CellParams) (now : Tti) (d : Nat) (t t' : Terminal) : Prop where
  rnti_eq : t'.rnti = t.rnti
  steady : t'.Steady cells (now + d)
  links : ∀ l' ∈ t'.links, ∃ l ∈ t.links,
    l.Wanes l' ∧ (d = 0 → l.ul.Quiet now.uplinkTx → l'.ul.Quiet now.uplinkTx)

theorem Steady.roundTrip_le (h : t.Steady cells now) {d : Nat} (hd : CellParams.InPace cells d)
    {l : Link} (hl : l ∈ t.links) : d + l.params.harq.roundTrip ≤ 5120 :=
  hd l.params (List.mem_of_getElem? (h.params l hl))

theorem Steady.commandedLinks (h : t.Steady cells now) : EaseAll now t.links t.commandedLinks := by
  have hcomplete : EaseAll now t.links (t.links.map (completeTransition
      (t.channels.ces.any MacCe.isScellActivation))) :=
    .map fun l hl ↦ .completeTransition (h.links l hl) _
  exact hcomplete.trans (.runCommands hcomplete.steady t.commands)

theorem Steady.newTti (h : t.Steady cells now) {d : Nat} (hd : CellParams.InPace cells d)
    (pools : PucchPools) : Passes cells now d t (t.newTti (now + d) pools).1 := by
  by_cases hlast : t.lastTti = some (now + d)
  · -- only the same point can have been reached already
    have hsame : now + d = now := by
      rcases h.clock with hnone | hsome
      · rw [hnone] at hlast
        cases hlast
      · exact Option.some.inj (hlast.symm.trans hsome)
    rw [newTti_of_last hlast]
    refine ⟨rfl, hsame.symm ▸ h, fun l hl ↦ ⟨l, hl, ?_, fun _ hq ↦ hq⟩⟩
    exact (Link.Eases.refl (h.links l hl)).wanes
  · obtain ⟨hlinks, hrnti, hclock⟩ := newTti_links hlast pools
    have hease := h.commandedLinks
    have hpass : ∀ l ∈ t.commandedLinks, l.Passes now d (l.newTti (now + d)) := by
      intro m hm
      obtain ⟨l, hl, hlm⟩ := hease.links m hm
      exact hlm.steady.newTti (hlm.wanes.params_eq ▸ h.roundTrip_le hd hl)
    have hcarriers : (t.newTti (now + d) pools).1.links.map (·.carrier) =
        t.links.map (·.carrier) := by
      rw [hlinks, ← hease.carriers_eq, List.map_map]
      exact List.map_congr_left fun l hl ↦ (hpass l hl).wanes.carrier_eq
    have hback : ∀ l' ∈ (t.newTti (now + d) pools).1.links, ∃ l ∈ t.links,
        l.Wanes l' ∧ l'.Steady (now + d) ∧
          (d = 0 → l.ul.Quiet now.uplinkTx → l'.ul.Quiet now.uplinkTx) := by
      intro l' hl'
      rw [hlinks] at hl'
      obtain ⟨m, hm, rfl⟩ := List.mem_map.mp hl'
      obtain ⟨l, hl, hlm⟩ := hease.links m hm
      exact ⟨l, hl, hlm.wanes.trans (hpass m hm).wanes, (hpass m hm).steady,
        fun hzero hq ↦ (hpass m hm).quiet hzero (hlm.quiet hq)⟩
    refine ⟨hrnti, ⟨.inr hclock, hcarriers ▸ h.carriers, ?_, ?_⟩, ?_⟩
    · intro l' hl'
      obtain ⟨l, hl, hwanes, -⟩ := hback l' hl'
      rw [hwanes.carrier_eq, hwanes.params_eq]
      exact h.params l hl
    · intro l' hl'
      obtain ⟨l, -, -, hsteady, -⟩ := hback l' hl'
      exact hsteady
    · intro l' hl'
      obtain ⟨l, hl, hwanes, -, hquiet⟩ := hback l' hl'
      exact ⟨l, hl, hwanes, hquiet⟩

/-- A terminal without an uplink retransmission due gives no uplink block up for having
missed one at the next boundary. -/
theorem Steady.givenUp_not_missed (h : t.Steady cells now) {d : Nat} (hd : d ≤ 1)
    (hquiet : d = 1 → ∀ l ∈ t.links, l.ul.Quiet now.uplinkTx) :
    ∀ x ∈ t.givenUp (now + d), x.1 = .uplink → x.2.reason ≠ .missedWindow := by
  intro x hx
  unfold givenUp at hx
  split at hx
  · cases hx
  · obtain ⟨m, hm, hx⟩ := List.mem_flatMap.mp hx
    obtain ⟨l, hl, hlm⟩ := h.commandedLinks.links m hm
    have hbounds := hlm.steady.bounds
    exact (hlm.steady.newTti (by omega)).granted hd (fun hone ↦ hlm.quiet (hquiet hone l hl)) x hx

end Terminal

end MacScheduler
