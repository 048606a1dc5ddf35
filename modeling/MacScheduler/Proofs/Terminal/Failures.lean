import MacScheduler.Proofs.Harq.Ledger
import MacScheduler.Proofs.Terminal.Run

/-!
# Failure counters of a terminal

A block is given up by feedback or by the clock, and its record waits at its table
for the next boundary, which counts it.  A record that still waits when its table
is reset, or when a configuration discards its link, is never counted.  So right
after a boundary the counter of a direction and the records lost so far make up
the blocks given up so far.
-/

namespace MacScheduler

namespace Link

def inFlight (l : Link) : Direction → Nat
  | .downlink => l.dl.inFlight
  | .uplink => l.ul.inFlight

/-- Blocks given up that no boundary has counted yet. -/
def queued (l : Link) : Direction → Nat
  | .downlink => l.dl.dropped.length
  | .uplink => l.ul.dropped.length

/-- Whether a boundary resets the tables of the link. -/
def resets (ceQueued : Bool) (l : Link) : Bool := decide (l.state = .deactivating) && !ceQueued

theorem queued_newTti (l : Link) (now : Tti) (dir : Direction) :
    (l.newTti now).2.queued dir = 0 := by
  cases dir <;> rfl

/-- A boundary hands over what was queued and what it takes out of flight. -/
theorem Formed.countP_newTti {l : Link} (h : l.Formed) (now : Tti) (dir : Direction) :
    (l.newTti now).1.countP (fun d ↦ decide (d.1 = dir)) =
      l.queued dir + (l.inFlight dir - (l.newTti now).2.inFlight dir) := by
  have hout : (l.newTti now).1 =
      (l.dl.advance now.downlinkTx).2.dropped.map (Direction.downlink, ·) ++
        (l.ul.advance now.uplinkTx).2.dropped.map (Direction.uplink, ·) := rfl
  rw [hout, List.countP_append, List.countP_map, List.countP_map]
  cases dir with
  | downlink =>
      refine Eq.trans ?_ (HarqTable.length_dropped_advance h.dl now.downlinkTx)
      simp [Function.comp_def]
  | uplink =>
      refine Eq.trans ?_ (HarqTable.length_dropped_advance h.ul now.uplinkTx)
      simp [Function.comp_def]

theorem queued_commanded (ceQueued : Bool) (commands : List Bool) (l : Link) (dir : Direction) :
    (l.commanded ceQueued commands).queued dir =
      if l.resets ceQueued then 0 else l.queued dir := by
  have hcomplete : (l.commanded ceQueued commands).queued dir =
      (Terminal.completeTransition ceQueued l).queued dir := by cases dir <;> rfl
  rw [hcomplete]
  unfold Terminal.completeTransition resets
  cases ceQueued <;> cases hstate : l.state <;> cases dir <;> rfl

end Link

namespace Terminal

variable {cells : List CellParams} {t t' : Terminal} {dir : Direction}

def queued (t : Terminal) (dir : Direction) : Nat := total (t.links.map (·.queued dir))

/-- Blocks that an event gives up: those that feedback answers to be dropped, and those
that the clock takes out of flight. -/
def givenUpBy (t : Terminal) (dir : Direction) : Event → Nat
  | .act (.acknowledgeDownlink received carrier tb ack) =>
      if dir = .downlink then nofDropped (t.acknowledgeDownlink received carrier tb ack).1 else 0
  | .act (.acknowledgeUplink received carrier ack) =>
      if dir = .uplink then nofDropped (t.acknowledgeUplink received carrier ack).1 else 0
  | .boundary now _ =>
      if t.lastTti = some now then 0
      else total (t.commandedLinks.map fun l ↦ l.inFlight dir - (l.newTti now).2.inFlight dir)
  | _ => 0

/-- Blocks given up that an event discards uncounted: those queued at links that a
configuration does not keep, and at links that a boundary resets. -/
def lostBy (cells : List CellParams) (t : Terminal) (dir : Direction) : Event → Nat
  | .configure c _ =>
      match c.check cells.length with
      | .error _ => 0
      | .ok () => total ((t.links.filter fun l ↦ decide (¬c.Keeps l)).map (·.queued dir))
  | .boundary now _ =>
      if t.lastTti = some now then 0
      else total ((t.links.filter (Link.resets t.ceQueued)).map (·.queued dir))
  | _ => 0

def givenUpIn (cells : List CellParams) (dir : Direction) : Terminal → List Event → Nat
  | _, [] => 0
  | t, e :: es => t.givenUpBy dir e + givenUpIn cells dir (t.step cells e) es

def lostIn (cells : List CellParams) (dir : Direction) : Terminal → List Event → Nat
  | _, [] => 0
  | t, e :: es => lostBy cells t dir e + lostIn cells dir (t.step cells e) es

/-- Blocks counted as failures, or queued to be. -/
def recorded (t : Terminal) (dir : Direction) : Nat := t.channels.failures dir + t.queued dir

theorem recorded_eq (hfailures : t'.channels.failures dir = t.channels.failures dir)
    (hqueued : t'.queued dir = t.queued dir) : t'.recorded dir = t.recorded dir := by
  rw [recorded, recorded, hfailures, hqueued]

theorem recorded_of_same_links (hfailures : t'.channels.failures dir = t.channels.failures dir)
    (hlinks : t'.links = t.links) : t'.recorded dir = t.recorded dir :=
  recorded_eq hfailures (by rw [queued, queued, hlinks])

/-! ## Reports, answers and grants -/

theorem total_replaceLink {carrier : Nat} {links : List Link} {l : Link}
    (h : links.find? (fun l ↦ decide (l.carrier = carrier)) = some l) (l' : Link)
    (f : Link → Nat) :
    total ((replaceLink carrier l' links).map f) + f l = total (links.map f) + f l' := by
  induction links with
  | nil => cases h
  | cons k links ih =>
      rw [replaceLink]
      by_cases hk : k.carrier = carrier
      · rw [List.find?_cons_of_pos (by simpa using hk)] at h
        obtain rfl := Option.some.inj h
        rw [if_pos hk, List.map_cons, List.map_cons, total_cons, total_cons]
        omega
      · rw [List.find?_cons_of_neg (by simpa using hk)] at h
        have hrest := ih h
        rw [if_neg hk, List.map_cons, List.map_cons, total_cons, total_cons]
        omega

theorem recorded_putLink {carrier : Nat} {l l' : Link} (hl : t.link? carrier = some l) {n : Nat}
    (hqueued : l'.queued dir = l.queued dir + n) :
    (t.putLink carrier l').recorded dir = t.recorded dir + n := by
  have htotal := total_replaceLink hl l' (·.queued dir)
  simp only [recorded, queued, putLink] at htotal ⊢
  omega

theorem Relinked.recorded {carrier : Nat} {l l' : Link} (h : t.Relinked carrier l' t')
    (hl : t.link? carrier = some l) (hqueued : l'.queued dir = l.queued dir) :
    t'.recorded dir = t.recorded dir := by
  apply recorded_eq (h.failures dir)
  have htotal := total_replaceLink hl l' (·.queued dir)
  rw [queued, queued, h.links]
  omega

theorem recorded_acknowledgeDownlink (t : Terminal) (received : Tti) (carrier tb : Nat)
    (ack : Bool) (dir : Direction) :
    (t.acknowledgeDownlink received carrier tb ack).2.recorded dir = t.recorded dir +
      if dir = .downlink then nofDropped (t.acknowledgeDownlink received carrier tb ack).1
      else 0 := by
  unfold acknowledgeDownlink
  split
  · simp [nofDropped]
  · split
    · simp [nofDropped]
    · rename_i l hl _ pid _
      dsimp only
      rw [nofDropped_mapError]
      cases dir with
      | downlink => exact recorded_putLink hl (l.dl.length_dropped_setAck pid tb ack)
      | uplink => exact recorded_putLink hl rfl

theorem recorded_acknowledgeUplink (t : Terminal) (received : Tti) (carrier : Nat)
    (ack : Bool) (dir : Direction) :
    (t.acknowledgeUplink received carrier ack).2.recorded dir = t.recorded dir +
      if dir = .uplink then nofDropped (t.acknowledgeUplink received carrier ack).1 else 0 := by
  unfold acknowledgeUplink
  split
  · simp [nofDropped]
  · split
    · simp [nofDropped]
    · rename_i l hl _ pid _
      dsimp only
      rw [nofDropped_mapError]
      cases dir with
      | downlink => exact recorded_putLink hl rfl
      | uplink => exact recorded_putLink hl (l.ul.length_dropped_setAck pid 0 ack)

theorem recorded_perform (t : Terminal) (action : Action) (dir : Direction) :
    (t.perform action).2.recorded dir = t.recorded dir + t.givenUpBy dir (.act action) := by
  cases action with
  | acknowledgeDownlink received carrier tb ack =>
      exact recorded_acknowledgeDownlink t received carrier tb ack dir
  | acknowledgeUplink received carrier ack =>
      exact recorded_acknowledgeUplink t received carrier ack dir
  | configureBearer lcid b =>
      have hfailures := t.channels.failures_configure dir lcid b
      simp only [perform, configureBearer]
      split <;> rename_i heq <;> rw [heq] at hfailures <;>
        exact recorded_of_same_links hfailures rfl
  | removeBearer lcid =>
      have hfailures := t.channels.failures_remove dir lcid
      simp only [perform, removeBearer]
      split <;> rename_i heq <;> rw [heq] at hfailures <;>
        exact recorded_of_same_links hfailures rfl
  | requestActivation carrier activate =>
      simp only [perform, requestActivation]
      split <;> rfl
  | reportDownlink lcid fresh repeated =>
      rw [perform, taken_snd]
      exact recorded_of_same_links (t.channels.failures_reportDownlink dir lcid fresh repeated) rfl
  | pushCe ce => exact recorded_of_same_links (t.channels.failures_pushCe dir ce) rfl
  | reportUplink lcg bytes =>
      rw [perform, taken_snd]
      exact recorded_of_same_links (t.channels.failures_reportUplink dir lcg bytes) rfl
  | reportHeadroom headroom => rfl
  | requestUplink => rfl
  | reportChannel received carrier m =>
      simp only [perform, reportChannel, updateLink]
      split
      · rfl
      · exact recorded_putLink ‹_› (by cases m <;> cases dir <;> rfl)
  | raisePower dir' => cases dir' <;> rfl
  | lowerPower dir' => cases dir' <;> rfl
  | editBuffer carrier pid tb edit =>
      change recorded (t.editBuffer carrier pid tb edit).2 dir = _
      rcases t.editBuffer_cases carrier pid tb edit with heq | ⟨l, buffers, hl, heq⟩ <;> rw [heq]
      · rfl
      · exact recorded_putLink hl (by cases dir <;> rfl)

theorem recorded_grantDownlink (t : Terminal) (tx : Tti) (carrier pid : Nat) (mask : RbgMask)
    (dci : DciLocation) (dir : Direction) :
    (t.grantDownlink tx carrier pid mask dci).2.recorded dir = t.recorded dir := by
  have hspec := t.grantDownlink_spec tx carrier pid mask dci
  generalize t.grantDownlink tx carrier pid mask dci = out at hspec
  cases hspec with
  | refused => rfl
  | resent hl _ _ _ _ _ _ _ hafter => exact hafter.recorded hl (by cases dir <;> rfl)
  | started hl _ _ _ _ _ _ hafter => exact hafter.recorded hl (by cases dir <;> rfl)

theorem recorded_grantUplink (t : Terminal) (tx : Tti) (carrier pid : Nat)
    (interval : PrbInterval) (dci : Option DciLocation) (dir : Direction) :
    (t.grantUplink tx carrier pid interval dci).2.recorded dir = t.recorded dir := by
  have hspec := t.grantUplink_spec tx carrier pid interval dci
  generalize t.grantUplink tx carrier pid interval dci = out at hspec
  cases hspec with
  | refused => rfl
  | resent hl _ _ _ _ _ _ _ hafter => exact hafter.recorded hl (by cases dir <;> rfl)
  | started hl _ _ _ _ _ _ hafter => exact hafter.recorded hl (by cases dir <;> rfl)

/-! ## Configurations -/

/-- What a configuration does not keep, it loses; fresh links have nothing queued. -/
theorem Reconfigured.recorded {c : TerminalConfig} (hr : Reconfigured cells c t t')
    (h : t.Formed cells) (dir : Direction) :
    t'.recorded dir + total ((t.links.filter fun l ↦ decide (¬c.Keeps l)).map (·.queued dir)) =
      t.recorded dir := by
  have hqueued : t'.queued dir =
      total (t.links.map fun l ↦ if decide (¬c.Keeps l) then 0 else l.queued dir) := by
    apply total_eq_of_getD
    intro i
    simp only [List.getD_eq_getElem?_getD, List.getElem?_map]
    cases hl' : t'.links[i]? with
    | some l' =>
        cases hr.links i l' hl' with
        | kept hl hkeeps => simp [hl, hkeeps]
        | fresh _ _ hnew =>
            have hfresh : ∀ params, (t.freshLink c i params).queued dir = 0 := by
              intro params
              cases dir <;> rfl
            cases hl : t.links[i]? with
            | none => simp [hfresh]
            | some l => simp [hfresh, hnew l hl]
    | none =>
        cases hl : t.links[i]? with
        | none => rfl
        | some l =>
            have hnot : ¬c.Keeps l := fun hkeeps ↦ by
              rw [hr.getElem?_of_keeps h hl hkeeps] at hl'
              cases hl'
            simp [hnot]
  have hsplit := total_filter_add (fun l ↦ decide (¬c.Keeps l)) (Link.queued · dir) t.links
  rw [Terminal.recorded, Terminal.recorded, hr.failures_eq dir, hqueued, queued]
  omega

/-! ## Boundaries -/

theorem countP_flatMap_newTti {links : List Link} (h : ∀ l ∈ links, l.Formed) (now : Tti)
    (dir : Direction) :
    (links.flatMap fun l ↦ (l.newTti now).1).countP (fun d ↦ decide (d.1 = dir)) =
      total (links.map (·.queued dir)) +
        total (links.map fun l ↦ l.inFlight dir - (l.newTti now).2.inFlight dir) := by
  induction links with
  | nil => rfl
  | cons l links ih =>
      have hl := (h l List.mem_cons_self).countP_newTti now dir
      have hrest := ih fun k hk ↦ h k (List.mem_cons_of_mem l hk)
      rw [List.flatMap_cons, List.countP_append, hl, hrest]
      simp only [List.map_cons, total_cons]
      omega

theorem total_queued_commandedLinks (t : Terminal) (dir : Direction) :
    total (t.commandedLinks.map (·.queued dir)) +
        total ((t.links.filter (Link.resets t.ceQueued)).map (·.queued dir)) = t.queued dir := by
  have hmap : t.commandedLinks.map (·.queued dir) =
      t.links.map fun l ↦ if l.resets t.ceQueued then 0 else l.queued dir := by
    apply List.ext_getElem?
    intro i
    rw [List.getElem?_map, getElem?_commandedLinks, Option.map_map, List.getElem?_map]
    cases t.links[i]? with
    | none => rfl
    | some l => exact congrArg some (Link.queued_commanded _ _ l dir)
  have hsplit := total_filter_add (Link.resets t.ceQueued) (Link.queued · dir) t.links
  rw [hmap, queued]
  omega

/-- After a boundary nothing waits any more. -/
theorem queued_newTti {now : Tti} (hnow : t.lastTti ≠ some now) (pools : PucchPools)
    (dir : Direction) : (t.newTti now pools).1.queued dir = 0 := by
  apply total_eq_zero_iff.mpr
  intro n hn
  obtain ⟨l, hl, rfl⟩ := List.mem_map.mp hn
  rw [(newTti_links hnow pools).1] at hl
  obtain ⟨k, -, rfl⟩ := List.mem_map.mp hl
  exact k.queued_newTti now dir

theorem Formed.failures_newTti (h : t.Formed cells) {now : Tti} (hnow : t.lastTti ≠ some now)
    (pools : PucchPools) (dir : Direction) :
    (t.newTti now pools).1.channels.failures dir + lostBy cells t dir (.boundary now pools) =
      t.recorded dir + t.givenUpBy dir (.boundary now pools) := by
  have hformed : ∀ l ∈ t.commandedLinks, l.Formed := by
    intro l hl
    obtain ⟨i, hi⟩ := List.mem_iff_getElem?.mp hl
    rw [getElem?_commandedLinks] at hi
    obtain ⟨k, hk, rfl⟩ := Option.map_eq_some_iff.mp hi
    exact (Link.Lives.commanded _ _ k).formed (h.links k (List.mem_of_getElem? hk))
  obtain ⟨c, hc, hchannels⟩ := newTti_stats hnow pools
  have hcount : c.failures dir = t.channels.failures dir := by
    rcases hc with rfl | ⟨ce, rfl⟩
    · rfl
    · exact t.channels.failures_pushCe dir ce
  have hfold := c.failures_foldl_recordFailure dir (t.givenUp now) (·.tbs)
  rw [givenUp, if_neg hnow, countP_flatMap_newTti hformed, hcount] at hfold
  have hqueued := t.total_queued_commandedLinks dir
  rw [hchannels, givenUp, if_neg hnow, hfold, lostBy, if_neg hnow, givenUpBy, if_neg hnow, recorded]
  omega

/-! ## Runs -/

/-- What an event gives up is recorded, unless the event loses it. -/
theorem Formed.recorded_step (h : t.Formed cells) (e : Event) (dir : Direction) :
    (t.step cells e).recorded dir + lostBy cells t dir e =
      t.recorded dir + t.givenUpBy dir e := by
  cases e with
  | act action => exact recorded_perform t action dir
  | withdrawRequest => rfl
  | configure c pools =>
      rcases h.setConfig_cases c pools with ⟨e, hcheck, heq⟩ | ⟨hcheck, -, hr⟩
      · simp only [Terminal.step, lostBy, givenUpBy, hcheck, heq]
      · have hrecorded := hr.recorded h dir
        simp only [Terminal.step, lostBy, givenUpBy, hcheck]
        exact hrecorded
  | boundary now pools =>
      by_cases hnow : t.lastTti = some now
      · simp only [Terminal.step, lostBy, givenUpBy, if_pos hnow, newTti_of_last hnow]
      · have hfailures := h.failures_newTti hnow pools dir
        have hqueued := queued_newTti hnow pools dir
        rw [Terminal.recorded, Terminal.step, hqueued]
        exact hfailures
  | grantDownlink tx carrier pid mask dci =>
      exact recorded_grantDownlink t tx carrier pid mask dci dir
  | grantUplink tx carrier pid interval dci =>
      exact recorded_grantUplink t tx carrier pid interval dci dir

theorem Formed.recorded_run (h : t.Formed cells) (hcells : CellParams.Numbered cells)
    (es : List Event) (dir : Direction) :
    (t.run cells es).recorded dir + lostIn cells dir t es =
      t.recorded dir + givenUpIn cells dir t es := by
  induction es generalizing t with
  | nil => rfl
  | cons e es ih =>
      have hstep := h.recorded_step e dir
      have hrest := ih (h.step hcells e)
      rw [Terminal.run, lostIn, givenUpIn]
      omega

theorem recorded_of_create {rnti : Rnti} {c : TerminalConfig} {pools pools' : PucchPools}
    (h : create rnti c cells pools = (.ok t, pools')) (dir : Direction) : t.recorded dir = 0 := by
  have hrecorded := (of_create h).2.recorded (formed_blank rnti c) dir
  have hblank : (blank rnti c).recorded dir = 0 := by cases dir <;> rfl
  omega

/-- Right after a boundary, what was counted, what still waits and what was lost are the
blocks given up so far.  Nothing waits unless the boundary repeats the one before it, so
the counter is exact if and only if no record was lost. -/
theorem failures_after_boundary (config : Config) {rnti : Rnti} {c : TerminalConfig}
    {pools pools' : PucchPools} {t : Terminal}
    (h : create rnti c (CellParams.all config) pools = (.ok t, pools')) (es : List Event)
    (now : Tti) (later : PucchPools) (dir : Direction) :
    let cells := CellParams.all config
    let es' := es ++ [.boundary now later]
    let t' := t.run cells es'
    t'.channels.failures dir + t'.queued dir + lostIn cells dir t es' =
        givenUpIn cells dir t es' ∧
      ((t.run cells es).lastTti ≠ some now → t'.queued dir = 0) ∧
      (t'.channels.failures dir = givenUpIn cells dir t es' ↔
        t'.queued dir = 0 ∧ lostIn cells dir t es' = 0) := by
  intro cells es' t'
  have hcells := CellParams.numbered_all config
  have hrun : t'.channels.failures dir + t'.queued dir + lostIn cells dir t es' =
      givenUpIn cells dir t es' := by
    have hrecorded := (Formed.of_create hcells h).recorded_run hcells es' dir
    rw [recorded_of_create h dir, Nat.zero_add] at hrecorded
    exact hrecorded
  have hlast : t' = ((t.run cells es).newTti now later).1 := run_append t es _
  refine ⟨hrun, fun hnow ↦ ?_, by omega⟩
  rw [hlast]
  exact queued_newTti hnow later dir

/-- Two carriers, and blocks that are sent again once. -/
def twoCells : Config := { cells := [{}, {}], harq := { maxRetx := 1 } }

def twoCarriers : TerminalConfig :=
  { carriers := [⟨0, true⟩, ⟨1, true⟩], bearers := [(3, ⟨.both, 5, 1⟩)] }

/-- A block of the secondary carrier is answered negatively twice.  In between the carrier
may be told to deactivate; its command leaves with a block of the primary carrier. -/
def negativeTwice (deactivate : Bool) : List Event :=
  let pools := unusedPools twoCells
  let send := fun tx carrier pid ↦
    Event.grantDownlink (Tti.ofNat tx) carrier pid (.ofRange 13 0 2) ⟨0, 0⟩
  let answer := fun received carrier ack ↦
    Event.act (.acknowledgeDownlink (Tti.ofNat received) carrier 0 ack)
  [.boundary (Tti.ofNat 0) pools, .act (.reportDownlink 3 9000 0), send 4 0 4,
    .boundary (Tti.ofNat 1) pools, send 5 1 5, answer 8 0 true, answer 9 1 false,
    .boundary (Tti.ofNat 9) pools, send 13 1 5] ++
  (if deactivate then [.act (.requestActivation 1 false)] else []) ++
  [.boundary (Tti.ofNat 10) pools, send 14 0 6, answer 17 1 false]

theorem failures_negativeTwice :
    let cells := CellParams.all twoCells
    let t := created twoCells ⟨70⟩ twoCarriers
    let es := negativeTwice false ++ [.boundary (Tti.ofNat 17) (unusedPools twoCells)]
    create ⟨70⟩ twoCarriers cells (unusedPools twoCells) =
        (.ok t, (create ⟨70⟩ twoCarriers cells (unusedPools twoCells)).2) ∧
      givenUpIn cells .downlink t es = 1 ∧
      (t.run cells es).channels.failures .downlink = givenUpIn cells .downlink t es := by
  intro cells t es
  have hcreate : create ⟨70⟩ twoCarriers cells (unusedPools twoCells) =
      (.ok t, (create ⟨70⟩ twoCarriers cells (unusedPools twoCells)).2) := rfl
  have hexact := (failures_after_boundary twoCells hcreate (negativeTwice false) (Tti.ofNat 17)
    (unusedPools twoCells) .downlink).2.2
  exact ⟨hcreate, by decide +kernel, hexact.mpr ⟨by decide +kernel, by decide +kernel⟩⟩

/-- The block is given up by feedback, and the next boundary resets its table before it
takes the record. -/
theorem failure_lost_by_reset :
    let cells := CellParams.all twoCells
    let t := created twoCells ⟨70⟩ twoCarriers
    let es := negativeTwice true ++ [.boundary (Tti.ofNat 17) (unusedPools twoCells)]
    create ⟨70⟩ twoCarriers cells (unusedPools twoCells) =
        (.ok t, (create ⟨70⟩ twoCarriers cells (unusedPools twoCells)).2) ∧
      (t.run cells (negativeTwice true)).lastTti ≠ some (Tti.ofNat 17) ∧
      givenUpIn cells .downlink t es = 1 ∧ (t.run cells es).channels.failures .downlink = 0 := by
  refine ⟨rfl, ?_, ?_, ?_⟩ <;> decide +kernel

end Terminal

end MacScheduler
