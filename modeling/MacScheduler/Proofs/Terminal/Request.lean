import Mathlib.Data.List.Nodup
import MacScheduler.Proofs.Terminal.Boundary
import MacScheduler.Proofs.Terminal.Commit
import MacScheduler.Terminal.Action

/-!
# Requests to a terminal

Between boundaries nothing is sent.  An action changes at most the tables of one
link, through feedback, and a configuration keeps links as they are, drops them
or adds fresh ones.
-/

namespace MacScheduler

/-- Every carrier is listed at its own position and breaks no rule. -/
def CellParams.Listed (cells : List CellParams) : Prop :=
  ∀ (i : Nat) (p : CellParams), cells[i]? = some p →
    p.index = i ∧ p.cell.violations = [] ∧ p.harq.violations = []

theorem CellParams.Listed.inPace {cells : List CellParams} (h : CellParams.Listed cells) {d : Nat}
    (hd : d ≤ 1) : CellParams.InPace cells d := by
  intro p hp
  obtain ⟨i, hi⟩ := List.mem_iff_getElem?.mp hp
  obtain ⟨-, hshort⟩ := HarqConfig.roundTrip_bounds (h i p hi).2.2
  omega

namespace Link

theorem blank_create (rnti : Rnti) (position : Nat) (params : CellParams) (active : Bool)
    (maxAggrLevel : Nat) (maxMcsDl maxMcsUl : Option Nat) :
    (create rnti position params active maxAggrLevel maxMcsDl maxMcsUl).Blank :=
  ⟨.empty _ _ _, .empty _ _ _⟩

theorem steady_create {params : CellParams} (h : params.harq.violations = []) (rnti : Rnti)
    (position : Nat) (active : Bool) (maxAggrLevel : Nat) (maxMcsDl maxMcsUl : Option Nat)
    (now : Tti) :
    (create rnti position params active maxAggrLevel maxMcsDl maxMcsUl).Steady now where
  harq := h
  dl := .empty _ _ _ _
  ul := .empty _ _ _ _
  off := fun _ ↦ blank_create _ _ _ _ _ _ _
  dropped := by simp [create, HarqTable.empty]

end Link

namespace Terminal

variable {cells : List CellParams} {now : Tti} {t t' : Terminal}

/-- `t'` is `t` at the same point of the clock, with nothing sent in between: every link
held blocks before, or holds none. -/
structure Eases (cells : List CellParams) (now : Tti) (t t' : Terminal) : Prop where
  rnti_eq : t'.rnti = t.rnti
  steady : t'.Steady cells now
  links : ∀ l' ∈ t'.links, l'.Blank ∨ ∃ l ∈ t.links, l.Eases now l'

/-! ## Actions -/

theorem Steady.of_links (h : t.Steady cells now) (hrnti : t'.rnti = t.rnti)
    (hlast : t'.lastTti = t.lastTti) (hlinks : EaseAll now t.links t'.links) :
    t.Eases cells now t' where
  rnti_eq := hrnti
  steady :=
    { clock := hlast ▸ h.clock
      carriers := hlinks.carriers_eq ▸ h.carriers
      params := by
        intro l' hl'
        obtain ⟨l, hl, hease⟩ := hlinks.links l' hl'
        rw [hease.wanes.carrier_eq, hease.wanes.params_eq]
        exact h.params l hl
      links := hlinks.steady }
  links := fun l' hl' ↦ .inr (hlinks.links l' hl')

theorem Steady.of_same_links (h : t.Steady cells now) (hrnti : t'.rnti = t.rnti)
    (hlast : t'.lastTti = t.lastTti) (hlinks : t'.links = t.links) : t.Eases cells now t' := by
  apply h.of_links hrnti hlast
  rw [hlinks]
  exact .refl h.links

theorem Steady.refl (h : t.Steady cells now) : t.Eases cells now t := h.of_same_links rfl rfl rfl

theorem of_link? {carrier : Nat} {l : Link} (h : t.link? carrier = some l) :
    l ∈ t.links ∧ l.carrier = carrier :=
  ⟨List.mem_of_find?_eq_some h, by simpa using List.find?_some h⟩

theorem link?_of_mem (h : (t.links.map (·.carrier)).Nodup) {l : Link} (hl : l ∈ t.links) :
    t.link? l.carrier = some l := by
  unfold link?
  cases hfind : t.links.find? fun k ↦ decide (k.carrier = l.carrier) with
  | none => simpa using List.find?_eq_none.mp hfind l hl
  | some k =>
      obtain ⟨hk, hcarrier⟩ := of_link? hfind
      rw [List.inj_on_of_nodup_map h hk hl hcarrier]

theorem EaseAll.replaceLink {carrier : Nat} {links : List Link} {l l' : Link}
    (h : ∀ l ∈ links, l.Steady now)
    (hl : links.find? (fun l ↦ decide (l.carrier = carrier)) = some l) (hease : l.Eases now l') :
    EaseAll now links (Terminal.replaceLink carrier l' links) where
  carriers_eq := map_replaceLink hl hease.wanes.carrier_eq
  links := by
    intro k hk
    rcases mem_replaceLink hk with rfl | hk
    · exact ⟨l, List.mem_of_find?_eq_some hl, hease⟩
    · exact ⟨k, hk, .refl (h k hk)⟩

theorem Steady.putLink (h : t.Steady cells now) {carrier : Nat} {l l' : Link}
    (hl : t.link? carrier = some l) (hease : l.Eases now l') :
    t.Eases cells now (t.putLink carrier l') :=
  h.of_links rfl rfl (.replaceLink h.links hl hease)

theorem Steady.reportChannel (h : t.Steady cells now) (received : Tti) (carrier : Nat)
    (m : Measure) : t.Eases cells now (t.reportChannel received carrier m).2 := by
  unfold Terminal.reportChannel updateLink
  cases hl : t.link? carrier with
  | none => exact h.refl
  | some l =>
      apply h.putLink hl
      have hsteady := h.links l (of_link? hl).1
      cases m <;> exact .of_tables hsteady rfl rfl rfl fun ho ↦ ho

theorem Steady.acknowledgeDownlink (h : t.Steady cells now) (received : Tti) (carrier tb : Nat)
    (ack : Bool) : t.Eases cells now (t.acknowledgeDownlink received carrier tb ack).2 := by
  unfold Terminal.acknowledgeDownlink
  cases hl : t.link? carrier with
  | none => exact h.refl
  | some l =>
      dsimp only
      cases hpid : l.dl.sentAt? received.acknowledgedTx with
      | none => exact h.refl
      | some pid =>
          exact h.putLink hl (.setAckDl (h.links l (of_link? hl).1) pid tb ack)

theorem Steady.acknowledgeUplink (h : t.Steady cells now) (received : Tti) (carrier : Nat)
    (ack : Bool) : t.Eases cells now (t.acknowledgeUplink received carrier ack).2 := by
  unfold Terminal.acknowledgeUplink
  cases hl : t.link? carrier with
  | none => exact h.refl
  | some l =>
      dsimp only
      cases hpid : l.ul.sentAt? received with
      | none => exact h.refl
      | some pid =>
          exact h.putLink hl (.setAckUl (h.links l (of_link? hl).1) pid 0 ack)

/-- An edit replaces the buffers of one link, if there is a link on the carrier. -/
theorem editBuffer_cases (t : Terminal) (carrier pid tb : Nat) (edit : ByteArray → ByteArray) :
    (t.editBuffer carrier pid tb edit).2 = t ∨
      ∃ l buffers, t.link? carrier = some l ∧
        (t.editBuffer carrier pid tb edit).2 = t.putLink carrier { l with buffers } := by
  unfold editBuffer
  cases hl : t.link? carrier with
  | none => exact .inl rfl
  | some l =>
      dsimp only
      unfold Link.editBuffer
      cases l.buffer? pid tb with
      | error e => exact .inr ⟨l, l.buffers, rfl, rfl⟩
      | ok contents => exact .inr ⟨l, _, rfl, rfl⟩

theorem Steady.editBuffer (h : t.Steady cells now) (carrier pid tb : Nat)
    (edit : ByteArray → ByteArray) : t.Eases cells now (t.editBuffer carrier pid tb edit).2 := by
  rcases t.editBuffer_cases carrier pid tb edit with heq | ⟨l, buffers, hl, heq⟩ <;> rw [heq]
  · exact h.refl
  · exact h.putLink hl (.of_tables (h.links l (of_link? hl).1) rfl rfl rfl fun ho ↦ ho)

theorem taken_snd (index : Nat) (r : Bool × Terminal) : (taken index r).2 = r.2 := by
  obtain ⟨ok, t⟩ := r
  cases ok <;> rfl

/-- No action sends anything. -/
theorem Steady.perform (h : t.Steady cells now) (action : Action) :
    t.Eases cells now (t.perform action).2 := by
  cases action with
  | configureBearer lcid b =>
      simp only [Terminal.perform, Terminal.configureBearer]
      split <;> exact h.of_same_links rfl rfl rfl
  | removeBearer lcid =>
      simp only [Terminal.perform, Terminal.removeBearer]
      split <;> exact h.of_same_links rfl rfl rfl
  | requestActivation carrier activate =>
      simp only [Terminal.perform, Terminal.requestActivation]
      split
      · exact h.refl
      · exact h.refl
      · exact h.of_same_links rfl rfl rfl
  | reportDownlink lcid fresh repeated =>
      rw [Terminal.perform, taken_snd]
      exact h.of_same_links rfl rfl rfl
  | pushCe ce => exact h.of_same_links rfl rfl rfl
  | reportUplink lcg bytes =>
      rw [Terminal.perform, taken_snd]
      exact h.of_same_links rfl rfl rfl
  | reportHeadroom headroom => exact h.of_same_links rfl rfl rfl
  | requestUplink => exact h.of_same_links rfl rfl rfl
  | reportChannel received carrier m => exact h.reportChannel received carrier m
  | acknowledgeDownlink received carrier tb ack =>
      exact h.acknowledgeDownlink received carrier tb ack
  | acknowledgeUplink received carrier ack => exact h.acknowledgeUplink received carrier ack
  | raisePower dir => cases dir <;> exact h.of_same_links rfl rfl rfl
  | lowerPower dir => cases dir <;> exact h.of_same_links rfl rfl rfl
  | editBuffer carrier pid tb edit => exact h.editBuffer carrier pid tb edit

/-! ## Configurations -/

theorem nodup_of_badCarrier? {nofCells : Nat} {seen : List Nat} {carriers : List CarrierConfig}
    (h : TerminalConfig.badCarrier? nofCells seen carriers = none) :
    (carriers.map (·.index)).Nodup ∧ ∀ i ∈ carriers.map (·.index), i < nofCells ∧ i ∉ seen := by
  induction carriers generalizing seen with
  | nil => simp
  | cons cc carriers ih =>
      rw [TerminalConfig.badCarrier?] at h
      split at h
      · cases h
      · rename_i hgood
        have hlt : cc.index < nofCells := Nat.lt_of_not_le fun hle ↦ hgood (.inl hle)
        have hnew : cc.index ∉ seen := by simpa using fun hmem ↦ hgood (.inr hmem)
        obtain ⟨hnodup, hrest⟩ := ih h
        refine ⟨List.nodup_cons.mpr ⟨fun hmem ↦ ?_, hnodup⟩, fun i hi ↦ ?_⟩
        · exact (hrest _ hmem).2 List.mem_cons_self
        · rcases List.mem_cons.mp hi with rfl | hi
          · exact ⟨hlt, hnew⟩
          · exact ⟨(hrest i hi).1, fun hmem ↦ (hrest i hi).2 (List.mem_cons_of_mem _ hmem)⟩

/-- The carriers of an accepted configuration exist and differ, and its bearers are in order. -/
theorem of_check {c : TerminalConfig} {nofCells : Nat} (h : c.check nofCells = .ok ()) :
    (c.carriers.map (·.index)).Nodup ∧ (∀ cc ∈ c.carriers, cc.index < nofCells) ∧
      TerminalConfig.checkBearers c.bearers = .ok () := by
  unfold TerminalConfig.check at h
  split at h
  · cases h
  · cases hbad : TerminalConfig.badCarrier? nofCells [] c.carriers with
    | some index => simp [hbad] at h
    | none =>
        obtain ⟨hnodup, hlt⟩ := nodup_of_badCarrier? hbad
        refine ⟨hnodup, fun cc hcc ↦ (hlt _ (List.mem_map_of_mem hcc)).1, ?_⟩
        rw [hbad] at h
        split at h
        · cases h
        · cases h
        · cases h
        · exact h

/-- The fresh link of a carrier with the given parameters. -/
def freshLink (t : Terminal) (c : TerminalConfig) (position : Nat) (params : CellParams) : Link :=
  .create t.rnti position params (decide (position = 0)) (min c.maxAggrLevel maxAggrLevel)
    c.maxMcsDl c.maxMcsUl

/-- A carrier is served by its link at the position, or by a fresh one if there is none. -/
theorem placeLink_cases {c : TerminalConfig} {position : Nat} {cc : CarrierConfig} {l : Link}
    (h : placeLink t cells c position cc = .ok l) :
    (t.link? cc.index = some l ∧ l.position = position) ∨
      ∃ params, cells[cc.index]? = some params ∧ l = t.freshLink c position params ∧
        ∀ m, t.link? cc.index = some m → m.position ≠ position := by
  unfold placeLink at h
  cases hheld : (t.link? cc.index).filter fun l ↦ decide (l.position = position) with
  | some m =>
      simp only [hheld] at h
      obtain rfl := Except.ok.inj h
      obtain ⟨hlink, hposition⟩ := Option.filter_eq_some_iff.mp hheld
      exact .inl ⟨hlink, of_decide_eq_true hposition⟩
  | none =>
      simp only [hheld] at h
      cases hparams : cells[cc.index]? with
      | none => simp [hparams] at h
      | some params =>
          simp only [hparams] at h
          refine .inr ⟨params, rfl, (Except.ok.inj h).symm, fun m hm ↦ ?_⟩
          simpa [hm] using hheld

theorem placeLink_spec (hcells : CellParams.Listed cells) (h : t.Steady cells now)
    {c : TerminalConfig} {position : Nat} {cc : CarrierConfig} {l : Link}
    (hplace : placeLink t cells c position cc = .ok l) :
    l.carrier = cc.index ∧ cells[l.carrier]? = some l.params ∧ l.Steady now ∧
      (l.Blank ∨ l ∈ t.links) := by
  rcases placeLink_cases hplace with ⟨hlink, -⟩ | ⟨params, hparams, rfl, -⟩
  · obtain ⟨hmem, hcarrier⟩ := of_link? hlink
    exact ⟨hcarrier, h.params l hmem, h.links l hmem, .inr hmem⟩
  · obtain ⟨hindex, -, hharq⟩ := hcells _ _ hparams
    refine ⟨hindex, ?_, Link.steady_create hharq _ _ _ _ _ _ now,
      .inl (Link.blank_create _ _ _ _ _ _ _)⟩
    change cells[params.index]? = some params
    rw [hindex, hparams]

theorem placeLinks_spec (hcells : CellParams.Listed cells) (h : t.Steady cells now)
    {c : TerminalConfig} {position : Nat} {carriers : List CarrierConfig} {links : List Link}
    (hplace : (t.placeLinks cells c position carriers).1 = .ok links) :
    links.map (·.carrier) = carriers.map (·.index) ∧
      ∀ l ∈ links, cells[l.carrier]? = some l.params ∧ l.Steady now ∧ (l.Blank ∨ l ∈ t.links) := by
  induction carriers generalizing position links with
  | nil =>
      cases hplace
      simp
  | cons cc carriers ih =>
      rw [placeLinks] at hplace
      cases hlink : placeLink t cells c position cc with
      | error e => simp [hlink] at hplace
      | ok l =>
          simp only [hlink] at hplace
          cases hrest : (t.placeLinks cells c (position + 1) carriers).1 with
          | error e => simp [hrest, Except.map] at hplace
          | ok rest =>
              rw [hrest] at hplace
              obtain rfl : l :: rest = links := Except.ok.inj hplace
              obtain ⟨hcarriers, hlinks⟩ := ih hrest
              have hl := placeLink_spec hcells h hlink
              refine ⟨by rw [List.map_cons, List.map_cons, hl.1, hcarriers], fun k hk ↦ ?_⟩
              rcases List.mem_cons.mp hk with rfl | hk
              · exact hl.2
              · exact hlinks k hk

theorem exists_placeLink_of_mem {c : TerminalConfig} {position : Nat}
    {carriers : List CarrierConfig} {links : List Link}
    (hplace : (t.placeLinks cells c position carriers).1 = .ok links) {l : Link} (hl : l ∈ links) :
    ∃ position cc, placeLink t cells c position cc = .ok l := by
  induction carriers generalizing position links with
  | nil =>
      cases hplace
      cases hl
  | cons cc carriers ih =>
      rw [placeLinks] at hplace
      cases hlink : placeLink t cells c position cc with
      | error e => simp [hlink] at hplace
      | ok k =>
          simp only [hlink] at hplace
          cases hrest : (t.placeLinks cells c (position + 1) carriers).1 with
          | error e => simp [hrest, Except.map] at hplace
          | ok rest =>
              rw [hrest] at hplace
              obtain rfl : k :: rest = links := Except.ok.inj hplace
              rcases List.mem_cons.mp hl with rfl | hl
              · exact ⟨position, cc, hlink⟩
              · exact ih hrest hl

theorem apply_links (t : Terminal) (cells : List CellParams) (c : TerminalConfig)
    (pools : PucchPools) :
    (t.apply cells c pools).2.1.rnti = t.rnti ∧
      (t.apply cells c pools).2.1.lastTti = t.lastTti ∧
      ((t.apply cells c pools).2.1.links = [] ∨
        (t.placeLinks cells c 0 c.carriers).1 = .ok (t.apply cells c pools).2.1.links) := by
  unfold apply
  rcases t.placeLinks cells c 0 c.carriers with ⟨e | links, commands⟩
  · exact ⟨rfl, rfl, .inl rfl⟩
  · dsimp only
    split <;> exact ⟨rfl, rfl, .inr rfl⟩

/-- No configuration sends anything. -/
theorem Steady.apply (h : t.Steady cells now) (hcells : CellParams.Listed cells)
    {c : TerminalConfig} (hc : (c.carriers.map (·.index)).Nodup) (pools : PucchPools) :
    t.Eases cells now (t.apply cells c pools).2.1 := by
  obtain ⟨hrnti, hlast, hlinks⟩ := t.apply_links cells c pools
  generalize (t.apply cells c pools).2.1 = t' at hrnti hlast hlinks
  rcases hlinks with hnil | hplace
  · refine ⟨hrnti, ⟨hlast ▸ h.clock, ?_, ?_, ?_⟩, ?_⟩ <;> simp [hnil]
  · obtain ⟨hcarriers, hplaced⟩ := placeLinks_spec hcells h hplace
    refine ⟨hrnti, ⟨hlast ▸ h.clock, hcarriers ▸ hc, fun l hl ↦ (hplaced l hl).1,
      fun l hl ↦ (hplaced l hl).2.1⟩, fun l hl ↦ ?_⟩
    rcases (hplaced l hl).2.2 with hblank | hold
    · exact .inl hblank
    · exact .inr ⟨l, hold, .refl (h.links l hold)⟩

theorem Steady.setConfig (h : t.Steady cells now) (hcells : CellParams.Listed cells)
    (c : TerminalConfig) (pools : PucchPools) :
    t.Eases cells now (t.setConfig c cells pools).2.1 := by
  unfold Terminal.setConfig
  cases hcheck : c.check cells.length with
  | error e => exact h.refl
  | ok _ => exact h.apply hcells (of_check hcheck).1 pools

theorem steady_of_create (hcells : CellParams.Listed cells) {rnti : Rnti} {c : TerminalConfig}
    {pools pools' : PucchPools} (h : Terminal.create rnti c cells pools = (.ok t, pools'))
    (now : Tti) : t.rnti = rnti ∧ t.Steady cells now ∧ ∀ l ∈ t.links, l.Blank := by
  unfold create at h
  cases hcheck : c.check cells.length with
  | error e => simp [hcheck] at h
  | ok _ =>
      simp only [hcheck] at h
      have hblank : ({ rnti, config := { c with carriers := [] } } : Terminal).Steady cells now :=
        ⟨.inl rfl, by simp, by simp, by simp⟩
      have heases := hblank.apply hcells (of_check hcheck).1 pools
      generalize Terminal.apply _ cells c pools = out at h heases
      obtain ⟨r, t', pools''⟩ := out
      cases r with
      | error e => cases h
      | ok _ =>
          cases h
          refine ⟨heases.rnti_eq, heases.steady, fun l hl ↦ ?_⟩
          rcases heases.links l hl with hb | ⟨_, hmem, -⟩
          · exact hb
          · cases hmem

end Terminal

end MacScheduler
