import MacScheduler.Proofs.Terminal.Formed

/-!
# Configurations of a terminal

A configuration that was checked is applied as a whole.  The link of a carrier
that keeps its position stays as it is, limits included; every other carrier of
the new configuration gets a fresh link, and the links of all others are gone.
-/

namespace MacScheduler

/-- Every carrier is listed at its own position. -/
def CellParams.Numbered (cells : List CellParams) : Prop :=
  ∀ (i : Nat) (p : CellParams), cells[i]? = some p → p.index = i

theorem CellParams.numbered_all (config : Config) : Numbered (all config) :=
  fun _ _ h ↦ index_of_getElem?_all h

namespace TerminalConfig

/-- The carrier of the link stands at the same position in the configuration. -/
def Keeps (c : TerminalConfig) (l : Link) : Prop := c.position? l.carrier = some l.position

instance (c : TerminalConfig) (l : Link) : Decidable (c.Keeps l) :=
  inferInstanceAs (Decidable (_ = _))

variable {c : TerminalConfig} {carrier i : Nat}

theorem of_position? (h : c.position? carrier = some i) :
    ∃ cc, c.carriers[i]? = some cc ∧ cc.index = carrier := by
  obtain ⟨hi, hcc, -⟩ := List.findIdx?_eq_some_iff_getElem.mp h
  exact ⟨c.carriers[i], List.getElem?_eq_getElem hi, by simpa using hcc⟩

theorem position?_eq_some_iff (hnodup : (c.carriers.map (·.index)).Nodup) :
    c.position? carrier = some i ↔ (c.carriers.map (·.index))[i]? = some carrier := by
  rw [List.getElem?_map, Option.map_eq_some_iff]
  refine ⟨of_position?, fun ⟨cc, hcc, hindex⟩ ↦ ?_⟩
  obtain ⟨hi, rfl⟩ := List.getElem?_eq_some_iff.mp hcc
  apply List.findIdx?_eq_some_iff_getElem.mpr
  refine ⟨hi, by simpa using hindex, fun j hj hjc ↦ ?_⟩
  have hlt : j < (c.carriers.map (·.index)).length := by
    rw [List.length_map]
    exact Nat.lt_trans hj hi
  have hji : j = i := by
    apply (List.getElem?_inj hlt hnodup).mp
    simp [hi, hindex, Nat.lt_trans hj hi, of_decide_eq_true hjc]
  omega

end TerminalConfig

/-! ## Bearers -/

namespace Terminal

theorem isConfigured_lt {c : Channels} {lcid : Nat} (h : c.isConfigured lcid = true) :
    lcid < c.channels.length := by
  by_contra hge
  simp [Channels.isConfigured, Channels.channel, List.getD, hge] at h

theorem remove_of_configured {c : Channels} {lcid : Nat} (h : c.isConfigured lcid = true) :
    c.remove lcid = (.ok (), (c.remove lcid).2) := by
  simp [Channels.remove, isConfigured_lt h]

theorem configure_of_check {b : Bearer} {lcid : Nat} (h : b.check lcid = .ok ()) (c : Channels) :
    c.configure lcid b = (.ok (), (c.configure lcid b).2) := by
  simp [Channels.configure, h]

theorem removeStale_spec (bearers : Bearers) (c : Channels) (lcids : List Nat) :
    (removeStale bearers c lcids).1 = .ok () ∧
      ∀ dir, (removeStale bearers c lcids).2.failures dir = c.failures dir := by
  induction lcids generalizing c with
  | nil => exact ⟨rfl, fun _ ↦ rfl⟩
  | cons lcid lcids ih =>
      rw [removeStale]
      split
      · rename_i hstale
        obtain ⟨hok, hkeep⟩ := ih (c.remove lcid).2
        rw [remove_of_configured (Bool.and_eq_true_iff.mp hstale).1]
        exact ⟨hok, fun dir ↦ (hkeep dir).trans (c.failures_remove dir lcid)⟩
      · exact ih c

theorem configureAll_spec {bearers : Bearers}
    (h : TerminalConfig.checkBearers bearers = .ok ()) (c : Channels) :
    (configureAll c bearers).1 = .ok () ∧
      ∀ dir, (configureAll c bearers).2.failures dir = c.failures dir := by
  induction bearers generalizing c with
  | nil => exact ⟨rfl, fun _ ↦ rfl⟩
  | cons entry bearers ih =>
      obtain ⟨lcid, b⟩ := entry
      rw [TerminalConfig.checkBearers] at h
      cases hb : b.check lcid with
      | error e => simp [hb] at h
      | ok _ =>
          simp only [hb] at h
          obtain ⟨hok, hkeep⟩ := ih h (c.configure lcid b).2
          rw [configureAll, configure_of_check hb]
          exact ⟨hok, fun dir ↦ (hkeep dir).trans (c.failures_configure dir lcid b)⟩

theorem applyBearers_spec {bearers : Bearers}
    (h : TerminalConfig.checkBearers bearers = .ok ()) (c : Channels) :
    ∃ c', applyBearers c bearers = (.ok (), c') ∧ ∀ dir, c'.failures dir = c.failures dir := by
  obtain ⟨hok, hkeep⟩ := removeStale_spec bearers c (List.range nofLcids)
  obtain ⟨hok', hkeep'⟩ := configureAll_spec h (removeStale bearers c (List.range nofLcids)).2
  refine ⟨(configureAll (removeStale bearers c (List.range nofLcids)).2 bearers).2, ?_,
    fun dir ↦ (hkeep' dir).trans (hkeep dir)⟩
  have hstale : removeStale bearers c (List.range nofLcids) =
      (.ok (), (removeStale bearers c (List.range nofLcids)).2) := Prod.ext hok rfl
  rw [applyBearers, hstale]
  exact Prod.ext hok' rfl

/-! ## Links -/

/-- The link at a position once a configuration is applied: the one held so far when its
carrier stays there, else a fresh one. -/
inductive Settled (cells : List CellParams) (c : TerminalConfig) (t : Terminal) (i : Nat) :
    Link → Prop
  | kept {l : Link} (hl : t.links[i]? = some l) (hkeeps : c.Keeps l) : Settled cells c t i l
  | fresh {cc : CarrierConfig} {params : CellParams} (hcc : c.carriers[i]? = some cc)
      (hparams : cells[cc.index]? = some params)
      (hnew : ∀ l, t.links[i]? = some l → ¬c.Keeps l) :
      Settled cells c t i (t.freshLink c i params)

variable {cells : List CellParams} {c : TerminalConfig} {t t' : Terminal}

theorem exists_placeLink (t : Terminal) (c : TerminalConfig) (position : Nat) {cc : CarrierConfig}
    (h : cc.index < cells.length) : ∃ l, placeLink t cells c position cc = .ok l := by
  unfold placeLink
  split
  · exact ⟨_, rfl⟩
  · rw [List.getElem?_eq_getElem h]
    exact ⟨_, rfl⟩

theorem exists_placeLinks (t : Terminal) (c : TerminalConfig) {carriers : List CarrierConfig}
    (h : ∀ cc ∈ carriers, cc.index < cells.length) (position : Nat) :
    ∃ links, (t.placeLinks cells c position carriers).1 = .ok links ∧
      links.length = carriers.length ∧
      ∀ (i : Nat) (l : Link), links[i]? = some l → ∃ cc, carriers[i]? = some cc ∧
        placeLink t cells c (position + i) cc = .ok l := by
  induction carriers generalizing position with
  | nil => exact ⟨[], rfl, rfl, by simp⟩
  | cons cc carriers ih =>
      obtain ⟨l, hl⟩ := exists_placeLink t c position (h cc List.mem_cons_self)
      obtain ⟨links, hlinks, hlen, hplaced⟩ :=
        ih (fun cc' hcc' ↦ h cc' (List.mem_cons_of_mem cc hcc')) (position + 1)
      refine ⟨l :: links, ?_, by simp [hlen], fun i l' hi ↦ ?_⟩
      · simp only [placeLinks, hl, hlinks]
        rfl
      · cases i with
        | zero =>
            obtain rfl : l = l' := by simpa using hi
            exact ⟨cc, rfl, hl⟩
        | succ i =>
            obtain ⟨cc', hcc', hplace⟩ := hplaced i l' (by simpa using hi)
            refine ⟨cc', by simpa using hcc', ?_⟩
            rwa [Nat.add_right_comm, Nat.add_assoc] at hplace

theorem Formed.settled (h : t.Formed cells) (hnodup : (c.carriers.map (·.index)).Nodup) {i : Nat}
    {cc : CarrierConfig} (hcc : c.carriers[i]? = some cc) {l : Link}
    (hplace : placeLink t cells c i cc = .ok l) : Settled cells c t i l := by
  have hposition : c.position? cc.index = some i := by
    rw [TerminalConfig.position?_eq_some_iff hnodup, List.getElem?_map, hcc, Option.map_some]
  rcases placeLink_cases hplace with ⟨hlink, hpos⟩ | ⟨params, hparams, rfl, hnone⟩
  · obtain ⟨hmem, hcarrier⟩ := of_link? hlink
    obtain ⟨j, hj⟩ := List.mem_iff_getElem?.mp hmem
    obtain rfl : j = i := (h.position_eq j l hj).symm.trans hpos
    exact .kept hj (by rw [TerminalConfig.Keeps, hcarrier, hposition, hpos])
  · refine .fresh hcc hparams fun k hk hkeeps ↦ ?_
    have hkpos := h.position_eq i k hk
    rw [TerminalConfig.Keeps, hkpos, TerminalConfig.position?_eq_some_iff hnodup,
      List.getElem?_map, hcc, Option.map_some] at hkeeps
    have hlink := link?_of_mem h.nodup (List.mem_of_getElem? hk)
    rw [← Option.some.inj hkeeps] at hlink
    exact hnone k hlink hkpos

/-- `t'` is `t` under the configuration `c`. -/
structure Reconfigured (cells : List CellParams) (c : TerminalConfig) (t t' : Terminal) : Prop where
  config_eq : t'.config = c
  lastTti_eq : t'.lastTti = t.lastTti
  failures_eq : ∀ dir, t'.channels.failures dir = t.channels.failures dir
  length_eq : t'.links.length = c.carriers.length
  links : ∀ (i : Nat) (l' : Link), t'.links[i]? = some l' → Settled cells c t i l'

theorem apply_of_placed {links : List Link} {commands : List (Nat × Bool)} {channels : Channels}
    (hlinks : t.placeLinks cells c 0 c.carriers = (.ok links, commands))
    (hchannels : applyBearers t.channels c.bearers = (.ok (), channels)) (pools : PucchPools) :
    (t.apply cells c pools).1 = .ok () ∧ (t.apply cells c pools).2.1.config = c ∧
      (t.apply cells c pools).2.1.lastTti = t.lastTti ∧
      (t.apply cells c pools).2.1.channels = channels ∧
      (t.apply cells c pools).2.1.links = links := by
  unfold Terminal.apply
  rw [hlinks]
  dsimp only
  rw [hchannels]
  exact ⟨rfl, rfl, rfl, rfl, rfl⟩

/-- A configuration that was checked is applied as a whole. -/
theorem Formed.apply (h : t.Formed cells) (hc : c.check cells.length = .ok ())
    (pools : PucchPools) :
    (t.apply cells c pools).1 = .ok () ∧ Reconfigured cells c t (t.apply cells c pools).2.1 := by
  obtain ⟨hnodup, hlt, hbearers⟩ := of_check hc
  obtain ⟨links, hlinks, hlen, hplaced⟩ := exists_placeLinks t c hlt 0
  obtain ⟨channels, hchannels, hfailures⟩ := applyBearers_spec hbearers t.channels
  obtain ⟨hok, hconfig, hlast, hchannels', hlinks'⟩ :=
    apply_of_placed (Prod.ext hlinks rfl) hchannels pools
  refine ⟨hok, hconfig, hlast, fun dir ↦ hchannels' ▸ hfailures dir, hlinks' ▸ hlen,
    fun i l hl ↦ ?_⟩
  rw [hlinks'] at hl
  obtain ⟨cc, hcc, hplace⟩ := hplaced i l hl
  rw [Nat.zero_add] at hplace
  exact h.settled hnodup hcc hplace

namespace Reconfigured

theorem getElem?_of_keeps (hr : Reconfigured cells c t t') (h : t.Formed cells) {i : Nat} {l : Link}
    (hl : t.links[i]? = some l) (hkeeps : c.Keeps l) : t'.links[i]? = some l := by
  have hposition : c.position? l.carrier = some i := h.position_eq i l hl ▸ hkeeps
  obtain ⟨cc, hcc, -⟩ := TerminalConfig.of_position? hposition
  have hlt : i < t'.links.length := hr.length_eq ▸ (List.getElem?_eq_some_iff.mp hcc).1
  have hget := List.getElem?_eq_getElem hlt
  rw [hget]
  generalize t'.links[i] = l' at hget
  cases hr.links i l' hget with
  | kept hl' => exact hl'.symm.trans hl
  | fresh _ _ hnew => exact absurd hkeeps (hnew l hl)

theorem formed (hr : Reconfigured cells c t t') (h : t.Formed cells)
    (hcells : CellParams.Numbered cells) (hnodup : (c.carriers.map (·.index)).Nodup) :
    t'.Formed cells := by
  have hcarrier : ∀ (i : Nat) (l' : Link), t'.links[i]? = some l' →
      (c.carriers.map (·.index))[i]? = some l'.carrier ∧ l'.position = i ∧
        cells[l'.carrier]? = some l'.params ∧ l'.Formed := by
    intro i l' hl'
    cases hr.links i l' hl' with
    | kept hl hkeeps =>
        have hpos := h.position_eq i l' hl
        have hmem := List.mem_of_getElem? hl
        exact ⟨(TerminalConfig.position?_eq_some_iff hnodup).mp (hpos ▸ hkeeps), hpos,
          h.params l' hmem, h.links l' hmem⟩
    | @fresh cc params hcc hparams =>
        have hindex := hcells _ _ hparams
        have hfresh : (t.freshLink c i params).carrier = cc.index := hindex
        refine ⟨?_, rfl, ?_, Link.formed_create _ _ _ _ _ _ _⟩
        · rw [List.getElem?_map, hcc, Option.map_some, hfresh]
        · rw [hfresh]
          exact hparams
  have hcarriers : t'.links.map (·.carrier) = c.carriers.map (·.index) := by
    apply List.ext_getElem?
    intro i
    rw [List.getElem?_map]
    cases hl : t'.links[i]? with
    | none =>
        have hge := List.getElem?_eq_none_iff.mp hl
        rw [hr.length_eq] at hge
        rw [List.getElem?_map, List.getElem?_eq_none hge]
        rfl
    | some l' => exact (hcarrier i l' hl).1.symm
  have hmem : ∀ l' ∈ t'.links, ∃ i, t'.links[i]? = some l' := fun l' hl' ↦
    List.mem_iff_getElem?.mp hl'
  refine ⟨hr.config_eq ▸ hcarriers, hcarriers ▸ hnodup, fun i l' hl' ↦ (hcarrier i l' hl').2.1,
    fun l' hl' ↦ ?_, fun l' hl' ↦ ?_⟩
  · obtain ⟨i, hi⟩ := hmem l' hl'
    exact (hcarrier i l' hi).2.2.1
  · obtain ⟨i, hi⟩ := hmem l' hl'
    exact (hcarrier i l' hi).2.2.2

end Reconfigured

/-- A configuration is refused or applied as a whole. -/
theorem Formed.setConfig_cases (h : t.Formed cells) (c : TerminalConfig) (pools : PucchPools) :
    ((∃ e, c.check cells.length = .error e ∧
        t.setConfig c cells pools = (.error e, t, pools)) ∨
      c.check cells.length = .ok () ∧ (t.setConfig c cells pools).1 = .ok () ∧
        Reconfigured cells c t (t.setConfig c cells pools).2.1) := by
  unfold Terminal.setConfig
  cases hc : c.check cells.length with
  | error e => exact .inl ⟨e, rfl, rfl⟩
  | ok _ => exact .inr ⟨rfl, h.apply hc pools⟩

/-- A terminal without carriers, as it is before its first configuration. -/
def blank (rnti : Rnti) (c : TerminalConfig) : Terminal :=
  { rnti, config := { c with carriers := [] } }

theorem formed_blank (rnti : Rnti) (c : TerminalConfig) : (blank rnti c).Formed cells :=
  ⟨rfl, .nil, by simp [blank], by simp [blank], by simp [blank]⟩

theorem of_create {rnti : Rnti} {pools pools' : PucchPools}
    (h : create rnti c cells pools = (.ok t, pools')) :
    c.check cells.length = .ok () ∧ Reconfigured cells c (blank rnti c) t := by
  unfold create at h
  cases hc : c.check cells.length with
  | error e => simp [hc] at h
  | ok _ =>
      have hblank : (blank rnti c).Formed cells := formed_blank rnti c
      obtain ⟨hok, hr⟩ := hblank.apply hc pools
      unfold blank at hok hr
      simp only [hc] at h
      generalize Terminal.apply _ cells c pools = out at h hok hr
      obtain ⟨r, t', pools''⟩ := out
      obtain rfl : r = .ok () := hok
      cases h
      exact ⟨rfl, hr⟩

end Terminal

end MacScheduler
