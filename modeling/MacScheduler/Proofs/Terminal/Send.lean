import MacScheduler.Proofs.Terminal.Request

/-!
# Grants at the present point

A grant adds at most one transmission to one link, sent now.  A retransmission
that is due is always granted on its own resources, and once the uplink one is
granted the link has none due any more.
-/

namespace MacScheduler

namespace Link

variable {l : Link} {now : Tti}

theorem Steady.allowsRetx_of_due {α : Type} {h : HarqTable α} {p : HarqProcess α}
    (hs : l.Steady now) (hblank : l.Blank → h.Blank) (hp : p ∈ h.procs) {t : Tti}
    (hdue : p.hasPendingRetx t = true) : l.allowsRetx = true := by
  by_contra hoff
  have hquiet := (hblank (hs.off (by simpa using hoff))).quiet t p hp
  rw [hdue] at hquiet
  cases hquiet

theorem resendDownlink_of_due (hallows : l.allowsRetx = true) {pid : Nat}
    {p : HarqProcess RbgMask} (hp : l.dl.get? pid = some p) {t : Tti}
    (hdue : p.hasPendingRetx t = true) (htbs : 0 < l.dl.nofTbs) {alloc mask : RbgMask}
    (halloc : p.alloc = some alloc) (hcount : mask.count = alloc.count) :
    l.resendDownlink t pid mask =
      (.ok (p.resend t mask).1, { l with dl := l.dl.put pid (p.resend t mask).2 }) := by
  have hretx := HarqTable.newRetx_of_due hp hdue htbs mask
  simp [resendDownlink, hallows, hp, halloc, hcount, hretx]

theorem resendUplink_of_due (hallows : l.allowsRetx = true) {pid : Nat}
    {p : HarqProcess PrbInterval} (hp : l.ul.get? pid = some p) {t : Tti}
    (hdue : p.hasPendingRetx t = true) (htbs : 0 < l.ul.nofTbs) {alloc interval : PrbInterval}
    (halloc : p.alloc = some alloc) (hlen : interval.len = alloc.len) :
    ∃ b, b.isRetx = true ∧ l.resendUplink t pid interval =
      (.ok b, { l with ul := l.ul.put pid (p.resend t interval).2 }) := by
  have hretx := HarqTable.newRetx_of_due hp hdue htbs interval
  obtain ⟨b, hlast⟩ : ∃ b, (p.resend t interval).1.getLast? = some b :=
    ⟨_, List.getLast?_eq_some_getLast (HarqProcess.grants_resend_ne_nil hdue interval)⟩
  refine ⟨b, HarqProcess.isRetx_of_mem_resend (List.mem_of_getLast? hlast), ?_⟩
  simp [resendUplink, hallows, hp, halloc, hlen, hretx, lastGrant, hlast]

theorem Steady.sendDl (hs : l.Steady now) (hallows : l.allowsRetx = true) {pid : Nat}
    {mask : RbgMask} {dl : HarqTable RbgMask} (ht : l.dl.Transmits now.downlinkTx pid mask dl)
    (buffers : List (List ByteArray)) : ({ l with dl, buffers } : Link).Steady now :=
  { hs with
    dl := ht.steady hs.dl (Nat.lt_of_lt_of_le (by decide) hs.bounds.1) hs.bounds.2
    off := fun hoff ↦ by
      have hoff : l.allowsRetx = false := hoff
      rw [hallows] at hoff
      cases hoff }

theorem Steady.sendUl (hs : l.Steady now) (hallows : l.allowsRetx = true) {pid : Nat}
    {interval : PrbInterval} {ul : HarqTable PrbInterval}
    (ht : l.ul.Transmits now.uplinkTx pid interval ul) : ({ l with ul } : Link).Steady now :=
  { hs with
    ul := ht.steady hs.ul (Nat.lt_of_lt_of_le (by decide) hs.bounds.1) hs.bounds.2
    off := fun hoff ↦ by
      have hoff : l.allowsRetx = false := hoff
      rw [hallows] at hoff
      cases hoff
    dropped := ht.dropped_eq ▸ hs.dropped }

theorem allowsRetx_of_isActive (h : l.isActive = true) : l.allowsRetx = true := by
  rw [isActive] at h
  rw [allowsRetx, h, Bool.true_or]

end Link

namespace Terminal

variable {cells : List CellParams} {now : Tti} {t t' : Terminal} {carrier : Nat}

theorem Steady.link?_of_mem (hs : t.Steady cells now) {l : Link} (hl : l ∈ t.links) :
    t.link? l.carrier = some l := Terminal.link?_of_mem hs.carriers hl

theorem Relinked.link_eq {l l' : Link} (h : t.Relinked carrier l' t') (hs : t.Steady cells now)
    (hl : t.link? carrier = some l) (hcarrier : l'.carrier = l.carrier) {k : Link}
    (hk : k ∈ t'.links) (hkc : k.carrier = carrier) : k = l' := by
  have hnodup : (t'.links.map (·.carrier)).Nodup := by
    rw [h.links, map_replaceLink hl hcarrier]
    exact hs.carriers
  have hl' : l' ∈ t'.links := h.links ▸ mem_replaceLink_self hl
  exact List.inj_on_of_nodup_map hnodup hk hl' (hkc.trans ((hcarrier.trans (of_link? hl).2).symm))

theorem Relinked.steady {l l' : Link} (h : t.Relinked carrier l' t') (hs : t.Steady cells now)
    (hl : t.link? carrier = some l) (hparams : l'.params = l.params) (hsteady : l'.Steady now) :
    t'.Steady cells now where
  clock := h.lastTti ▸ hs.clock
  carriers := by
    rw [h.links, map_replaceLink hl (by rw [Link.carrier, Link.carrier, hparams])]
    exact hs.carriers
  params := by
    intro k hk
    rw [h.links] at hk
    rcases mem_replaceLink hk with rfl | hk
    · rw [Link.carrier, hparams]
      exact hs.params l (of_link? hl).1
    · exact hs.params k hk
  links := by
    intro k hk
    rw [h.links] at hk
    rcases mem_replaceLink hk with rfl | hk
    · exact hsteady
    · exact hs.links k hk

/-! ## Downlink -/

/-- `t'` is `t` after it may have sent downlink on a carrier now, as `new` says. -/
structure SendsDownlink (cells : List CellParams) (now : Tti) (carrier : Nat)
    (new : Nat → RbgMask → Prop) (t t' : Terminal) : Prop where
  rnti_eq : t'.rnti = t.rnti
  steady : t'.Steady cells now
  carriers_eq : t'.links.map (·.carrier) = t.links.map (·.carrier)
  links : ∀ l' ∈ t'.links, ∃ l ∈ t.links, l'.params = l.params ∧ l'.ul = l.ul ∧
    ∀ pid sent mask, l'.dl.Carries pid sent mask →
      l.dl.Carries pid sent mask ∨ l.carrier = carrier ∧ sent = now.downlinkTx ∧ new pid mask

theorem SendsDownlink.refl (hs : t.Steady cells now) (new : Nat → RbgMask → Prop) :
    t.SendsDownlink cells now carrier new t :=
  ⟨rfl, hs, rfl, fun l hl ↦ ⟨l, hl, rfl, rfl, fun _ _ _ hc ↦ .inl hc⟩⟩

theorem SendsDownlink.mono {new new' : Nat → RbgMask → Prop}
    (h : t.SendsDownlink cells now carrier new t')
    (hnew : ∀ pid mask, new pid mask → new' pid mask) :
    t.SendsDownlink cells now carrier new' t' where
  rnti_eq := h.rnti_eq
  steady := h.steady
  carriers_eq := h.carriers_eq
  links := by
    intro l' hl'
    obtain ⟨l, hl, hparams, hul, hback⟩ := h.links l' hl'
    refine ⟨l, hl, hparams, hul, fun pid sent mask hc ↦ ?_⟩
    exact (hback pid sent mask hc).imp_right fun ⟨hcarrier, hsent, hn⟩ ↦
      ⟨hcarrier, hsent, hnew pid mask hn⟩

theorem Relinked.sendsDownlink {l : Link} {pid : Nat} {mask : RbgMask} {dl : HarqTable RbgMask}
    {buffers : List (List ByteArray)} (h : t.Relinked carrier { l with dl, buffers } t')
    (hs : t.Steady cells now) (hl : t.link? carrier = some l) (hallows : l.allowsRetx = true)
    (ht : l.dl.Transmits now.downlinkTx pid mask dl) :
    t.SendsDownlink cells now carrier (fun k a ↦ k = pid ∧ a = mask) t' where
  rnti_eq := h.rnti
  steady := h.steady hs hl rfl ((hs.links l (of_link? hl).1).sendDl hallows ht buffers)
  carriers_eq := by
    rw [h.links]
    exact map_replaceLink hl rfl
  links := by
    intro k hk
    rw [h.links] at hk
    rcases mem_replaceLink hk with rfl | hk
    · obtain ⟨hmem, hcarrier⟩ := of_link? hl
      refine ⟨l, hmem, rfl, rfl, fun k sent a hc ↦ ?_⟩
      rcases ht.of_carries (hs.links l hmem).dl.timely.sound hc with hold | ⟨hk, hsent, ha⟩
      · exact .inl hold
      · exact .inr ⟨hcarrier, hsent, hk, ha⟩
    · exact ⟨k, hk, rfl, rfl, fun _ _ _ hc ↦ .inl hc⟩

theorem DlOutcome.sends {pid : Nat} {mask : RbgMask} {dci : DciLocation}
    {out : Except GrantError DlGrant × Terminal}
    (h : DlOutcome t now.downlinkTx carrier pid mask dci out) (hs : t.Steady cells now) :
    t.SendsDownlink cells now carrier (fun k a ↦ k = pid ∧ a = mask) out.2 := by
  cases h with
  | refused e => exact .refl hs _
  | resent hl hallows hp hdue _ _ _ _ hafter =>
      exact hafter.sendsDownlink hs hl hallows (.resend hp hdue)
  | @started l p sizes _ _ _ hl hactive hp hempty _ _ _ hafter =>
      exact hafter.sendsDownlink hs hl (Link.allowsRetx_of_isActive hactive)
        (.start hp hempty sizes)

theorem grantDownlink_of_due {l : Link} (hl : t.link? carrier = some l)
    (hallows : l.allowsRetx = true) {pid : Nat} {p : HarqProcess RbgMask}
    (hp : l.dl.get? pid = some p) {tx : Tti} (hdue : p.hasPendingRetx tx = true)
    (htbs : 0 < l.dl.nofTbs) {alloc mask : RbgMask} (halloc : p.alloc = some alloc)
    (hcount : mask.count = alloc.count) (dci : DciLocation) :
    ∃ g, (t.grantDownlink tx carrier pid mask dci).1 = .ok g ∧ g.isRetx = true := by
  have hresend := Link.resendDownlink_of_due hallows hp hdue htbs halloc hcount
  unfold grantDownlink
  rw [hl]
  dsimp only
  rw [if_pos (by simp [hp, hdue]), hresend]
  obtain ⟨b, hb⟩ := List.exists_mem_of_ne_nil _ (HarqProcess.grants_resend_ne_nil hdue mask)
  exact ⟨_, rfl, List.any_eq_true.mpr ⟨b, hb, HarqProcess.isRetx_of_mem_resend hb⟩⟩

theorem Steady.grantDownlink_of_due (hs : t.Steady cells now) {l : Link} (hl : l ∈ t.links)
    {p : HarqProcess RbgMask} (hp : p ∈ l.dl.procs) (hdue : p.hasPendingRetx now.downlinkTx = true)
    {mask : RbgMask} (halloc : p.alloc = some mask) (dci : DciLocation) :
    ∃ g, (t.grantDownlink now.downlinkTx l.carrier p.pid mask dci).1 = .ok g ∧
      g.isRetx = true := by
  have hsteady := hs.links l hl
  have hget := hsteady.dl.timely.sound.get?_pid hp
  have hallows := hsteady.allowsRetx_of_due And.left hp hdue
  exact Terminal.grantDownlink_of_due (hs.link?_of_mem hl) hallows hget hdue
    hsteady.dl.nofTbs_pos halloc rfl dci

theorem DlOutcome.due_of_isRetx {tx : Tti} {pid : Nat} {mask : RbgMask} {dci : DciLocation}
    {out : Except GrantError DlGrant × Terminal} (h : DlOutcome t tx carrier pid mask dci out)
    {g : DlGrant} (hg : out.1 = .ok g) (hretx : g.isRetx = true) :
    ∃ l, t.link? carrier = some l ∧ ∃ p, l.dl.get? pid = some p ∧ p.hasPendingRetx tx = true := by
  cases h with
  | refused e => cases hg
  | resent hl _ hp hdue => exact ⟨_, hl, _, hp, hdue⟩
  | started _ _ _ _ _ _ htbs =>
      obtain rfl := Except.ok.inj hg
      obtain ⟨b, hb, hbretx⟩ := List.any_eq_true.mp hretx
      rw [htbs] at hb
      rw [HarqProcess.isRetx_of_mem_start hb] at hbretx
      cases hbretx

/-- Downlink grants leave the uplink table of every carrier where it is. -/
theorem SendsDownlink.exists_link {new : Nat → RbgMask → Prop}
    (h : t.SendsDownlink cells now carrier new t') (hs : t.Steady cells now) {l : Link}
    (hl : l ∈ t.links) : ∃ l' ∈ t'.links, l'.carrier = l.carrier ∧ l'.ul = l.ul := by
  have hmem : l.carrier ∈ t'.links.map (·.carrier) := h.carriers_eq ▸ List.mem_map_of_mem hl
  obtain ⟨l', hl', hcarrier⟩ := List.mem_map.mp hmem
  obtain ⟨k, hk, hparams, hul, -⟩ := h.links l' hl'
  have hkc : k.carrier = l.carrier := (congrArg CellParams.index hparams).symm.trans hcarrier
  exact ⟨l', hl', hcarrier, hul.trans (List.inj_on_of_nodup_map hs.carriers hk hl hkc ▸ rfl)⟩

/-! ## Uplink -/

/-- `t'` is `t` after it may have been granted uplink on a carrier now, as `new` says. -/
structure SendsUplink (cells : List CellParams) (now : Tti) (carrier : Nat)
    (new : Nat → PrbInterval → Prop) (t t' : Terminal) : Prop where
  rnti_eq : t'.rnti = t.rnti
  steady : t'.Steady cells now
  links : ∀ l' ∈ t'.links, ∃ l ∈ t.links, l'.params = l.params ∧ l'.dl = l.dl ∧
    (l.carrier ≠ carrier → l'.ul = l.ul) ∧
    ∀ pid sent interval, l'.ul.Carries pid sent interval →
      l.ul.Carries pid sent interval ∨
        l.carrier = carrier ∧ sent = now.uplinkTx ∧ new pid interval

theorem SendsUplink.refl (hs : t.Steady cells now) (new : Nat → PrbInterval → Prop) :
    t.SendsUplink cells now carrier new t :=
  ⟨rfl, hs, fun l hl ↦ ⟨l, hl, rfl, rfl, fun _ ↦ rfl, fun _ _ _ hc ↦ .inl hc⟩⟩

theorem SendsUplink.mono {new new' : Nat → PrbInterval → Prop}
    (h : t.SendsUplink cells now carrier new t')
    (hnew : ∀ pid interval, new pid interval → new' pid interval) :
    t.SendsUplink cells now carrier new' t' where
  rnti_eq := h.rnti_eq
  steady := h.steady
  links := by
    intro l' hl'
    obtain ⟨l, hl, hparams, hdl, hother, hback⟩ := h.links l' hl'
    refine ⟨l, hl, hparams, hdl, hother, fun pid sent interval hc ↦ ?_⟩
    exact (hback pid sent interval hc).imp_right fun ⟨hcarrier, hsent, hn⟩ ↦
      ⟨hcarrier, hsent, hnew pid interval hn⟩

theorem Relinked.sendsUplink {l : Link} {pid : Nat} {interval : PrbInterval}
    {ul : HarqTable PrbInterval} (h : t.Relinked carrier { l with ul } t')
    (hs : t.Steady cells now) (hl : t.link? carrier = some l) (hallows : l.allowsRetx = true)
    (ht : l.ul.Transmits now.uplinkTx pid interval ul) :
    t.SendsUplink cells now carrier (fun k a ↦ k = pid ∧ a = interval) t' where
  rnti_eq := h.rnti
  steady := h.steady hs hl rfl ((hs.links l (of_link? hl).1).sendUl hallows ht)
  links := by
    intro k hk
    rw [h.links] at hk
    rcases mem_replaceLink hk with rfl | hk
    · obtain ⟨hmem, hcarrier⟩ := of_link? hl
      refine ⟨l, hmem, rfl, rfl, fun hne ↦ (hne hcarrier).elim, fun k sent a hc ↦ ?_⟩
      rcases ht.of_carries (hs.links l hmem).ul.timely.sound hc with hold | ⟨hk, hsent, ha⟩
      · exact .inl hold
      · exact .inr ⟨hcarrier, hsent, hk, ha⟩
    · exact ⟨k, hk, rfl, rfl, fun _ ↦ rfl, fun _ _ _ hc ↦ .inl hc⟩

theorem UlOutcome.sends {pid : Nat} {interval : PrbInterval} {dci : Option DciLocation}
    {out : Except GrantError UlGrant × Terminal}
    (h : UlOutcome t now.uplinkTx carrier pid interval dci out) (hs : t.Steady cells now) :
    t.SendsUplink cells now carrier (fun k a ↦ k = pid ∧ a = interval) out.2 := by
  cases h with
  | refused e => exact .refl hs _
  | resent hl hallows hp hdue _ _ _ _ hafter =>
      exact hafter.sendsUplink hs hl hallows (.resend hp hdue)
  | @started l p size _ _ hl hactive hp hempty _ _ _ hafter =>
      exact hafter.sendsUplink hs hl (Link.allowsRetx_of_isActive hactive)
        (.start hp hempty [size])

theorem grantUplink_of_due {l : Link} (hl : t.link? carrier = some l)
    (hallows : l.allowsRetx = true) {pid : Nat} {p : HarqProcess PrbInterval}
    (hp : l.ul.get? pid = some p) {tx : Tti} (hdue : p.hasPendingRetx tx = true)
    (htbs : 0 < l.ul.nofTbs) {alloc interval : PrbInterval} (halloc : p.alloc = some alloc)
    (hlen : interval.len = alloc.len) (dci : Option DciLocation) :
    ∃ g t', t.grantUplink tx carrier pid interval dci = (.ok g, t') ∧ g.tb.isRetx = true ∧
      t.Relinked carrier { l with ul := l.ul.put pid (p.resend tx interval).2 } t' := by
  obtain ⟨b, hretx, hresend⟩ := Link.resendUplink_of_due hallows hp hdue htbs halloc hlen
  unfold grantUplink
  rw [hl]
  dsimp only
  rw [if_pos (by simp [hp, hdue]), hresend]
  exact ⟨_, _, rfl, hretx, rfl, rfl, rfl, fun _ ↦ rfl, rfl⟩

theorem Steady.grantUplink_of_due (hs : t.Steady cells now) {l : Link} (hl : l ∈ t.links)
    {p : HarqProcess PrbInterval} (hp : p ∈ l.ul.procs)
    (hdue : p.hasPendingRetx now.uplinkTx = true) {interval : PrbInterval}
    (halloc : p.alloc = some interval) (dci : Option DciLocation) :
    ∃ g t', t.grantUplink now.uplinkTx l.carrier p.pid interval dci = (.ok g, t') ∧
      g.tb.isRetx = true ∧
      t.Relinked l.carrier
        { l with ul := l.ul.put p.pid (p.resend now.uplinkTx interval).2 } t' := by
  have hsteady := hs.links l hl
  have hget := hsteady.ul.timely.sound.get?_pid hp
  have hallows := hsteady.allowsRetx_of_due And.right hp hdue
  exact Terminal.grantUplink_of_due (hs.link?_of_mem hl) hallows hget hdue
    hsteady.ul.nofTbs_pos halloc rfl dci

/-- After the grant for the one uplink retransmission that may be due, none is. -/
theorem Steady.quiet_grantUplink (hs : t.Steady cells now) {l : Link} (hl : l ∈ t.links) {pid : Nat}
    {interval : PrbInterval} (dci : Option DciLocation)
    (honly : ∀ p ∈ l.ul.procs, p.hasPendingRetx now.uplinkTx = true →
      p.pid = pid ∧ p.alloc = some interval) :
    ∀ k ∈ (t.grantUplink now.uplinkTx l.carrier pid interval dci).2.links,
      k.carrier = l.carrier → k.ul.Quiet now.uplinkTx := by
  intro k hk hcarrier
  have hlink := hs.link?_of_mem hl
  have hsound := (hs.links l hl).ul.timely.sound
  have hpid := fun p hp hdue ↦ (honly p hp hdue).1
  by_cases hquiet : l.ul.Quiet now.uplinkTx
  · have hspec := t.grantUplink_spec now.uplinkTx l.carrier pid interval dci
    generalize t.grantUplink now.uplinkTx l.carrier pid interval dci = out at hspec hk
    cases hspec with
    | refused e =>
        rw [List.inj_on_of_nodup_map hs.carriers hk hl hcarrier]
        exact hquiet
    | resent hl' hallows hp hdue _ _ _ _ hafter =>
        obtain rfl := Option.some.inj (hlink.symm.trans hl')
        rw [hafter.link_eq hs hlink rfl hk hcarrier]
        exact (HarqTable.Transmits.resend hp hdue).quiet hsound hpid
    | @started _ _ size _ _ hl' _ hp hempty _ _ _ hafter =>
        obtain rfl := Option.some.inj (hlink.symm.trans hl')
        rw [hafter.link_eq hs hlink rfl hk hcarrier]
        exact (HarqTable.Transmits.start hp hempty [size]).quiet hsound hpid
  · obtain ⟨p, hp, hdue⟩ : ∃ p ∈ l.ul.procs, p.hasPendingRetx now.uplinkTx = true := by
      by_contra hnone
      apply hquiet
      intro p hp
      by_contra hdue
      exact hnone ⟨p, hp, by simpa using hdue⟩
    obtain ⟨rfl, halloc⟩ := honly p hp hdue
    obtain ⟨g, t', hgrant, -, hafter⟩ := hs.grantUplink_of_due hl hp hdue halloc dci
    rw [hgrant] at hk
    rw [hafter.link_eq hs hlink rfl hk hcarrier]
    exact (HarqTable.Transmits.resend (hsound.get?_pid hp) hdue).quiet hsound hpid

end Terminal

end MacScheduler
