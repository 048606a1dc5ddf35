import MacScheduler.Proofs.Buffer.Failures
import MacScheduler.Proofs.Harq.Table
import MacScheduler.Proofs.Terminal.Adaptation
import MacScheduler.Terminal.Commit

/-!
# Grants of a terminal

A terminal that refuses a grant is as it was.  A grant it makes names the
terminal and repeats the resources it was asked for, and changes one process of
one link: the process is sent again when a retransmission is due, and starts
fresh blocks otherwise.
-/

namespace MacScheduler

namespace Link

theorem startDownlink_cases (l : Link) (t : Tti) (pid : Nat) (mask : RbgMask) (bytes : Nat) :
    (∃ e, l.startDownlink t pid mask bytes = (.error e, l)) ∨
      ∃ p sizes buffers, l.isActive = true ∧ l.dl.get? pid = some p ∧ p.isEmpty = true ∧
        (∀ size ∈ sizes, size.2 ≤ l.mcsCapDl) ∧
        l.startDownlink t pid mask bytes = (.ok (p.start t sizes mask).1,
          { l with dl := l.dl.put pid (p.start t sizes mask).2, buffers }) := by
  unfold startDownlink
  cases hactive : l.isActive with
  | false => exact .inl ⟨_, rfl⟩
  | true =>
      by_cases hsize : (l.sizeForPrbs (mask.nofPrb l.params.nofPrb) bytes .downlink).tbs = 0
      · exact .inl ⟨.zeroTbs, by simp [hsize]⟩
      · simp only [Bool.not_true, Bool.false_eq_true, if_false, hsize]
        have hcap := l.mcs_sizeForPrbs_le (mask.nofPrb l.params.nofPrb) bytes .downlink
        generalize l.sizeForPrbs _ _ _ = size at hcap ⊢
        have hsizes : ∀ s ∈ List.replicate size.nofTb (size.tbs, size.mcs), s.2 ≤ l.mcsCapDl :=
          fun s hs ↦ List.eq_of_mem_replicate hs ▸ hcap
        generalize List.replicate _ _ = sizes at hsizes ⊢
        rcases l.dl.newTx_cases pid t sizes mask with ⟨e, heq⟩ | ⟨p, hp, hempty, -, heq⟩
        · rw [heq]
          exact .inl ⟨_, rfl⟩
        · rw [heq]
          exact .inr ⟨p, sizes, _, trivial, hp, hempty, hsizes, rfl⟩

theorem resendDownlink_cases (l : Link) (t : Tti) (pid : Nat) (mask : RbgMask) :
    (∃ e, l.resendDownlink t pid mask = (.error e, l)) ∨
      ∃ p alloc, l.allowsRetx = true ∧ l.dl.get? pid = some p ∧ p.hasPendingRetx t = true ∧
        p.alloc = some alloc ∧ alloc.count = mask.count ∧
        l.resendDownlink t pid mask = (.ok (p.resend t mask).1,
          { l with dl := l.dl.put pid (p.resend t mask).2 }) := by
  unfold resendDownlink
  cases hallows : l.allowsRetx with
  | false => exact .inl ⟨_, rfl⟩
  | true =>
      simp only [Bool.not_true, Bool.false_eq_true, if_false]
      cases hcount : ((l.dl.get? pid).bind (·.alloc)).map RbgMask.count with
      | none => exact .inl ⟨_, rfl⟩
      | some expected =>
          by_cases hne : mask.count ≠ expected
          · exact .inl ⟨.sizeMismatch expected mask.count, by simp only [if_pos hne]⟩
          · simp only [if_neg hne]
            obtain ⟨alloc, halloc, hexpected⟩ := Option.map_eq_some_iff.mp hcount
            rcases l.dl.newRetx_cases pid t mask with ⟨e, heq⟩ | ⟨p, hp, hdue, heq⟩
            · rw [heq]
              exact .inl ⟨_, rfl⟩
            · rw [heq]
              rw [hp, Option.bind_some] at halloc
              exact .inr ⟨p, alloc, trivial, hp, hdue, halloc,
                hexpected.trans (Decidable.not_not.mp hne).symm, rfl⟩

theorem startUplink_cases (l : Link) (t : Tti) (pid : Nat) (interval : PrbInterval)
    (bytes : Nat) :
    (∃ e, l.startUplink t pid interval bytes = (.error e, l)) ∨
      ∃ p size, l.isActive = true ∧ l.ul.get? pid = some p ∧ p.isEmpty = true ∧
        size.2 ≤ l.mcsCapUl ∧
        l.startUplink t pid interval bytes = (lastGrant (p.start t [size] interval).1,
          { l with ul := l.ul.put pid (p.start t [size] interval).2 }) := by
  unfold startUplink
  cases hactive : l.isActive with
  | false => exact .inl ⟨_, rfl⟩
  | true =>
      by_cases hsize : (l.sizeForPrbs interval.len bytes .uplink).tbs = 0
      · exact .inl ⟨.zeroTbs, by simp [hsize]⟩
      · simp only [Bool.not_true, Bool.false_eq_true, if_false, hsize]
        have hcap := l.mcs_sizeForPrbs_le interval.len bytes .uplink
        generalize l.sizeForPrbs _ _ _ = size at hcap ⊢
        have hsize : (size.tbs, size.mcs).2 ≤ l.mcsCapUl := hcap
        generalize (size.tbs, size.mcs) = size at hsize ⊢
        rcases l.ul.newTx_cases pid t [size] interval with ⟨e, heq⟩ | ⟨p, hp, hempty, -, heq⟩
        · rw [heq]
          exact .inl ⟨_, rfl⟩
        · rw [heq]
          exact .inr ⟨p, size, trivial, hp, hempty, hsize, rfl⟩

theorem resendUplink_cases (l : Link) (t : Tti) (pid : Nat) (interval : PrbInterval) :
    (∃ e, l.resendUplink t pid interval = (.error e, l)) ∨
      ∃ p alloc, l.allowsRetx = true ∧ l.ul.get? pid = some p ∧ p.hasPendingRetx t = true ∧
        p.alloc = some alloc ∧ alloc.len = interval.len ∧
        l.resendUplink t pid interval = (lastGrant (p.resend t interval).1,
          { l with ul := l.ul.put pid (p.resend t interval).2 }) := by
  unfold resendUplink
  cases hallows : l.allowsRetx with
  | false => exact .inl ⟨_, rfl⟩
  | true =>
      simp only [Bool.not_true, Bool.false_eq_true, if_false]
      cases hlen : ((l.ul.get? pid).bind (·.alloc)).map PrbInterval.len with
      | none => exact .inl ⟨_, rfl⟩
      | some expected =>
          by_cases hne : interval.len ≠ expected
          · exact .inl ⟨.sizeMismatch expected interval.len, by simp only [if_pos hne]⟩
          · simp only [if_neg hne]
            obtain ⟨alloc, halloc, hexpected⟩ := Option.map_eq_some_iff.mp hlen
            rcases l.ul.newRetx_cases pid t interval with ⟨e, heq⟩ | ⟨p, hp, hdue, heq⟩
            · rw [heq]
              exact .inl ⟨_, rfl⟩
            · rw [heq]
              rw [hp, Option.bind_some] at halloc
              exact .inr ⟨p, alloc, trivial, hp, hdue, halloc,
                hexpected.trans (Decidable.not_not.mp hne).symm, rfl⟩

theorem mem_of_lastGrant {grants : List TbGrant} {g : TbGrant}
    (h : lastGrant grants = .ok g) : g ∈ grants := by
  unfold lastGrant at h
  split at h
  · cases h
  · rename_i hlast
    cases h
    exact List.mem_of_getLast? hlast

end Link

namespace Terminal

/-! ## Links -/

theorem replaceLink_self {carrier : Nat} {links : List Link} {l : Link}
    (h : links.find? (fun l ↦ decide (l.carrier = carrier)) = some l) :
    replaceLink carrier l links = links := by
  induction links with
  | nil => rfl
  | cons l' links ih =>
      rw [replaceLink]
      by_cases hl : l'.carrier = carrier
      · rw [List.find?_cons_of_pos (by simpa using hl)] at h
        rw [if_pos hl, Option.some.inj h]
      · rw [List.find?_cons_of_neg (by simpa using hl)] at h
        rw [if_neg hl, ih h]

theorem mem_replaceLink {carrier : Nat} {links : List Link} {l k : Link}
    (h : k ∈ replaceLink carrier l links) : k = l ∨ k ∈ links := by
  induction links with
  | nil => cases h
  | cons l' links ih =>
      rw [replaceLink] at h
      split at h
      · rcases List.mem_cons.mp h with rfl | h
        · exact .inl rfl
        · exact .inr (List.mem_cons_of_mem l' h)
      · rcases List.mem_cons.mp h with rfl | h
        · exact .inr List.mem_cons_self
        · exact (ih h).imp_right (List.mem_cons_of_mem l')

theorem mem_replaceLink_self {carrier : Nat} {links : List Link} {l l' : Link}
    (h : links.find? (fun l ↦ decide (l.carrier = carrier)) = some l) :
    l' ∈ replaceLink carrier l' links := by
  induction links with
  | nil => cases h
  | cons k links ih =>
      rw [replaceLink]
      by_cases hk : k.carrier = carrier
      · rw [if_pos hk]
        exact List.mem_cons_self
      · rw [List.find?_cons_of_neg (by simpa using hk)] at h
        rw [if_neg hk]
        exact List.mem_cons_of_mem k (ih h)

theorem map_replaceLink {β : Type} {f : Link → β} {carrier : Nat} {links : List Link}
    {l l' : Link} (h : links.find? (fun l ↦ decide (l.carrier = carrier)) = some l)
    (hl : f l' = f l) : (replaceLink carrier l' links).map f = links.map f := by
  induction links with
  | nil => rfl
  | cons k links ih =>
      rw [replaceLink]
      by_cases hk : k.carrier = carrier
      · rw [List.find?_cons_of_pos (by simpa using hk)] at h
        rw [if_pos hk, List.map_cons, List.map_cons, hl, Option.some.inj h]
      · rw [List.find?_cons_of_neg (by simpa using hk)] at h
        rw [if_neg hk, List.map_cons, List.map_cons, ih h]

theorem putLink_self {t : Terminal} {carrier : Nat} {l : Link} (h : t.link? carrier = some l) :
    t.putLink carrier l = t := by
  unfold putLink
  rw [replaceLink_self h]

/-- The terminal with another link in the place of that of a carrier; its clock and its
configuration are the same, its buffers and totals may differ. -/
structure Relinked (t : Terminal) (carrier : Nat) (l : Link) (t' : Terminal) : Prop where
  rnti : t'.rnti = t.rnti
  lastTti : t'.lastTti = t.lastTti
  config : t'.config = t.config
  failures : ∀ dir, t'.channels.failures dir = t.channels.failures dir
  links : t'.links = replaceLink carrier l t.links

/-! ## Downlink -/

section Downlink

variable (t : Terminal) (tx : Tti) (carrier pid : Nat) (mask : RbgMask) (dci : DciLocation)

structure DlAnswer (g : DlGrant) : Prop where
  rnti : g.rnti = t.rnti
  carrier : g.carrier = carrier
  txTti : g.txTti = tx
  mask : g.mask = mask
  pid : g.pid = pid
  dci : g.dci = dci

inductive DlOutcome : Except GrantError DlGrant × Terminal → Prop
  | refused (e : GrantError) : DlOutcome (.error e, t)
  | resent {l : Link} {p : HarqProcess RbgMask} {alloc : RbgMask} {g : DlGrant} {t' : Terminal}
      (hlink : t.link? carrier = some l) (hallows : l.allowsRetx = true)
      (hproc : l.dl.get? pid = some p) (hdue : p.hasPendingRetx tx = true)
      (halloc : p.alloc = some alloc) (hcount : alloc.count = mask.count)
      (hgrant : DlAnswer t tx carrier pid mask dci g) (htbs : g.tbs = (p.resend tx mask).1)
      (hafter : t.Relinked carrier { l with dl := l.dl.put pid (p.resend tx mask).2 } t') :
      DlOutcome (.ok g, t')
  | started {l : Link} {p : HarqProcess RbgMask} {sizes : List (Nat × Nat)}
      {buffers : List (List ByteArray)} {g : DlGrant} {t' : Terminal}
      (hlink : t.link? carrier = some l) (hactive : l.isActive = true)
      (hproc : l.dl.get? pid = some p) (hempty : p.isEmpty = true)
      (hsizes : ∀ size ∈ sizes, size.2 ≤ l.mcsCapDl)
      (hgrant : DlAnswer t tx carrier pid mask dci g) (htbs : g.tbs = (p.start tx sizes mask).1)
      (hafter : t.Relinked carrier
        { l with dl := l.dl.put pid (p.start tx sizes mask).2, buffers } t') :
      DlOutcome (.ok g, t')

theorem grantDownlink_spec :
    DlOutcome t tx carrier pid mask dci (t.grantDownlink tx carrier pid mask dci) := by
  unfold grantDownlink
  cases hlink : t.link? carrier with
  | none => exact .refused _
  | some l =>
      dsimp only
      split
      · rcases l.resendDownlink_cases tx pid mask with
          ⟨e, heq⟩ | ⟨p, alloc, hallows, hp, hdue, halloc, hcount, heq⟩
        · rw [heq]
          dsimp only
          rw [putLink_self hlink]
          exact .refused e
        · rw [heq]
          exact .resent hlink hallows hp hdue halloc hcount ⟨rfl, rfl, rfl, rfl, rfl, rfl⟩ rfl
            ⟨rfl, rfl, rfl, fun _ ↦ rfl, rfl⟩
      · rcases l.startDownlink_cases tx pid mask t.downlinkPending with
          ⟨e, heq⟩ | ⟨p, sizes, buffers, hactive, hp, hempty, hsizes, heq⟩
        · rw [heq]
          dsimp only
          rw [putLink_self hlink]
          exact .refused e
        · rw [heq]
          exact .started hlink hactive hp hempty hsizes ⟨rfl, rfl, rfl, rfl, rfl, rfl⟩ rfl
            ⟨rfl, rfl, rfl, fun dir ↦ t.channels.failures_fill dir _, rfl⟩

end Downlink

/-! ## Uplink -/

section Uplink

variable (t : Terminal) (tx : Tti) (carrier pid : Nat) (interval : PrbInterval)
  (dci : Option DciLocation)

structure UlAnswer (g : UlGrant) : Prop where
  rnti : g.rnti = t.rnti
  carrier : g.carrier = carrier
  txTti : g.txTti = tx
  interval : g.interval = interval
  pid : g.pid = pid
  dci : g.dci = dci

inductive UlOutcome : Except GrantError UlGrant × Terminal → Prop
  | refused (e : GrantError) : UlOutcome (.error e, t)
  | resent {l : Link} {p : HarqProcess PrbInterval} {alloc : PrbInterval}
      {r : Except GrantError UlGrant} {t' : Terminal}
      (hlink : t.link? carrier = some l) (hallows : l.allowsRetx = true)
      (hproc : l.ul.get? pid = some p) (hdue : p.hasPendingRetx tx = true)
      (halloc : p.alloc = some alloc) (hlen : alloc.len = interval.len)
      (hgrant : ∀ g, r = .ok g → UlAnswer t tx carrier pid interval dci g)
      (htb : r.map (·.tb) = Link.lastGrant (p.resend tx interval).1)
      (hafter : t.Relinked carrier { l with ul := l.ul.put pid (p.resend tx interval).2 } t') :
      UlOutcome (r, t')
  | started {l : Link} {p : HarqProcess PrbInterval} {size : Nat × Nat}
      {r : Except GrantError UlGrant} {t' : Terminal}
      (hlink : t.link? carrier = some l) (hactive : l.isActive = true)
      (hproc : l.ul.get? pid = some p) (hempty : p.isEmpty = true)
      (hsize : size.2 ≤ l.mcsCapUl)
      (hgrant : ∀ g, r = .ok g → UlAnswer t tx carrier pid interval dci g)
      (htb : r.map (·.tb) = Link.lastGrant (p.start tx [size] interval).1)
      (hafter : t.Relinked carrier
        { l with ul := l.ul.put pid (p.start tx [size] interval).2 } t') :
      UlOutcome (r, t')

theorem grantUplink_spec :
    UlOutcome t tx carrier pid interval dci (t.grantUplink tx carrier pid interval dci) := by
  unfold grantUplink
  cases hlink : t.link? carrier with
  | none => exact .refused _
  | some l =>
      dsimp only
      split
      · rcases l.resendUplink_cases tx pid interval with
          ⟨e, heq⟩ | ⟨p, alloc, hallows, hp, hdue, halloc, hlen, heq⟩
        · rw [heq]
          dsimp only
          rw [putLink_self hlink]
          exact .refused e
        · rw [heq]
          cases hlast : Link.lastGrant (p.resend tx interval).1 with
          | error e =>
              exact .resent hlink hallows hp hdue halloc hlen (fun _ hg ↦ by cases hg)
                (hlast ▸ rfl) ⟨rfl, rfl, rfl, fun _ ↦ rfl, rfl⟩
          | ok b =>
              refine .resent hlink hallows hp hdue halloc hlen (fun g hg ↦ ?_) (hlast ▸ rfl)
                ⟨rfl, rfl, rfl, fun _ ↦ rfl, rfl⟩
              cases hg
              exact ⟨rfl, rfl, rfl, rfl, rfl, rfl⟩
      · rcases l.startUplink_cases tx pid interval t.uplinkPending with
          ⟨e, heq⟩ | ⟨p, size, hactive, hp, hempty, hsize, heq⟩
        · rw [heq]
          dsimp only
          rw [putLink_self hlink]
          exact .refused e
        · rw [heq]
          cases hlast : Link.lastGrant (p.start tx [size] interval).1 with
          | error e =>
              exact .started hlink hactive hp hempty hsize (fun _ hg ↦ by cases hg)
                (hlast ▸ rfl) ⟨rfl, rfl, rfl, fun _ ↦ rfl, rfl⟩
          | ok b =>
              refine .started hlink hactive hp hempty hsize (fun g hg ↦ ?_) (hlast ▸ rfl)
                ⟨rfl, rfl, rfl, fun dir ↦ t.channels.failures_grantUplink dir _, rfl⟩
              cases hg
              exact ⟨rfl, rfl, rfl, rfl, rfl, rfl⟩

end Uplink

theorem DlOutcome.answer {t : Terminal} {tx : Tti} {carrier pid : Nat} {mask : RbgMask}
    {dci : DciLocation} {out : Except GrantError DlGrant × Terminal}
    (h : DlOutcome t tx carrier pid mask dci out) :
    out.2.rnti = t.rnti ∧ ∀ g, out.1 = .ok g → DlAnswer t tx carrier pid mask dci g := by
  cases h with
  | refused => exact ⟨rfl, fun _ hg ↦ by cases hg⟩
  | resent _ _ _ _ _ _ hgrant _ hafter =>
      exact ⟨hafter.rnti, fun g hg ↦ Except.ok.inj hg ▸ hgrant⟩
  | started _ _ _ _ _ hgrant _ hafter =>
      exact ⟨hafter.rnti, fun g hg ↦ Except.ok.inj hg ▸ hgrant⟩

theorem UlOutcome.answer {t : Terminal} {tx : Tti} {carrier pid : Nat} {interval : PrbInterval}
    {dci : Option DciLocation} {out : Except GrantError UlGrant × Terminal}
    (h : UlOutcome t tx carrier pid interval dci out) :
    out.2.rnti = t.rnti ∧ ∀ g, out.1 = .ok g → UlAnswer t tx carrier pid interval dci g := by
  cases h with
  | refused => exact ⟨rfl, fun _ hg ↦ by cases hg⟩
  | resent _ _ _ _ _ _ hgrant _ hafter => exact ⟨hafter.rnti, hgrant⟩
  | started _ _ _ _ _ hgrant _ hafter => exact ⟨hafter.rnti, hgrant⟩

end Terminal

end MacScheduler
