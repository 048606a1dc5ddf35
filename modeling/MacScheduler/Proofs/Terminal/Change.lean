import Mathlib.Data.List.Forall2
import MacScheduler.Proofs.Terminal.Request

/-!
# How links change

Between boundaries and configurations the links of a terminal stay where they are, and
each of them changes in one of few ways: a report or an answer is taken over, contents are
edited, or a process sends.  What holds of every such change holds of every action and every
grant.  The uplink resources of a grant are the caller's, so a change says which intervals
it may use.
-/

namespace MacScheduler

/-- What becomes of a link between boundaries, uplink grants being on intervals of `uses`. -/
inductive Link.Change (uses : PrbInterval → Prop) : Link → Link → Prop
  | same (l : Link) : Change uses l l
  | reported (m : Terminal.Measure) (received : Tti) (l : Link) :
      Change uses l (m.record received l)
  | answeredDl (l : Link) (pid tb : Nat) (ack : Bool) :
      Change uses l { l with dl := (l.dl.setAck pid tb ack).2 }
  | answeredUl (l : Link) (pid tb : Nat) (ack : Bool) :
      Change uses l { l with ul := (l.ul.setAck pid tb ack).2 }
  | edited (l : Link) (buffers : List (List ByteArray)) : Change uses l { l with buffers }
  | startedDl {l : Link} (hactive : l.isActive = true) {pid : Nat} {p : HarqProcess RbgMask}
      (hproc : l.dl.get? pid = some p) (t : Tti) {sizes : List (Nat × Nat)}
      (hsizes : ∀ size ∈ sizes, size.2 ≤ l.mcsCapDl) (mask : RbgMask)
      (buffers : List (List ByteArray)) :
      Change uses l { l with dl := l.dl.put pid (p.start t sizes mask).2, buffers }
  | resentDl {l : Link} (hallows : l.allowsRetx = true) {pid : Nat} {p : HarqProcess RbgMask}
      (hproc : l.dl.get? pid = some p) (t : Tti) (mask : RbgMask) :
      Change uses l { l with dl := l.dl.put pid (p.resend t mask).2 }
  | startedUl {l : Link} (hactive : l.isActive = true) {pid : Nat} {p : HarqProcess PrbInterval}
      (hproc : l.ul.get? pid = some p) (t : Tti) {size : Nat × Nat} (hsize : size.2 ≤ l.mcsCapUl)
      {interval : PrbInterval} (huses : uses interval) :
      Change uses l { l with ul := l.ul.put pid (p.start t [size] interval).2 }
  | resentUl {l : Link} (hallows : l.allowsRetx = true) {pid : Nat} {p : HarqProcess PrbInterval}
      (hproc : l.ul.get? pid = some p) (t : Tti) {interval : PrbInterval}
      (huses : uses interval) :
      Change uses l { l with ul := l.ul.put pid (p.resend t interval).2 }

section Pointwise

variable {α β γ : Type} {R : α → α → Prop} {xs ys : List α}

theorem getElem?_of_forall₂ (h : List.Forall₂ R xs ys) {i : Nat} {y : α} (hy : ys[i]? = some y) :
    ∃ x, xs[i]? = some x ∧ R x y := by
  induction h generalizing i with
  | nil => simp at hy
  | @cons x y' xs ys hxy _ ih =>
      cases i with
      | zero =>
          obtain rfl : y' = y := by simpa using hy
          exact ⟨x, rfl, hxy⟩
      | succ i => exact ih (by simpa using hy)

theorem exists_mem_of_forall₂ (h : List.Forall₂ R xs ys) {y : α} (hy : y ∈ ys) :
    ∃ x ∈ xs, R x y := by
  obtain ⟨i, hi⟩ := List.mem_iff_getElem?.mp hy
  obtain ⟨x, hx, hxy⟩ := getElem?_of_forall₂ h hi
  exact ⟨x, List.mem_of_getElem? hx, hxy⟩

theorem map_eq_of_forall₂ {S : α → β → Prop} {bs : List β} (h : List.Forall₂ S xs bs) {f : α → γ}
    {g : β → γ} (hfg : ∀ x y, S x y → g y = f x) : bs.map g = xs.map f := by
  induction h with
  | nil => rfl
  | @cons x y _ _ hxy _ ih => rw [List.map_cons, List.map_cons, hfg x y hxy, ih]

theorem forall₂_of_getElem? {f : Nat → α → α} (h : ∀ i, ys[i]? = xs[i]?.map (f i))
    (hf : ∀ i x, R x (f i x)) : List.Forall₂ R xs ys := by
  induction xs generalizing ys f with
  | nil =>
      have hnil : ys = [] := List.eq_nil_iff_length_eq_zero.mpr (by
        by_contra hne
        have h0 := h 0
        rw [List.getElem?_eq_getElem (Nat.pos_of_ne_zero hne)] at h0
        cases h0)
      rw [hnil]
      exact .nil
  | cons x xs ih =>
      cases ys with
      | nil => simpa using h 0
      | cons y ys =>
          obtain rfl : y = f 0 x := by simpa using h 0
          exact .cons (hf 0 x) (ih (fun i ↦ by simpa using h (i + 1)) fun i ↦ hf (i + 1))

end Pointwise

namespace Terminal

variable {uses : PrbInterval → Prop} {t t' : Terminal}

/-- `t'` is `t` with each link as it was or changed in one way, bearers apart under the same
configuration. -/
structure Changes (uses : PrbInterval → Prop) (t t' : Terminal) : Prop where
  config_eq : ∃ bearers, t'.config = { t.config with bearers }
  links : List.Forall₂ (Link.Change uses) t.links t'.links

namespace Changes

theorem forall₂_refl (links : List Link) : List.Forall₂ (Link.Change uses) links links :=
  List.forall₂_same.mpr fun l _ ↦ .same l

theorem of_links (hconfig : t'.config = t.config)
    (h : List.Forall₂ (Link.Change uses) t.links t'.links) : t.Changes uses t' :=
  ⟨⟨t.config.bearers, hconfig⟩, h⟩

theorem of_same_links (hconfig : t'.config = t.config) (hlinks : t'.links = t.links) :
    t.Changes uses t' := by
  apply of_links hconfig
  rw [hlinks]
  exact forall₂_refl t.links

theorem refl (t : Terminal) : t.Changes uses t := of_same_links rfl rfl

theorem forall₂_replaceLink {carrier : Nat} {links : List Link} {l l' : Link}
    (h : links.find? (fun l ↦ decide (l.carrier = carrier)) = some l) (hchange : l.Change uses l') :
    List.Forall₂ (Link.Change uses) links (replaceLink carrier l' links) := by
  induction links with
  | nil => exact .nil
  | cons k links ih =>
      rw [replaceLink]
      by_cases hk : k.carrier = carrier
      · rw [List.find?_cons_of_pos (by simpa using hk)] at h
        rw [if_pos hk, Option.some.inj h]
        exact .cons hchange (forall₂_refl links)
      · rw [List.find?_cons_of_neg (by simpa using hk)] at h
        rw [if_neg hk]
        exact .cons (.same k) (ih h)

theorem putLink {carrier : Nat} {l l' : Link} (hl : t.link? carrier = some l)
    (hchange : l.Change uses l') : t.Changes uses (t.putLink carrier l') :=
  .of_links rfl (forall₂_replaceLink hl hchange)

theorem of_relinked {carrier : Nat} {l l' : Link} (h : t.Relinked carrier l' t')
    (hl : t.link? carrier = some l) (hchange : l.Change uses l') : t.Changes uses t' :=
  .of_links h.config (h.links ▸ forall₂_replaceLink hl hchange)

theorem perform (t : Terminal) (action : Action) : t.Changes uses (t.perform action).2 := by
  cases action with
  | configureBearer lcid b =>
      simp only [Terminal.perform, configureBearer]
      split
      · exact .of_same_links rfl rfl
      · exact ⟨⟨_, rfl⟩, forall₂_refl t.links⟩
  | removeBearer lcid =>
      simp only [Terminal.perform, removeBearer]
      split
      · exact .of_same_links rfl rfl
      · exact ⟨⟨_, rfl⟩, forall₂_refl t.links⟩
  | requestActivation carrier activate =>
      simp only [Terminal.perform, requestActivation]
      split <;> exact .of_same_links rfl rfl
  | reportDownlink | reportUplink =>
      rw [Terminal.perform, taken_snd]
      exact .of_same_links rfl rfl
  | pushCe | reportHeadroom | requestUplink => exact .of_same_links rfl rfl
  | reportChannel received carrier m =>
      simp only [Terminal.perform, reportChannel, updateLink]
      split
      · exact .refl t
      · exact putLink ‹_› (.reported m received _)
  | acknowledgeDownlink received carrier tb ack =>
      simp only [Terminal.perform, acknowledgeDownlink]
      split
      · exact .refl t
      · split
        · exact .refl t
        · exact putLink ‹_› (.answeredDl _ _ tb ack)
  | acknowledgeUplink received carrier ack =>
      simp only [Terminal.perform, acknowledgeUplink]
      split
      · exact .refl t
      · split
        · exact .refl t
        · exact putLink ‹_› (.answeredUl _ _ 0 ack)
  | raisePower dir | lowerPower dir => cases dir <;> exact .of_same_links rfl rfl
  | editBuffer carrier pid tb edit =>
      change t.Changes uses (t.editBuffer carrier pid tb edit).2
      rcases t.editBuffer_cases carrier pid tb edit with heq | ⟨l, buffers, hl, heq⟩ <;> rw [heq]
      · exact .refl t
      · exact putLink hl (.edited l buffers)

theorem grantDownlink (t : Terminal) (tx : Tti) (carrier pid : Nat) (mask : RbgMask)
    (dci : DciLocation) : t.Changes uses (t.grantDownlink tx carrier pid mask dci).2 := by
  have hspec := t.grantDownlink_spec tx carrier pid mask dci
  generalize t.grantDownlink tx carrier pid mask dci = out at hspec
  cases hspec with
  | refused => exact .refl t
  | resent hl hallows hp _ _ _ _ _ hafter =>
      exact .of_relinked hafter hl (.resentDl hallows hp tx mask)
  | started hl hactive hp _ hsizes _ _ hafter =>
      exact .of_relinked hafter hl (.startedDl hactive hp tx hsizes mask _)

theorem grantUplink (t : Terminal) (tx : Tti) (carrier pid : Nat) {interval : PrbInterval}
    (huses : uses interval) (dci : Option DciLocation) :
    t.Changes uses (t.grantUplink tx carrier pid interval dci).2 := by
  have hspec := t.grantUplink_spec tx carrier pid interval dci
  generalize t.grantUplink tx carrier pid interval dci = out at hspec
  cases hspec with
  | refused => exact .refl t
  | resent hl hallows hp _ _ _ _ _ hafter =>
      exact .of_relinked hafter hl (.resentUl hallows hp tx huses)
  | started hl hactive hp _ hsize _ _ hafter =>
      exact .of_relinked hafter hl (.startedUl hactive hp tx hsize huses)

end Changes

end Terminal

end MacScheduler
