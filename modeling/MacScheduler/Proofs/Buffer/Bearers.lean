import MacScheduler.Buffer.Channels
import MacScheduler.Terminal.Config

/-!
# Bearers of the logical channels

Each logical channel has the bearer that it was last configured with, or none.
Reports, grants and failures move bytes and leave every bearer in its place, so the
channels can mirror a table of bearers that is kept elsewhere.
-/

namespace MacScheduler

namespace Bearers

/-- No channel is bound twice. -/
def Keyed (bearers : Bearers) : Prop := (bearers.map Prod.fst).Nodup

theorem get?_eq_none {bearers : Bearers} {lcid : Nat} (h : lcid ∉ bearers.map Prod.fst) :
    bearers.get? lcid = none := by
  induction bearers with
  | nil => rfl
  | cons entry rest ih =>
      obtain ⟨hne, hrest⟩ := not_or.mp fun hmem ↦ h (List.mem_cons.mpr hmem)
      rw [get?, if_neg (Ne.symm hne), ih hrest]

end Bearers

theorem Bearer.lcid_lt {b : Bearer} {lcid : Nat} (h : b.check lcid = .ok ()) :
    lcid < nofLcids := by
  unfold check at h
  split at h
  · cases h
  · rename_i hbounds
    exact Nat.lt_of_not_le (not_or.mp hbounds).1

namespace Channels

/-- The bearers by channel. -/
def bearers (c : Channels) : List (Option Bearer) := c.channels.map (·.bearer)

variable {c : Channels} {lcid : Nat}

theorem bearer_channel (c : Channels) (lcid : Nat) :
    (c.channel lcid).bearer = c.bearers[lcid]?.getD none := by
  rw [channel, bearers, List.getElem?_map, List.getD_eq_getElem?_getD]
  cases c.channels[lcid]? <;> rfl

theorem bearer_of_le (h : c.channels.length ≤ lcid) : (c.channel lcid).bearer = none := by
  rw [bearer_channel, bearers, List.getElem?_map, List.getElem?_eq_none h]
  rfl

/-- A channel that keeps its bearer leaves the list as it is. -/
theorem map_bearer_set {ch : Channel} (h : ch.bearer = (c.channel lcid).bearer) :
    (c.channels.set lcid ch).map (·.bearer) = c.bearers := by
  rw [List.map_set, h]
  apply List.ext_getElem?
  intro i
  by_cases hi : lcid = i
  · subst hi
    rw [bearer_channel, bearers, List.getElem?_set_self', List.getElem?_map]
    cases c.channels[lcid]? <;> rfl
  · rw [List.getElem?_set_ne hi, bearers]

/-! ## Operations that leave the bearers alone -/

theorem bearers_reportDownlink (c : Channels) (lcid fresh repeated : Nat) :
    (c.reportDownlink lcid fresh repeated).2.bearers = c.bearers := by
  unfold reportDownlink
  dsimp only
  split
  · exact map_bearer_set rfl
  · rfl

theorem bearers_reportUplink (c : Channels) (lcg bytes : Nat) :
    (c.reportUplink lcg bytes).2.bearers = c.bearers := by
  unfold reportUplink
  split <;> rfl

theorem bearers_foldl_recordFailure {β : Type} (c : Channels) (ds : List (Direction × β))
    (bytes : β → Nat) :
    (ds.foldl (fun c d ↦ c.recordFailure (bytes d.2) d.1) c).bearers = c.bearers := by
  induction ds generalizing c with
  | nil => rfl
  | cons d ds ih =>
      rw [List.foldl_cons, ih]
      cases d.1 <;> rfl

theorem bearers_serve (c : Channels) (room : Nat) (lcids : List Nat) :
    (c.serve room lcids).2.bearers = c.bearers := by
  induction lcids generalizing c room with
  | nil => rfl
  | cons lcid lcids ih =>
      rw [serve]
      split
      · rfl
      · exact (ih _ _).trans (map_bearer_set rfl)

theorem bearers_fill (c : Channels) (tbs : Nat) : (c.fill tbs).2.bearers = c.bearers :=
  bearers_serve _ _ _

/-! ## Operations on one bearer -/

theorem channel_set (hlcid : lcid < c.channels.length) (ch : Channel) (i : Nat) :
    ({ c with channels := c.channels.set lcid ch } : Channels).channel i =
      if lcid = i then ch else c.channel i := by
  rw [channel, List.getD_eq_getElem?_getD, List.getElem?_set]
  by_cases hi : lcid = i
  · rw [if_pos hi, if_pos hi, if_pos hlcid, Option.getD_some]
  · rw [if_neg hi, if_neg hi, channel, List.getD_eq_getElem?_getD]

theorem bearer_configure (hlcid : lcid < c.channels.length) {b : Bearer}
    (h : b.check lcid = .ok ()) (i : Nat) :
    ((c.configure lcid b).2.channel i).bearer =
      if lcid = i then some b else (c.channel i).bearer := by
  have heq : (c.configure lcid b).2 =
      { c with channels := c.channels.set lcid { c.channel lcid with bearer := some b } } := by
    simp [configure, h]
  rw [heq, channel_set hlcid]
  split <;> rfl

theorem bearer_remove (hlcid : lcid < c.channels.length) (i : Nat) :
    ((c.remove lcid).2.channel i).bearer = if lcid = i then none else (c.channel i).bearer := by
  have heq : (c.remove lcid).2 = { c with channels := c.channels.set lcid {} } := by
    simp [remove, hlcid]
  rw [heq, channel_set hlcid]
  split <;> rfl

theorem length_configure (c : Channels) (lcid : Nat) (b : Bearer) :
    (c.configure lcid b).2.channels.length = c.channels.length := by
  unfold configure
  split
  · rfl
  · exact List.length_set

theorem length_remove (c : Channels) (lcid : Nat) :
    (c.remove lcid).2.channels.length = c.channels.length := by
  unfold remove
  split
  · exact List.length_set
  · rfl

/-! ## A table kept elsewhere -/

/-- There are all channels, and each has the bearer that the table names for it. -/
structure Mirrors (c : Channels) (table : Bearers) : Prop where
  length_eq : c.channels.length = nofLcids
  bearer_eq : ∀ lcid, (c.channel lcid).bearer = table.get? lcid

namespace Mirrors

variable {table : Bearers}

theorem of_bearers {c' : Channels} (h : c.Mirrors table) (hbearers : c'.bearers = c.bearers) :
    c'.Mirrors table where
  length_eq := by
    have hlength := congrArg List.length hbearers
    rw [bearers, bearers, List.length_map, List.length_map] at hlength
    exact hlength.trans h.length_eq
  bearer_eq := by
    intro lcid
    rw [bearer_channel, hbearers, ← bearer_channel]
    exact h.bearer_eq lcid

theorem configure (h : c.Mirrors table) {b : Bearer} (hcheck : b.check lcid = .ok ()) :
    (c.configure lcid b).2.Mirrors (table.insert lcid b) where
  length_eq := (c.length_configure lcid b).trans h.length_eq
  bearer_eq := by
    intro i
    have hlcid : lcid < c.channels.length := h.length_eq ▸ Bearer.lcid_lt hcheck
    rw [bearer_configure hlcid hcheck, Bearers.get?_insert, h.bearer_eq]

theorem remove (h : c.Mirrors table) (hlcid : lcid < c.channels.length) :
    (c.remove lcid).2.Mirrors (table.erase lcid) where
  length_eq := (c.length_remove lcid).trans h.length_eq
  bearer_eq := by
    intro i
    rw [bearer_remove hlcid, Bearers.get?_erase, h.bearer_eq]

end Mirrors

end Channels

end MacScheduler
