import MacScheduler.Proofs.Terminal.Commit

/-!
# The two sides of a terminal

A terminal keeps the two directions apart: each has its own process tables, its own
buffers, its own power command and its own totals.  A grant changes the side of its
direction and leaves the other one as it is.
-/

namespace MacScheduler

namespace Channels

theorem groups_serve (c : Channels) (room : Nat) (lcids : List Nat) :
    (c.serve room lcids).2.groups = c.groups := by
  induction lcids generalizing c room with
  | nil => rfl
  | cons lcid lcids ih =>
      rw [serve]
      split
      · rfl
      · exact ih _ _

theorem groups_fill (c : Channels) (tbs : Nat) : (c.fill tbs).2.groups = c.groups :=
  groups_serve _ _ _

end Channels

namespace Link

/-- What a link keeps for the downlink, on the carrier that both directions share. -/
structure DownlinkSide where
  params : CellParams
  state : Activation
  procs : HarqTable RbgMask
  buffers : List (List ByteArray)

structure UplinkSide where
  params : CellParams
  state : Activation
  procs : HarqTable PrbInterval

def downlinkSide (l : Link) : DownlinkSide := ⟨l.params, l.state, l.dl, l.buffers⟩

def uplinkSide (l : Link) : UplinkSide := ⟨l.params, l.state, l.ul⟩

variable (l : Link) (tx : Tti) (pid : Nat)

theorem uplinkSide_resendDownlink (mask : RbgMask) :
    (l.resendDownlink tx pid mask).2.uplinkSide = l.uplinkSide := by
  rcases l.resendDownlink_cases tx pid mask with ⟨e, heq⟩ | ⟨p, alloc, -, -, -, -, -, heq⟩
  · rw [heq]
  · rw [heq]
    rfl

theorem uplinkSide_startDownlink (mask : RbgMask) (bytes : Nat) :
    (l.startDownlink tx pid mask bytes).2.uplinkSide = l.uplinkSide := by
  rcases l.startDownlink_cases tx pid mask bytes with
    ⟨e, heq⟩ | ⟨p, sizes, buffers, -, -, -, -, heq⟩
  · rw [heq]
  · rw [heq]
    rfl

theorem downlinkSide_resendUplink (interval : PrbInterval) :
    (l.resendUplink tx pid interval).2.downlinkSide = l.downlinkSide := by
  rcases l.resendUplink_cases tx pid interval with ⟨e, heq⟩ | ⟨p, alloc, -, -, -, -, -, heq⟩
  · rw [heq]
  · rw [heq]
    rfl

theorem downlinkSide_startUplink (interval : PrbInterval) (bytes : Nat) :
    (l.startUplink tx pid interval bytes).2.downlinkSide = l.downlinkSide := by
  rcases l.startUplink_cases tx pid interval bytes with ⟨e, heq⟩ | ⟨p, size, -, -, -, -, heq⟩
  · rw [heq]
  · rw [heq]
    rfl

end Link

namespace Terminal

structure DownlinkSide where
  links : List Link.DownlinkSide
  channels : List Channel
  /-- Control elements waiting. -/
  ces : List MacCe
  tpc : Int
  grants : Nat
  bytes : Nat

structure UplinkSide where
  links : List Link.UplinkSide
  /-- Uplink bytes reported per group. -/
  groups : List Nat
  srPending : Bool
  tpc : Int
  grants : Nat
  bytes : Nat

def downlinkSide (t : Terminal) : DownlinkSide :=
  { links := t.links.map Link.downlinkSide
    channels := t.channels.channels
    ces := t.channels.ces
    tpc := t.tpcDl
    grants := t.totals.dlGrants
    bytes := t.totals.dlBytes }

def uplinkSide (t : Terminal) : UplinkSide :=
  { links := t.links.map Link.uplinkSide
    groups := t.channels.groups
    srPending := t.srPending
    tpc := t.tpcUl
    grants := t.totals.ulGrants
    bytes := t.totals.ulBytes }

variable {t t' : Terminal} {carrier : Nat}

theorem uplinkPending_of_side (h : t'.uplinkSide = t.uplinkSide) :
    t'.uplinkPending = t.uplinkPending := by
  have hgroups : t'.channels.groups = t.channels.groups := congrArg UplinkSide.groups h
  have hsr : t'.srPending = t.srPending := congrArg UplinkSide.srPending h
  rw [uplinkPending, uplinkPending, Channels.uplinkPending, Channels.uplinkPending, hgroups, hsr]

theorem downlinkPending_of_side (h : t'.downlinkSide = t.downlinkSide) :
    t'.downlinkPending = t.downlinkPending := by
  have hchannels : t'.channels.channels = t.channels.channels := congrArg DownlinkSide.channels h
  have hces : t'.channels.ces = t.channels.ces := congrArg DownlinkSide.ces h
  rw [downlinkPending, downlinkPending, Channels.downlinkPending, Channels.downlinkPending,
    hchannels, hces]

theorem link?_of_side (h : t'.uplinkSide = t.uplinkSide) {l : Link}
    (hl : t.link? carrier = some l) :
    ∃ l', t'.link? carrier = some l' ∧ l'.uplinkSide = l.uplinkSide := by
  have hfind : ∀ t : Terminal, (t.link? carrier).map Link.uplinkSide =
      t.uplinkSide.links.find? fun side ↦ decide (side.params.index = carrier) := fun t ↦ by
    rw [uplinkSide, List.find?_map]
    rfl
  have hlink : (t'.link? carrier).map Link.uplinkSide = some l.uplinkSide := by
    rw [hfind, h, ← hfind, hl, Option.map_some]
  exact Option.map_eq_some_iff.mp hlink

variable (t) (tx : Tti) (pid : Nat)

theorem uplinkSide_grantDownlink (mask : RbgMask) (dci : DciLocation) :
    (t.grantDownlink tx carrier pid mask dci).2.uplinkSide = t.uplinkSide := by
  unfold grantDownlink
  cases hl : t.link? carrier with
  | none => rfl
  | some l =>
      dsimp only
      split
      · have hresend := map_replaceLink hl (l.uplinkSide_resendDownlink tx pid mask)
        generalize l.resendDownlink tx pid mask = out at hresend ⊢
        rcases out with ⟨e | tbs, l'⟩ <;>
          simp only [uplinkSide, putLink, hresend]
      · have hstart :=
          map_replaceLink hl (l.uplinkSide_startDownlink tx pid mask t.downlinkPending)
        generalize l.startDownlink tx pid mask t.downlinkPending = out at hstart ⊢
        rcases out with ⟨e | tbs, l'⟩ <;>
          simp only [uplinkSide, putLink, hstart, Channels.groups_fill]

theorem downlinkSide_grantUplink (interval : PrbInterval) (dci : Option DciLocation) :
    (t.grantUplink tx carrier pid interval dci).2.downlinkSide = t.downlinkSide := by
  unfold grantUplink
  cases hl : t.link? carrier with
  | none => rfl
  | some l =>
      dsimp only
      split
      · have hresend := map_replaceLink hl (l.downlinkSide_resendUplink tx pid interval)
        generalize l.resendUplink tx pid interval = out at hresend ⊢
        rcases out with ⟨e | tb, l'⟩ <;>
          simp only [downlinkSide, putLink, hresend]
      · have hstart :=
          map_replaceLink hl (l.downlinkSide_startUplink tx pid interval t.uplinkPending)
        generalize l.startUplink tx pid interval t.uplinkPending = out at hstart ⊢
        rcases out with ⟨e | tb, l'⟩ <;>
          simp only [downlinkSide, putLink, hstart, Channels.grantUplink]

end Terminal

end MacScheduler
