import MacScheduler.Proofs.Buffer.Bearers
import MacScheduler.Proofs.Buffer.Elements

/-!
# Filling a downlink block

A block takes the control elements in the order queued while they fit, and then the
channels by priority while more than a subheader is left.  Each channel gives all it
has or all that fits, so a channel is reached only when those ahead of it are empty,
and room is left over only when nothing waits or no byte more would fit.  This needs
the bytes of each channel to be a count: a channel whose sum wraps around counts as
shorter than it is, or as empty.
-/

namespace MacScheduler

namespace Channel

variable {ch : Channel}

def hasDownlink (ch : Channel) : Bool := ch.bearer.any fun b ↦ b.direction.hasDownlink

/-- Downlink bytes, summed up without wrapping around. -/
def waiting (ch : Channel) : Nat := if ch.hasDownlink then ch.fresh + ch.repeated else 0

def Counted (ch : Channel) : Prop := ch.waiting ≤ maxCount

instance : DecidablePred Counted := fun ch ↦ inferInstanceAs (Decidable (ch.waiting ≤ maxCount))

theorem Counted.of_le {ch' : Channel} (hc : ch.Counted) (hbearer : ch'.bearer = ch.bearer)
    (hfresh : ch'.fresh ≤ ch.fresh) (hrepeated : ch'.repeated ≤ ch.repeated) : ch'.Counted := by
  refine Nat.le_trans ?_ hc
  have hdownlink : ch'.hasDownlink = ch.hasDownlink := by rw [hasDownlink, hasDownlink, hbearer]
  rw [waiting, waiting, hdownlink]
  split
  · exact Nat.add_le_add hfresh hrepeated
  · exact Nat.le_refl 0

theorem downlinkBytes_eq_wrap (ch : Channel) : ch.downlinkBytes = wrap ch.waiting := by
  change (if ch.hasDownlink then wrap (ch.fresh + ch.repeated) else 0) = _
  unfold waiting
  split <;> rfl

theorem Counted.downlinkBytes_eq (h : ch.Counted) : ch.downlinkBytes = ch.waiting :=
  ch.downlinkBytes_eq_wrap.trans (wrap_of_le h)

theorem Counted.downlinkBytes_eq_add (hc : ch.Counted) (h : ch.hasDownlink = true) :
    ch.downlinkBytes = ch.fresh + ch.repeated :=
  hc.downlinkBytes_eq.trans (if_pos h)

theorem hasDownlink_of_pos (h : 0 < ch.downlinkBytes) : ch.hasDownlink = true := by
  cases hhas : ch.hasDownlink with
  | true => rfl
  | false =>
      have hzero : ch.downlinkBytes = 0 := if_neg (ne_true_of_eq_false hhas)
      exact absurd hzero (Nat.ne_of_gt h)

/-- `n` bytes leave the channel, those to be repeated first. -/
structure Sends (ch : Channel) (n : Nat) (ch' : Channel) : Prop where
  bearer_eq : ch'.bearer = ch.bearer
  downlinkBytes_add : ch'.downlinkBytes + n = ch.downlinkBytes
  repeated_eq : ch'.repeated = ch.repeated - n
  fresh_eq : ch'.fresh = ch.fresh - (n - ch.repeated)

theorem fst_take (hc : ch.Counted) (h : 0 < ch.downlinkBytes) (room : Nat) :
    (ch.take room).1 = min ch.downlinkBytes room := by
  rw [hc.downlinkBytes_eq_add (hasDownlink_of_pos h)]
  simp only [take]
  omega

theorem Counted.take (hc : ch.Counted) (room : Nat) : (ch.take room).2.Counted :=
  hc.of_le rfl (Nat.sub_le _ _) (Nat.sub_le _ _)

theorem sends_take (hc : ch.Counted) (h : 0 < ch.downlinkBytes) (room : Nat) :
    ch.Sends (ch.take room).1 (ch.take room).2 := by
  have hdownlink := hasDownlink_of_pos h
  have hdownlink' : (ch.take room).2.hasDownlink = true := hdownlink
  refine ⟨rfl, ?_, ?_, ?_⟩
  · rw [hc.downlinkBytes_eq_add hdownlink, (hc.take room).downlinkBytes_eq_add hdownlink']
    simp only [take]
    omega
  · simp only [take]
    omega
  · simp only [take]
    omega

end Channel

namespace Channels

/-- The downlink bytes of each channel are a count. -/
def Counted (c : Channels) : Prop := ∀ ch ∈ c.channels, ch.Counted

instance : DecidablePred Counted := fun c ↦
  inferInstanceAs (Decidable (∀ ch ∈ c.channels, ch.Counted))

/-! ## Demand -/

theorem channelDemand_of_pos {ch : Channel} (h : 0 < ch.downlinkBytes) :
    channelDemand ch = ch.downlinkBytes + rlcSubheader :=
  if_neg (Nat.ne_of_gt h)

theorem channelDemand_eq_zero_iff {ch : Channel} :
    channelDemand ch = 0 ↔ ch.downlinkBytes = 0 := by
  unfold channelDemand
  split <;> simp_all [rlcSubheader]

/-! ## Control elements -/

/-- The elements taken fit, and the others stay because the next one would not. -/
theorem takeCes_spec (room : Nat) (ces : List MacCe) :
    total ((takeCes room ces).1.map MacCe.size) + (takeCes room ces).2.1 = room ∧
      ((takeCes room ces).2.2 = [] ∨ (takeCes room ces).2.1 < 2) := by
  induction ces generalizing room with
  | nil => exact ⟨Nat.zero_add room, .inl rfl⟩
  | cons ce ces ih =>
      rw [takeCes]
      split
      · rename_i hroom
        exact ⟨Nat.zero_add room, .inr hroom⟩
      · rename_i hroom
        obtain ⟨hsize, hleft⟩ := ih (room - ce.size)
        refine ⟨?_, hleft⟩
        dsimp only
        rw [List.map_cons, total_cons, Nat.add_assoc, hsize]
        exact Nat.add_sub_of_le (Nat.le_of_not_lt hroom)

/-! ## The order of service -/

def priority (c : Channels) (lcid : Nat) : Nat :=
  ((c.channel lcid).bearer.map Bearer.priority).getD maxCount

/-- Channel `a` is served before channel `b`: by priority, and by index among equals. -/
def Ahead (c : Channels) (a b : Nat) : Prop :=
  c.priority a < c.priority b ∨ c.priority a = c.priority b ∧ a < b

variable {c : Channels}

theorem Ahead.asymm {a b : Nat} (h : c.Ahead a b) : ¬c.Ahead b a := by
  unfold Ahead at *
  omega

theorem servedBefore_iff (a b : Nat) :
    c.servedBefore a b = true ↔
      c.priority a < c.priority b ∨ c.priority a = c.priority b ∧ a ≤ b := by
  rw [servedBefore]
  simp only [Bool.or_eq_true, Bool.and_eq_true, decide_eq_true_eq]
  rfl

theorem Ahead.of_servedBefore {a b : Nat} (h : c.servedBefore a b = true) (hne : a ≠ b) :
    c.Ahead a b := by
  rw [servedBefore_iff] at h
  unfold Ahead
  omega

theorem nodup_serviceOrder (c : Channels) : c.serviceOrder.Nodup :=
  (List.mergeSort_perm _ c.servedBefore).nodup_iff.mpr (List.nodup_range.filter _)

theorem mem_serviceOrder {lcid : Nat} :
    lcid ∈ c.serviceOrder ↔ lcid < c.channels.length ∧ 0 < (c.channel lcid).downlinkBytes := by
  rw [serviceOrder, List.mem_mergeSort, List.mem_filter, List.mem_range, decide_eq_true_eq]

theorem channel_of_le {lcid : Nat} (h : c.channels.length ≤ lcid) : c.channel lcid = {} := by
  rw [channel, List.getD_eq_getElem?_getD, List.getElem?_eq_none h, Option.getD_none]

theorem channel_of_lt {lcid : Nat} (h : lcid < c.channels.length) :
    c.channel lcid = c.channels[lcid] := by
  rw [channel, List.getD_eq_getElem?_getD, List.getElem?_eq_getElem h, Option.getD_some]

theorem counted_iff : c.Counted ↔ ∀ lcid, (c.channel lcid).Counted := by
  constructor
  · intro hc lcid
    rcases Nat.lt_or_ge lcid c.channels.length with hlt | hge
    · rw [channel_of_lt hlt]
      exact hc _ (List.getElem_mem hlt)
    · rw [channel_of_le hge]
      decide
  · intro h ch hch
    obtain ⟨i, hi, rfl⟩ := List.mem_iff_getElem.mp hch
    have hcounted := h i
    rwa [channel_of_lt hi] at hcounted

theorem Counted.channel (hc : c.Counted) (lcid : Nat) : (c.channel lcid).Counted :=
  counted_iff.mp hc lcid

theorem downlinkBytes_of_notMem {lcid : Nat} (h : lcid ∉ c.serviceOrder) :
    (c.channel lcid).downlinkBytes = 0 := by
  rw [mem_serviceOrder, not_and] at h
  rcases Nat.lt_or_ge lcid c.channels.length with hlt | hge
  · exact Nat.eq_zero_of_not_pos (h hlt)
  · rw [channel_of_le hge]
    rfl

theorem pairwise_serviceOrder (c : Channels) : c.serviceOrder.Pairwise c.Ahead := by
  have hsorted : c.serviceOrder.Pairwise fun a b ↦ c.servedBefore a b = true := by
    refine List.pairwise_mergeSort ?_ ?_ _
    · intro a b d hab hbd
      rw [servedBefore_iff] at *
      omega
    · intro a b
      rw [Bool.or_eq_true, servedBefore_iff, servedBefore_iff]
      omega
  exact (hsorted.and (nodup_serviceOrder c)).imp fun h ↦ .of_servedBefore h.1 h.2

/-! ## Serving channels in a given order -/

/-- The unit that carries `u.2` bytes of the channel `u.1`. -/
def rlcPdu (u : Nat × Nat) : DlPdu := .rlc u.1 u.2

/-- The room that the units take, subheaders included. -/
def roomFor (units : List (Nat × Nat)) : Nat := total ((units.map rlcPdu).map DlPdu.size)

theorem roomFor_cons (u : Nat × Nat) (units : List (Nat × Nat)) :
    roomFor (u :: units) = u.2 + rlcSubheader + roomFor units := rfl

/-- What serving the channels `lcids` from `room` bytes leaves, when the block carries `units`. -/
structure Served (c : Channels) (room : Nat) (lcids : List Nat) (units : List (Nat × Nat))
    (c' : Channels) : Prop where
  isPrefix : units.map Prod.fst <+: lcids
  room_le : roomFor units ≤ room
  sends : ∀ lcid n, (lcid, n) ∈ units →
    0 < n ∧ (c.channel lcid).Sends n (c'.channel lcid)
  keeps : ∀ lcid, lcid ∉ units.map Prod.fst → c'.channel lcid = c.channel lcid
  /-- A channel that is followed by another one is empty. -/
  drained : (units.map Prod.fst).Pairwise fun a _ ↦ (c'.channel a).downlinkBytes = 0
  rest : (∀ lcid ∈ lcids, (c'.channel lcid).downlinkBytes = 0) ∨
    room ≤ roomFor units + rlcSubheader
  ample : total (lcids.map fun lcid ↦ channelDemand (c.channel lcid)) ≤ room →
    ∀ lcid ∈ lcids, (c'.channel lcid).downlinkBytes = 0

theorem Served.nil {room : Nat} {lcids : List Nat} (h : lcids = [] ∨ room ≤ rlcSubheader)
    (hpos : ∀ lcid ∈ lcids, 0 < (c.channel lcid).downlinkBytes) :
    Served c room lcids [] c where
  isPrefix := List.nil_prefix
  room_le := Nat.zero_le room
  sends := fun _ _ h ↦ absurd h List.not_mem_nil
  keeps := fun _ _ ↦ rfl
  drained := .nil
  rest := by
    rcases h with rfl | h
    · exact .inl fun _ h ↦ absurd h List.not_mem_nil
    · exact .inr (Nat.le_trans h (Nat.le_add_left _ _))
  ample := by
    intro hdemand lcid hmem
    have hle : channelDemand (c.channel lcid) ≤ room :=
      Nat.le_trans (le_total_of_mem (List.mem_map.mpr ⟨lcid, hmem, rfl⟩)) hdemand
    rw [channelDemand_of_pos (hpos lcid hmem)] at hle
    rcases h with rfl | h
    · exact absurd hmem List.not_mem_nil
    · exact absurd (hpos lcid hmem) (by omega)

/-- One channel is served and then the others from what is left. -/
theorem Served.cons {room lcid n : Nat} {lcids : List Nat} {units : List (Nat × Nat)}
    {c₁ c' : Channels} (hroom : rlcSubheader < room) (hmem : lcid ∉ lcids)
    (hpos : 0 < (c.channel lcid).downlinkBytes)
    (hn : n = min (c.channel lcid).downlinkBytes (room - rlcSubheader))
    (hsends : (c.channel lcid).Sends n (c₁.channel lcid))
    (hkeeps : ∀ i, i ≠ lcid → c₁.channel i = c.channel i)
    (h : Served c₁ (room - (n + rlcSubheader)) lcids units c') :
    Served c room (lcid :: lcids) ((lcid, n) :: units) c' := by
  have hfresh : lcid ∉ units.map Prod.fst := fun hin ↦ hmem (h.isPrefix.subset hin)
  have hlast : c'.channel lcid = c₁.channel lcid := h.keeps lcid hfresh
  have hbytes := hsends.downlinkBytes_add
  have hroom' := h.room_le
  -- What the channel keeps back leaves no room for another one.
  have hempty : (c'.channel lcid).downlinkBytes = 0 ∨ room = n + rlcSubheader := by
    rw [hlast]
    omega
  refine
    { isPrefix := List.cons_prefix_cons.mpr ⟨rfl, h.isPrefix⟩
      room_le := ?room_le
      sends := ?sends
      keeps := ?keeps
      drained := ?drained
      rest := ?rest
      ample := ?ample }
  case room_le =>
    rw [roomFor_cons]
    dsimp only
    omega
  case sends =>
    intro i k hunit
    rcases List.mem_cons.mp hunit with heq | htail
    · obtain ⟨rfl, rfl⟩ := Prod.mk.inj heq
      rw [hlast]
      exact ⟨by omega, hsends⟩
    · have hi : i ∈ units.map Prod.fst := List.mem_map.mpr ⟨(i, k), htail, rfl⟩
      rw [← hkeeps i fun heq ↦ hfresh (heq ▸ hi)]
      exact h.sends i k htail
  case keeps =>
    intro i hi
    obtain ⟨hne, hi⟩ := not_or.mp fun hor ↦ hi (List.mem_cons.mpr hor)
    rw [h.keeps i hi, hkeeps i hne]
  case drained =>
    refine List.pairwise_cons.mpr ⟨fun i hi ↦ ?_, h.drained⟩
    rcases hempty with hempty | hfull
    · exact hempty
    · cases units with
      | nil => exact absurd hi List.not_mem_nil
      | cons u units =>
          rw [roomFor_cons] at hroom'
          have hsub : 0 < rlcSubheader := by decide
          omega
  case rest =>
    rcases hempty with hempty | hfull
    · rcases h.rest with hall | hleft
      · exact .inl (List.forall_mem_cons.mpr ⟨hempty, hall⟩)
      · refine .inr ?_
        rw [roomFor_cons]
        dsimp only
        omega
    · refine .inr ?_
      rw [roomFor_cons]
      dsimp only
      omega
  case ample =>
    intro hdemand
    rw [List.map_cons, total_cons, channelDemand_of_pos hpos] at hdemand
    have hrest : lcids.map (fun i ↦ channelDemand (c₁.channel i)) =
        lcids.map fun i ↦ channelDemand (c.channel i) :=
      List.map_congr_left fun i hi ↦ by rw [hkeeps i (ne_of_mem_of_not_mem hi hmem)]
    refine List.forall_mem_cons.mpr ⟨?_, h.ample ?_⟩
    · rw [hlast]
      omega
    · rw [hrest]
      omega

/-- The channels after one of them has given what fits into `room` bytes. -/
def afterTake (c : Channels) (lcid room : Nat) : Channels :=
  { c with channels := c.channels.set lcid ((c.channel lcid).take room).2 }

theorem serve_cons {room : Nat} (h : rlcSubheader < room) (lcid : Nat) (lcids : List Nat) :
    c.serve room (lcid :: lcids) =
      let n := ((c.channel lcid).take (room - rlcSubheader)).1
      let rest := (c.afterTake lcid (room - rlcSubheader)).serve (room - (n + rlcSubheader)) lcids
      (rlcPdu (lcid, n) :: rest.1, rest.2) := by
  rw [serve, if_neg (Nat.not_le_of_lt h)]
  rfl

theorem channel_afterTake {lcid : Nat} (h : lcid < c.channels.length) (room i : Nat) :
    (c.afterTake lcid room).channel i =
      if lcid = i then ((c.channel lcid).take room).2 else c.channel i :=
  channel_set h _ i

theorem Counted.afterTake (hc : c.Counted) {lcid : Nat} (h : lcid < c.channels.length)
    (room : Nat) : (c.afterTake lcid room).Counted := by
  refine counted_iff.mpr fun i ↦ ?_
  rw [channel_afterTake h]
  split
  · exact (hc.channel lcid).take room
  · exact hc.channel i

theorem served_serve {room : Nat} {lcids : List Nat} (hc : c.Counted) (hnodup : lcids.Nodup)
    (hlcids : ∀ lcid ∈ lcids, lcid < c.channels.length ∧ 0 < (c.channel lcid).downlinkBytes) :
    ∃ units, (c.serve room lcids).1 = units.map rlcPdu ∧
      Served c room lcids units (c.serve room lcids).2 := by
  induction lcids generalizing c room with
  | nil => exact ⟨[], rfl, .nil (.inl rfl) fun _ h ↦ absurd h List.not_mem_nil⟩
  | cons lcid lcids ih =>
      obtain ⟨hmem, hnodup⟩ := List.nodup_cons.mp hnodup
      have hall := hlcids
      obtain ⟨⟨hlt, hpos⟩, hlcids⟩ := List.forall_mem_cons.mp hlcids
      rcases Nat.lt_or_ge rlcSubheader room with hroom | hroom
      · rw [serve_cons hroom]
        dsimp only
        have hkeeps : ∀ i, i ≠ lcid →
            (c.afterTake lcid (room - rlcSubheader)).channel i = c.channel i :=
          fun i hi ↦ (channel_afterTake hlt _ i).trans (if_neg (Ne.symm hi))
        have hrest : ∀ i ∈ lcids,
            i < (c.afterTake lcid (room - rlcSubheader)).channels.length ∧
              0 < ((c.afterTake lcid (room - rlcSubheader)).channel i).downlinkBytes := by
          intro i hi
          rw [hkeeps i (ne_of_mem_of_not_mem hi hmem), afterTake, List.length_set]
          exact hlcids i hi
        obtain ⟨units, hunits, hserved⟩ := ih (hc.afterTake hlt _) hnodup hrest
        refine ⟨(lcid, _) :: units, congrArg (_ :: ·) hunits, ?_⟩
        have hcounted := hc.channel lcid
        refine hserved.cons hroom hmem hpos (Channel.fst_take hcounted hpos _) ?_ hkeeps
        rw [channel_afterTake hlt, if_pos rfl]
        exact Channel.sends_take hcounted hpos _
      · rw [serve, if_pos hroom]
        exact ⟨[], rfl, .nil (.inr hroom) fun i hi ↦ (hall i hi).2⟩

theorem serve_frame (c : Channels) (room : Nat) (lcids : List Nat) :
    (c.serve room lcids).2 = { c with channels := (c.serve room lcids).2.channels } := by
  induction lcids generalizing c room with
  | nil => rfl
  | cons lcid lcids ih =>
      rw [serve]
      split
      · rfl
      · exact ih _ _

/-! ## The filled block -/

/-- What a block of `tbs` bytes takes from the buffers `c` when it carries the elements
`sent` and the units `units`. -/
structure Filled (c : Channels) (tbs : Nat) (sent : List MacCe) (units : List (Nat × Nat))
    (pdus : List DlPdu) (c' : Channels) : Prop where
  pdus_eq : pdus = sent.map .ce ++ units.map rlcPdu
  /-- The elements sent are the first ones queued. -/
  ces_eq : sent ++ c'.ces = c.ces
  ordered : (units.map Prod.fst).Pairwise c.Ahead
  size_le : total (pdus.map DlPdu.size) ≤ tbs
  sends : ∀ lcid n, (lcid, n) ∈ units → (c.channel lcid).hasDownlink = true ∧ 0 < n ∧
    (c.channel lcid).Sends n (c'.channel lcid)
  keeps : ∀ lcid, lcid ∉ units.map Prod.fst → c'.channel lcid = c.channel lcid
  /-- A channel is served once the queue and all channels ahead of it are empty. -/
  drained : ∀ b ∈ units.map Prod.fst, c'.ces = [] ∧
    ∀ a, c.Ahead a b → (c'.channel a).downlinkBytes = 0
  frame : c' = { c with channels := c'.channels, ces := c'.ces }

/-- Nothing waits: no control element and no byte of a channel. -/
def Drained (c : Channels) : Prop := c.ces = [] ∧ ∀ lcid, (c.channel lcid).downlinkBytes = 0

/-- What would empty all buffers, before it is cut to a count. -/
def demand (c : Channels) : Nat :=
  total (c.ces.map MacCe.size) + total (c.channels.map channelDemand)

theorem demand_eq_zero_iff : c.demand = 0 ↔ c.Drained := by
  rw [demand, Nat.add_eq_zero_iff, total_eq_zero_iff, total_eq_zero_iff]
  refine and_congr ⟨fun h ↦ ?_, fun h ↦ ?_⟩ ⟨fun h lcid ↦ ?_, fun h ↦ ?_⟩
  · cases hces : c.ces with
    | nil => rfl
    | cons ce ces =>
        rw [hces] at h
        exact absurd (h ce.size List.mem_cons_self) (Nat.succ_ne_zero 1)
  · rw [h]
    exact fun _ h ↦ absurd h List.not_mem_nil
  · rcases Nat.lt_or_ge lcid c.channels.length with hlt | hge
    · apply channelDemand_eq_zero_iff.mp
      apply h
      refine List.mem_map.mpr ⟨_, List.getElem_mem hlt, ?_⟩
      exact congrArg channelDemand (channel_of_lt hlt).symm
    · rw [channel_of_le hge]
      rfl
  · refine List.forall_mem_map.mpr fun ch hch ↦ channelDemand_eq_zero_iff.mpr ?_
    obtain ⟨i, hi, rfl⟩ := List.mem_iff_getElem.mp hch
    have hbytes := h i
    rwa [channel_of_lt hi] at hbytes

theorem Drained.downlinkPending_eq (h : c.Drained) : c.downlinkPending = 0 := by
  change wrap c.demand = 0
  rw [demand_eq_zero_iff.mpr h]
  rfl

/-- A prefix of a list in order holds all that comes before any of its elements. -/
theorem mem_before_of_prefix {served order : List Nat} (h : served <+: order)
    (hordered : order.Pairwise c.Ahead) {a b : Nat} (ha : a ∈ order) (hb : b ∈ served)
    (hab : c.Ahead a b) : ∃ before after, served = before ++ b :: after ∧ a ∈ before := by
  obtain ⟨before, after, rfl⟩ := List.append_of_mem hb
  refine ⟨before, after, rfl, ?_⟩
  obtain ⟨rest, rfl⟩ := h
  rw [List.append_assoc, List.cons_append] at ha hordered
  have htail := (List.pairwise_cons.mp (List.pairwise_append.mp hordered).2.1).1
  rcases List.mem_append.mp ha with ha | ha
  · exact ha
  · rcases List.mem_cons.mp ha with rfl | ha
    · exact absurd hab hab.asymm
    · exact absurd (htail a ha) hab.asymm

theorem Served.drained_ahead {room : Nat} {units : List (Nat × Nat)} {c' : Channels}
    (h : Served c room c.serviceOrder units c') {a b : Nat} (hb : b ∈ units.map Prod.fst)
    (hab : c.Ahead a b) : (c'.channel a).downlinkBytes = 0 := by
  by_cases ha : a ∈ c.serviceOrder
  · obtain ⟨before, after, hsplit, ha⟩ :=
      mem_before_of_prefix h.isPrefix (pairwise_serviceOrder c) ha hb hab
    have hdrained := h.drained
    rw [hsplit] at hdrained
    exact (List.pairwise_append.mp hdrained).2.2 a ha b List.mem_cons_self
  · rw [h.keeps a fun hmem ↦ ha (h.isPrefix.subset hmem)]
    exact downlinkBytes_of_notMem ha

/-- The buffers once the elements that fit have left the queue. -/
def afterCes (c : Channels) (tbs : Nat) : Channels := { c with ces := (takeCes tbs c.ces).2.2 }

theorem served_fill (hc : c.Counted) (tbs : Nat) :
    ∃ units, (c.fill tbs).1 = (takeCes tbs c.ces).1.map .ce ++ units.map rlcPdu ∧
      Served (c.afterCes tbs) (takeCes tbs c.ces).2.1 c.serviceOrder units (c.fill tbs).2 := by
  obtain ⟨units, hunits, hserved⟩ := @served_serve (c.afterCes tbs) (takeCes tbs c.ces).2.1
    c.serviceOrder hc (nodup_serviceOrder c) fun lcid h ↦ mem_serviceOrder.mp h
  exact ⟨units, congrArg (_ ++ ·) hunits, hserved⟩

theorem total_size_pdus (sent : List MacCe) (units : List (Nat × Nat)) :
    total ((sent.map DlPdu.ce ++ units.map rlcPdu).map DlPdu.size) =
      total (sent.map MacCe.size) + roomFor units := by
  rw [List.map_append, total_append, List.map_map]
  rfl

theorem drained_fill (hc : c.Counted) {tbs : Nat} (hces : (takeCes tbs c.ces).2.2 = [])
    (h : ∀ lcid ∈ c.serviceOrder, ((c.fill tbs).2.channel lcid).downlinkBytes = 0) :
    (c.fill tbs).2.Drained := by
  obtain ⟨units, -, hserved⟩ := served_fill hc tbs
  refine ⟨(c.ces_fill tbs).trans hces, fun lcid ↦ ?_⟩
  by_cases hmem : lcid ∈ c.serviceOrder
  · exact h lcid hmem
  · rw [hserved.keeps lcid fun hin ↦ hmem (hserved.isPrefix.subset hin)]
    exact downlinkBytes_of_notMem hmem

theorem exists_filled (hc : c.Counted) (tbs : Nat) :
    ∃ sent units, Filled c tbs sent units (c.fill tbs).1 (c.fill tbs).2 := by
  obtain ⟨units, hpdus, hserved⟩ := served_fill hc tbs
  obtain ⟨hroom, hleft⟩ := takeCes_spec tbs c.ces
  have hunits := hserved.room_le
  refine ⟨(takeCes tbs c.ces).1, units,
    { pdus_eq := hpdus
      ces_eq := by rw [ces_fill, takeCes_append]
      ordered := (pairwise_serviceOrder c).sublist hserved.isPrefix.sublist
      size_le := ?size_le
      sends := ?sends
      keeps := hserved.keeps
      drained := ?drained
      frame := ?frame }⟩
  case size_le =>
    rw [hpdus, total_size_pdus]
    omega
  case sends =>
    intro lcid n hmem
    obtain ⟨hpos, hsends⟩ := hserved.sends lcid n hmem
    have hbytes := hsends.downlinkBytes_add
    have hdownlink : ((c.afterCes tbs).channel lcid).hasDownlink = true :=
      Channel.hasDownlink_of_pos (by omega)
    exact ⟨hdownlink, hpos, hsends⟩
  case drained =>
    intro b hb
    refine ⟨?_, fun a hab ↦ hserved.drained_ahead hb hab⟩
    rw [ces_fill]
    refine hleft.resolve_right fun hlt ↦ ?_
    -- Two bytes are less than a subheader, so nothing was served.
    cases units with
    | nil => exact List.not_mem_nil hb
    | cons u units =>
        rw [roomFor_cons] at hunits
        have hsub : 2 < rlcSubheader := by decide
        omega
  case frame =>
    rw [ces_fill]
    exact serve_frame (c.afterCes tbs) (takeCes tbs c.ces).2.1 c.serviceOrder

/-- A block that leaves more than a subheader unused has emptied the buffers. -/
theorem leftover_fill (hc : c.Counted) (tbs : Nat) :
    (c.fill tbs).2.Drained ∨ tbs ≤ total ((c.fill tbs).1.map DlPdu.size) + rlcSubheader := by
  obtain ⟨units, hpdus, hserved⟩ := served_fill hc tbs
  obtain ⟨hroom, hleft⟩ := takeCes_spec tbs c.ces
  rw [hpdus, total_size_pdus]
  have hunits := hserved.room_le
  have hsub : 2 < rlcSubheader := by decide
  rcases hleft with hnil | hlt
  · rcases hserved.rest with hall | hrest
    · exact .inl (drained_fill hc hnil hall)
    · exact .inr (by omega)
  · exact .inr (by omega)

theorem Filled.counted {tbs : Nat} {sent : List MacCe} {units : List (Nat × Nat)}
    {pdus : List DlPdu} {c' : Channels} (h : Filled c tbs sent units pdus c') (hc : c.Counted) :
    c'.Counted := by
  refine counted_iff.mpr fun lcid ↦ ?_
  have hold := hc.channel lcid
  by_cases hmem : lcid ∈ units.map Prod.fst
  · obtain ⟨⟨_, n⟩, hunit, rfl⟩ := List.mem_map.mp hmem
    obtain ⟨-, -, hsends⟩ := h.sends _ n hunit
    exact hold.of_le hsends.bearer_eq (hsends.fresh_eq ▸ Nat.sub_le _ _)
      (hsends.repeated_eq ▸ Nat.sub_le _ _)
  · rwa [h.keeps lcid hmem]

/-- Two channels, the first one served before the other, and what was reported of them. -/
def reported (fresh repeated : Nat) : Channels :=
  let c := (({} : Channels).configure 3 ⟨.both, 5, 1⟩).2
  let c := (c.configure 4 ⟨.both, 9, 2⟩).2
  ((c.reportDownlink 3 fresh repeated).2.reportDownlink 4 10 0).2

end Channels

end MacScheduler
