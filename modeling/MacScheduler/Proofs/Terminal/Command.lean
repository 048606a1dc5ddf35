import MacScheduler.Proofs.Terminal.Boundary

/-!
# Commands carried out at a boundary

A command names a position.  At the boundary the commands of one position act in
the order queued on the link that stands there, and change nothing of it but its
activation; links at other positions do not notice them.
-/

namespace MacScheduler

namespace Activation

/-- The activation to which a command leads. -/
def obey (state : Activation) (activate : Bool) : Activation :=
  match activate, state with
  | true, .idle => .activating
  | false, .active | false, .activating => .deactivating
  | _, state => state

def obeyAll (state : Activation) (commands : List Bool) : Activation := commands.foldl obey state

end Activation

namespace Terminal

theorem startTransition_eq (activate : Bool) (l : Link) :
    startTransition activate l =
      if l.state.obey activate = l.state then none
      else some { l with state := l.state.obey activate } := by
  unfold startTransition
  cases activate <;> cases l.state <;> rfl

/-- The commands of one position, in the order queued. -/
def commandsAt (position : Nat) (commands : List (Nat × Bool)) : List Bool :=
  (commands.filter fun command ↦ decide (command.1 = position)).map (·.2)

theorem commandsAt_append (position : Nat) (commands commands' : List (Nat × Bool)) :
    commandsAt position (commands ++ commands') =
      commandsAt position commands ++ commandsAt position commands' := by
  simp [commandsAt]

theorem commandsAt_cons_self (position : Nat) (activate : Bool) (commands : List (Nat × Bool)) :
    commandsAt position ((position, activate) :: commands) =
      activate :: commandsAt position commands := by
  simp [commandsAt]

theorem commandsAt_cons_of_ne {position k : Nat} (h : k ≠ position) (activate : Bool)
    (commands : List (Nat × Bool)) :
    commandsAt position ((k, activate) :: commands) = commandsAt position commands := by
  simp [commandsAt, h]

theorem getElem?_runCommands (links : List Link) (commands : List (Nat × Bool)) (i : Nat) :
    (runCommands links commands).2[i]? =
      links[i]?.map fun l ↦ { l with state := l.state.obeyAll (commandsAt i commands) } := by
  induction commands generalizing links with
  | nil =>
      rw [runCommands]
      cases links[i]? <;> rfl
  | cons command commands ih =>
      obtain ⟨k, activate⟩ := command
      rw [runCommands]
      cases hstart : (links[k]?).bind (startTransition activate) with
      | none =>
          dsimp only
          rw [ih]
          by_cases hk : k = i
          · subst hk
            rw [commandsAt_cons_self]
            cases hl : links[k]? with
            | none => rfl
            | some l =>
                -- the command finds the link where it leads
                have hstay : l.state.obey activate = l.state := by
                  rw [hl, Option.bind_some, startTransition_eq] at hstart
                  by_contra hne
                  rw [if_neg hne] at hstart
                  cases hstart
                rw [Option.map_some, Option.map_some, Activation.obeyAll, Activation.obeyAll,
                  List.foldl_cons, hstay]
          · rw [commandsAt_cons_of_ne hk]
      | some l' =>
          obtain ⟨l, hl, hstart⟩ := Option.bind_eq_some_iff.mp hstart
          dsimp only
          rw [ih]
          by_cases hk : k = i
          · subst hk
            have hl' : l' = { l with state := l.state.obey activate } := by
              rw [startTransition_eq] at hstart
              split at hstart
              · cases hstart
              · exact (Option.some.inj hstart).symm
            have hlt : k < links.length := (List.getElem?_eq_some_iff.mp hl).1
            rw [commandsAt_cons_self, List.getElem?_set_self hlt, hl, hl']
            rfl
          · rw [commandsAt_cons_of_ne hk, List.getElem?_set_ne hk]

end Terminal

/-- The link once a boundary has ended its transition and carried out its commands. -/
def Link.commanded (ceQueued : Bool) (commands : List Bool) (l : Link) : Link :=
  { Terminal.completeTransition ceQueued l with
    state := (Terminal.completeTransition ceQueued l).state.obeyAll commands }

namespace Terminal

def ceQueued (t : Terminal) : Bool := t.channels.ces.any MacCe.isScellActivation

theorem getElem?_commandedLinks (t : Terminal) (i : Nat) :
    t.commandedLinks[i]? =
      t.links[i]?.map (Link.commanded t.ceQueued (commandsAt i t.commands)) := by
  rw [commandedLinks, getElem?_runCommands, List.getElem?_map, Option.map_map]
  rfl

/-- A boundary takes every link, at its position, to the new point. -/
theorem getElem?_newTti {t : Terminal} {now : Tti} (h : t.lastTti ≠ some now) (pools : PucchPools)
    (i : Nat) :
    (t.newTti now pools).1.links[i]? =
      t.links[i]?.map fun l ↦
        ((l.commanded t.ceQueued (commandsAt i t.commands)).newTti now).2 := by
  rw [(newTti_links h pools).1, List.getElem?_map, getElem?_commandedLinks, Option.map_map]
  rfl

end Terminal

end MacScheduler
