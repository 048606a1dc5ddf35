import Mathlib.Data.List.Nodup
import MacScheduler.Document.Value

/-!
# Layers of documents

Merging is told apart key by key: an entry of a merged dictionary is the upper entry
laid on the lower one.  So what a stack of layers has at a key is the stack of what they
have there, down to the first layer that is no dictionary, which hides those below.  At
the end of a path the highest value is the one that counts.
-/

namespace MacScheduler.Value

/-- The entry of a key; only a dictionary has entries. -/
def get? (key : String) : Value → Option Value
  | .dict entries => lookup key entries
  | _ => none

theorem at?_cons (key : String) (path : List String) (v : Value) :
    at? (key :: path) v = (v.get? key).bind (at? path) := by
  cases v <;> rfl

/-- No dictionary inside the value binds a key twice. -/
inductive Tidy : Value → Prop
  | null : Tidy .null
  | bool (b : Bool) : Tidy (.bool b)
  | int (i : Int) : Tidy (.int i)
  | float (x : Float) : Tidy (.float x)
  | text (s : String) : Tidy (.text s)
  | list {items : List Value} (hitems : ∀ item ∈ items, Tidy item) : Tidy (.list items)
  | dict {entries : List (String × Value)} (hkeys : (entries.map Prod.fst).Nodup)
      (hvalues : ∀ entry ∈ entries, Tidy entry.2) : Tidy (.dict entries)

/-! ## Entries -/

section

variable {k key : String} {v value : Value} {entries lower upper : List (String × Value)}

theorem mem_of_lookup (h : lookup k entries = some v) : (k, v) ∈ entries := by
  induction entries with
  | nil => cases h
  | cons entry entries ih =>
      obtain ⟨k', v'⟩ := entry
      rw [lookup] at h
      split at h
      · rename_i hk
        cases h
        exact hk ▸ List.mem_cons_self
      · exact List.mem_cons_of_mem _ (ih h)

theorem lookup_eq_none_iff : lookup k entries = none ↔ k ∉ entries.map Prod.fst := by
  induction entries with
  | nil => simp [lookup]
  | cons entry entries ih =>
      obtain ⟨k', v'⟩ := entry
      by_cases hk : k' = k
      · simp [lookup, hk]
      · simp [lookup, hk, Ne.symm hk, ih]

theorem lookup_of_mem (hkeys : (entries.map Prod.fst).Nodup) (h : (k, v) ∈ entries) :
    lookup k entries = some v := by
  induction entries with
  | nil => cases h
  | cons entry entries ih =>
      obtain ⟨hnot, hrest⟩ := List.nodup_cons.mp hkeys
      rcases List.mem_cons.mp h with rfl | h
      · simp [lookup]
      · have hne : entry.1 ≠ k := fun heq ↦ hnot (heq ▸ List.mem_map_of_mem h)
        rw [lookup, if_neg hne]
        exact ih hrest h

theorem keys_assign (key : String) (value : Value) (entries : List (String × Value)) :
    (assign key value entries).map Prod.fst =
      if key ∈ entries.map Prod.fst then entries.map Prod.fst
      else entries.map Prod.fst ++ [key] := by
  induction entries with
  | nil => rfl
  | cons entry entries ih =>
      obtain ⟨k, v⟩ := entry
      by_cases hk : k = key
      · simp [assign, hk]
      · have hne : ¬key = k := Ne.symm hk
        rw [assign, if_neg hk, List.map_cons, ih]
        by_cases hmem : key ∈ entries.map Prod.fst
        · rw [if_pos hmem, List.map_cons, if_pos (List.mem_cons_of_mem _ hmem)]
        · rw [if_neg hmem, List.map_cons, if_neg (by simpa [hne] using hmem), List.cons_append]

theorem nodup_keys_assign (hkeys : (entries.map Prod.fst).Nodup) :
    ((assign key value entries).map Prod.fst).Nodup := by
  rw [keys_assign]
  split
  · exact hkeys
  · rename_i hnot
    exact List.nodup_append.mpr ⟨hkeys, List.nodup_singleton key, by
      rintro a ha b hb rfl
      exact hnot (List.mem_singleton.mp hb ▸ ha)⟩

theorem mem_assign {entry : String × Value} (h : entry ∈ assign key value entries) :
    entry = (key, value) ∨ entry ∈ entries := by
  induction entries with
  | nil => exact .inl (List.mem_singleton.mp h)
  | cons head entries ih =>
      obtain ⟨k, v⟩ := head
      rw [assign] at h
      split at h
      · rename_i hk
        rcases List.mem_cons.mp h with rfl | h
        · exact .inl (by rw [hk])
        · exact .inr (List.mem_cons_of_mem _ h)
      · rcases List.mem_cons.mp h with rfl | h
        · exact .inr List.mem_cons_self
        · exact (ih h).imp_right (List.mem_cons_of_mem _)

theorem Tidy.nodup_keys (h : (Value.dict entries).Tidy) : (entries.map Prod.fst).Nodup := by
  cases h with
  | dict hkeys _ => exact hkeys

theorem Tidy.values (h : (Value.dict entries).Tidy) : ∀ entry ∈ entries, entry.2.Tidy := by
  cases h with
  | dict _ hvalues => exact hvalues

theorem Tidy.empty : (Value.dict []).Tidy := .dict List.nodup_nil (by simp)

theorem Tidy.items {items : List Value} (h : (Value.list items).Tidy) :
    ∀ item ∈ items, item.Tidy := by
  cases h with
  | list hitems => exact hitems

theorem Tidy.assign (h : (Value.dict entries).Tidy) (hvalue : value.Tidy) :
    (Value.dict (Value.assign key value entries)).Tidy := by
  refine .dict (nodup_keys_assign h.nodup_keys) fun entry hentry ↦ ?_
  rcases mem_assign hentry with rfl | hentry
  · exact hvalue
  · exact h.values entry hentry

theorem Tidy.of_lookup (h : (Value.dict entries).Tidy) (hk : lookup k entries = some v) :
    v.Tidy :=
  h.values _ (mem_of_lookup hk)

theorem Tidy.of_get? {u : Value} (h : u.Tidy) (hk : u.get? k = some v) : v.Tidy := by
  cases u with
  | dict entries => exact h.of_lookup hk
  | _ => cases hk

end

/-! ## Two layers -/

theorem merge_of_not_isDict {upper : Value} (h : upper.isDict = false) (base : Value) :
    base.merge upper = upper := by
  cases upper with
  | dict _ => cases h
  | _ => rw [merge]

theorem isDict_merge (base upper : Value) : (base.merge upper).isDict = upper.isDict := by
  cases upper with
  | dict _ => cases base <;> rfl
  | _ => rw [merge_of_not_isDict rfl]

/-- What an upper layer makes of the value below it, where either may be missing. -/
def overlay : (lower upper : Option Value) → Option Value
  | lower, none => lower
  | none, some v => some v
  | some base, some v => some (base.merge v)

@[simp] theorem overlay_none_left (upper : Option Value) : overlay none upper = upper := by
  cases upper <;> rfl

@[simp] theorem overlay_none_right (lower : Option Value) : overlay lower none = lower := by
  cases lower <;> rfl

theorem exists_overlay (lower : Option Value) (upper : Value) :
    ∃ v, overlay lower (some upper) = some v := by
  cases lower <;> exact ⟨_, rfl⟩

theorem overlay_of_not_isDict {upper : Value} (h : upper.isDict = false) (lower : Option Value) :
    overlay lower (some upper) = some upper := by
  cases lower with
  | none => rfl
  | some base => exact congrArg some (merge_of_not_isDict h base)

theorem isDict_of_overlay {lower : Option Value} {upper v : Value}
    (h : overlay lower (some upper) = some v) : v.isDict = upper.isDict := by
  cases lower with
  | none =>
      cases h
      rfl
  | some base =>
      cases h
      exact isDict_merge base upper

theorem exists_entries {v : Value} (h : v.isDict = true) : ∃ entries, v = .dict entries := by
  cases v with
  | dict entries => exact ⟨entries, rfl⟩
  | _ => cases h

theorem lookup_mergeEntries {upper : List (String × Value)} (hkeys : (upper.map Prod.fst).Nodup)
    (lower : List (String × Value)) (k : String) :
    lookup k (mergeEntries lower upper) = overlay (lookup k lower) (lookup k upper) := by
  induction upper generalizing lower with
  | nil => simp [mergeEntries, lookup]
  | cons entry upper ih =>
      obtain ⟨key, value⟩ := entry
      obtain ⟨hnot, hrest⟩ := List.nodup_cons.mp hkeys
      rw [mergeEntries, ih hrest, lookup_assign, lookup]
      by_cases hk : key = k
      · subst hk
        rw [if_pos rfl, if_pos rfl, lookup_eq_none_iff.mpr hnot, overlay_none_right]
        cases lookup key lower <;> rfl
      · rw [if_neg hk, if_neg hk]

theorem get?_merge {upper : Value} (htidy : upper.Tidy) (hdict : upper.isDict = true)
    (base : Value) (k : String) :
    (base.merge upper).get? k = overlay (base.get? k) (upper.get? k) := by
  cases upper with
  | dict upper =>
      cases base with
      | dict lower => exact lookup_mergeEntries htidy.nodup_keys lower k
      | _ => exact (overlay_none_left _).symm
  | _ => cases hdict

theorem get?_overlay {upper : Value} (htidy : upper.Tidy) (hdict : upper.isDict = true)
    (lower : Option Value) (k : String) :
    (overlay lower (some upper)).bind (get? k) =
      overlay (lower.bind (get? k)) (upper.get? k) := by
  cases lower with
  | none => exact (overlay_none_left _).symm
  | some base => exact get?_merge htidy hdict base k

mutual

theorem tidy_merge {base : Value} (hbase : base.Tidy) :
    ∀ {upper : Value}, upper.Tidy → (base.merge upper).Tidy
  | .dict upper, h => by
      cases base with
      | dict lower => exact tidy_mergeEntries hbase h.values
      | _ => exact h
  | .null, h | .bool _, h | .int _, h | .float _, h | .text _, h | .list _, h => by
      rw [merge_of_not_isDict rfl]
      exact h

theorem tidy_mergeEntries {lower : List (String × Value)} (hlower : (Value.dict lower).Tidy) :
    ∀ {upper : List (String × Value)}, (∀ entry ∈ upper, entry.2.Tidy) →
      (Value.dict (mergeEntries lower upper)).Tidy
  | [], _ => hlower
  | (key, value) :: upper, h => by
      rw [mergeEntries]
      refine tidy_mergeEntries (hlower.assign ?_) fun entry hentry ↦
        h entry (List.mem_cons_of_mem _ hentry)
      have hvalue : value.Tidy := h _ List.mem_cons_self
      cases hfound : lookup key lower with
      | none => exact hvalue
      | some base => exact tidy_merge (hlower.of_lookup hfound) hvalue

end

theorem tidy_nest {v : Value} (h : v.Tidy) (path : List String) : (nest path v).Tidy := by
  induction path with
  | nil => exact h
  | cons key path ih =>
      exact .dict (List.nodup_singleton key) fun entry hentry ↦ List.mem_singleton.mp hentry ▸ ih

/-! ## A stack of layers -/

/-- The value that layers make together, the highest first. -/
def stack : List Value → Option Value
  | [] => none
  | v :: below => overlay (stack below) (some v)

theorem eq_nil_of_stack {vs : List Value} (h : stack vs = none) : vs = [] := by
  cases vs with
  | nil => rfl
  | cons v vs =>
      obtain ⟨w, hw⟩ := exists_overlay (stack vs) v
      exact absurd (h.symm.trans hw) (by simp)

theorem isDict_of_stack {vs : List Value} (hdict : ∀ v ∈ vs, v.isDict = true) {w : Value}
    (h : stack vs = some w) : w.isDict = true := by
  cases vs with
  | nil => cases h
  | cons v vs => exact (isDict_of_overlay h).trans (hdict v List.mem_cons_self)

/-- A stack has at a key what its layers have there, as far down as they are dictionaries. -/
theorem get?_stack {vs : List Value} (htidy : ∀ v ∈ vs, v.Tidy) (k : String) :
    (stack vs).bind (get? k) = stack ((vs.takeWhile isDict).filterMap (get? k)) := by
  induction vs with
  | nil => rfl
  | cons v vs ih =>
      have hrest := ih fun u hu ↦ htidy u (List.mem_cons_of_mem v hu)
      cases hdict : v.isDict with
      | false =>
          -- it replaces all that is below it, and has no entry itself
          rw [stack, overlay_of_not_isDict hdict, List.takeWhile_cons_of_neg (by simp [hdict])]
          cases v with
          | dict _ => cases hdict
          | _ => rfl
      | true =>
          rw [stack, get?_overlay (htidy v List.mem_cons_self) hdict, hrest,
            List.takeWhile_cons_of_pos hdict]
          cases hk : v.get? k with
          | none => rw [List.filterMap_cons_none hk, overlay_none_right]
          | some w => rw [List.filterMap_cons_some hk, stack]

/-! ## The highest value -/

def isEmptyDict : Value → Bool
  | .dict [] => true
  | _ => false

/-- The highest value that is more than an empty dictionary. -/
def highest? (vs : List Value) : Option Value := vs.find? fun v ↦ !v.isEmptyDict

/-- No dictionary, or one that binds its only key to null. -/
def IsLeaf (v : Value) : Prop := ∀ entries, v = .dict entries → ∃ key, entries = [(key, .null)]

theorem eq_null_of_merge {base v : Value} (h : base.merge v = .null) : v = .null := by
  have hdict := isDict_merge base v
  rw [h] at hdict
  rw [← merge_of_not_isDict hdict.symm base, h]

/-- A dictionary with one key, bound to null, is not made of a larger or a smaller one. -/
theorem eq_of_mergeEntries {key : String} {lower upper : List (String × Value)}
    (hkeys : (upper.map Prod.fst).Nodup) (hne : upper ≠ [])
    (h : mergeEntries lower upper = [(key, .null)]) : upper = [(key, .null)] := by
  have hlook : ∀ {k v}, (k, v) ∈ upper → k = key ∧ v = .null := by
    intro k v hmem
    have hmerged := lookup_mergeEntries hkeys lower k
    rw [h, lookup_of_mem hkeys hmem, lookup] at hmerged
    split at hmerged
    · rename_i hk
      refine ⟨hk.symm, ?_⟩
      cases hlower : lookup k lower with
      | none =>
          rw [hlower] at hmerged
          exact (Option.some.inj hmerged).symm
      | some base =>
          rw [hlower] at hmerged
          exact eq_null_of_merge (Option.some.inj hmerged).symm
    · cases hlower : lookup k lower <;> rw [hlower] at hmerged <;> cases hmerged
  obtain ⟨⟨k, v⟩, rest, rfl⟩ := List.exists_cons_of_ne_nil hne
  obtain ⟨rfl, rfl⟩ := hlook List.mem_cons_self
  cases rest with
  | nil => rfl
  | cons entry rest =>
      obtain ⟨rfl, -⟩ := hlook (List.mem_cons_of_mem _ (List.mem_cons_self : entry ∈ entry :: rest))
      exact absurd List.mem_cons_self (List.nodup_cons.mp hkeys).1

/-- A leaf at the end of a path is the highest value there. -/
theorem highest?_of_stack {vs : List Value} (htidy : ∀ v ∈ vs, v.Tidy) {w : Value}
    (h : stack vs = some w) (hleaf : w.IsLeaf) : highest? vs = some w := by
  induction vs with
  | nil => cases h
  | cons v vs ih =>
      have hrest := ih fun u hu ↦ htidy u (List.mem_cons_of_mem v hu)
      cases v with
      | dict upper =>
          rw [stack] at h
          cases upper with
          | nil =>
              -- an empty dictionary adds nothing to one below it, and is no leaf on anything else
              rw [highest?, List.find?_cons_of_neg (by simp [isEmptyDict])]
              cases hbelow : stack vs with
              | none =>
                  rw [hbelow] at h
                  cases h
                  obtain ⟨_, hnil⟩ := hleaf [] rfl
                  cases hnil
              | some base =>
                  rw [hbelow] at h
                  cases base with
                  | dict lower =>
                      refine hrest (hbelow.trans ?_)
                      exact h
                  | _ =>
                      cases h
                      obtain ⟨_, hnil⟩ := hleaf [] rfl
                      cases hnil
          | cons entry upper =>
              rw [highest?, List.find?_cons_of_pos (by simp [isEmptyDict])]
              cases hbelow : stack vs with
              | none => rwa [hbelow] at h
              | some base =>
                  rw [hbelow] at h
                  cases base with
                  | dict lower =>
                      obtain ⟨key, hkey⟩ := hleaf _ (Option.some.inj h).symm
                      have hkeys := (htidy _ List.mem_cons_self).nodup_keys
                      rw [eq_of_mergeEntries hkeys (List.cons_ne_nil _ _) hkey, ← hkey]
                      exact h
                  | _ => exact h
      | _ =>
          rw [stack, overlay_of_not_isDict rfl] at h
          rw [highest?, List.find?_cons_of_pos (by simp [isEmptyDict])]
          exact h

end MacScheduler.Value
