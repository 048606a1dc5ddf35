import Mathlib.Data.List.Induction
import Mathlib.Data.List.TakeWhile
import MacScheduler.Proofs.Config.RoundTrip
import MacScheduler.Proofs.Document.Tidy

/-!
# The layer that decides a field

A field of a section is what the highest layer that states it says, and its default
where none does.  A list that stands for a section states all of it: it hides the
layers below, and a dictionary above hides it.  The carriers are those of the highest
layer that lists any.
-/

namespace MacScheduler

namespace Value

/-- What layers have at a key, in their order. -/
def valuesAt (key : String) (layers : List Value) : List Value := layers.filterMap (get? key)

/-- What the values given for a section, the highest first, say about one of its fields. -/
def given? (names : List String) (field : String) : List Value → Option Value
  | .list items :: _ => lookup field (names.zip items)
  | values => highest? (valuesAt field (values.takeWhile isDict))

theorem at?_pair (owner field : String) (v : Value) :
    at? [owner, field] v = (v.get? owner).bind (get? field) := by
  rw [at?_cons]
  congr
  funext u
  rw [at?_cons]
  cases u.get? field <;> rfl

variable {names : List String} {field : String} {values : List Value}

theorem given?_of_not_list (names : List String) (field : String)
    (h : ∀ items rest, values ≠ .list items :: rest) :
    given? names field values = highest? (valuesAt field (values.takeWhile isDict)) := by
  unfold given?
  split
  · exact absurd rfl (h _ _)
  · rfl

theorem highest?_append (vs ws : List Value) :
    highest? (vs ++ ws) = (highest? vs).or (highest? ws) :=
  List.find?_append

theorem highest?_singleton {v : Value} (h : v.isDict = false) : highest? [v] = some v := by
  cases v with
  | dict _ => cases h
  | _ => rfl

theorem takeWhile_isDict_append (values : List Value) {base : Value} (hbase : base.isDict = true) :
    (values ++ [base]).takeWhile isDict = values.takeWhile isDict ∨
      (values ++ [base]).takeWhile isDict = values.takeWhile isDict ++ [base] := by
  rw [List.takeWhile_append]
  split
  · rename_i hall
    have htake := (List.takeWhile_prefix isDict (l := values)).eq_of_length hall
    rw [htake, List.takeWhile_cons_of_pos hbase, List.takeWhile_nil]
    exact .inr rfl
  · exact .inl rfl

/-- A dictionary below the others counts where they say nothing. -/
theorem given?_append {base w : Value} (hbase : base.isDict = true)
    (hw : base.get? field = some w) (hleaf : w.isDict = false) :
    given? names field (values ++ [base]) = given? names field values ∨
      given? names field values = none ∧ given? names field (values ++ [base]) = some w := by
  by_cases hlist : ∃ items rest, values = .list items :: rest
  · obtain ⟨items, rest, rfl⟩ := hlist
    exact .inl rfl
  have hlist' : ∀ items rest, values ++ [base] ≠ .list items :: rest := by
    intro items rest heq
    cases values with
    | nil =>
        cases heq
        cases hbase
    | cons v values =>
        cases heq
        exact hlist ⟨_, _, rfl⟩
  rw [given?_of_not_list names field hlist', given?_of_not_list names field fun items rest heq ↦
    hlist ⟨items, rest, heq⟩]
  rcases takeWhile_isDict_append values hbase with heq | heq
  · exact .inl (by rw [heq])
  · -- only dictionaries are above, so the lowest one is looked at too, after all of them
    have hbelow : valuesAt field [base] = [w] := by
      rw [valuesAt, List.filterMap_cons_some hw, List.filterMap_nil]
    have hsplit : valuesAt field (values.takeWhile isDict ++ [base]) =
        valuesAt field (values.takeWhile isDict) ++ [w] := by
      rw [← hbelow]
      exact List.filterMap_append
    rw [heq, hsplit, highest?_append, highest?_singleton hleaf]
    cases highest? (valuesAt field (values.takeWhile isDict)) with
    | none => exact .inr ⟨rfl, rfl⟩
    | some v => exact .inl rfl

end Value

open Value

/-! ## Sections -/

namespace Table

variable {σ : Type} (t : Table σ) {values : List Value} {x : σ}

/-- Each field of the section is what the values given for the section, the highest first,
say about it, or else its default. -/
def Settles (values : List Value) (x : σ) : Prop :=
  ∀ leaf ∈ t.leaves,
    (given? (namesOf t.leaves) leaf.name values).elim (some (leaf.get t.base)) leaf.read =
      some (leaf.get x)

/-- What is read of a field is read of the highest value that the stack has there. -/
theorem read_highest? {vs : List Value} (htidy : ∀ v ∈ vs, v.Tidy) {leaf : Leaf σ}
    {default y : leaf.Kind} (h : (stack vs).elim (some default) leaf.read = some y) :
    (highest? vs).elim (some default) leaf.read = some y := by
  cases hstack : stack vs with
  | none =>
      obtain rfl := eq_nil_of_stack hstack
      exact h
  | some w =>
      rw [hstack] at h
      rwa [highest?_of_stack htidy hstack (leaf.isLeaf_of_read h)]

theorem settles_of_stack (htidy : ∀ v ∈ values, v.Tidy) {v : Value}
    (hstack : stack values = some v) (hread : t.ofValue? .lenient v = some x) :
    t.Settles values x := by
  intro leaf hleaf
  obtain ⟨entries, hentries, hreads⟩ := t.ofValue?_eq_some_iff.mp hread
  have hfield : (lookup leaf.name entries).elim (some (leaf.get t.base)) leaf.read =
      some (leaf.get x) := by
    rw [← hreads leaf hleaf, field?]
    cases lookup leaf.name entries <;> rfl
  cases values with
  | nil => cases hstack
  | cons u values =>
      have hdict := isDict_of_overlay hstack
      cases u with
      | dict upper =>
          obtain ⟨es, rfl⟩ := exists_entries hdict
          cases hentries
          have hget : lookup leaf.name entries = _ := hstack ▸ get?_stack htidy leaf.name
          rw [hget] at hfield
          rw [given?_of_not_list _ _ (by simp)]
          refine read_highest? (fun w hw ↦ ?_) hfield
          obtain ⟨u, hu, hw⟩ := List.mem_filterMap.mp hw
          exact (htidy u ((List.takeWhile_sublist _).subset hu)).of_get? hw
      | list items =>
          -- the entries that are read are the items under the names of the fields
          rw [stack, overlay_of_not_isDict rfl] at hstack
          cases hstack
          cases hentries
          exact hfield
      | _ =>
          rw [stack, overlay_of_not_isDict rfl] at hstack
          cases hstack
          cases hentries

/-- The defaults below the given values only give what is given otherwise too. -/
theorem settles_of_append (hexact : ∀ leaf ∈ t.leaves, leaf.Exact t.base)
    (h : t.Settles (values ++ [t.toValue t.base]) x) : t.Settles values x := by
  intro leaf hleaf
  have hall := h leaf hleaf
  rcases given?_append (t.isDict_toValue t.base) (t.get?_toValue t.base hleaf)
      (leaf.isDict_write _) with heq | ⟨hnone, hbase⟩
  · rwa [heq] at hall
  · rw [hbase] at hall
    rw [hnone]
    exact (hexact leaf hleaf).symm.trans hall

/-- A section of a document is settled by what the layers say about it, the defaults last. -/
theorem settles_of_field? (hexact : ∀ leaf ∈ t.leaves, leaf.Exact t.base)
    (htidy : ∀ v ∈ values, v.Tidy) {name : String} {entries : List (String × Value)}
    (hlookup : lookup name entries = stack (values ++ [t.toValue t.base])) {default : σ}
    (hread : field? (t.ofValue? .lenient) default name entries = some x) :
    t.Settles values x := by
  rw [field?, hlookup] at hread
  have htidy' : ∀ v ∈ values ++ [t.toValue t.base], v.Tidy :=
    List.forall_mem_append.mpr ⟨htidy, List.forall_mem_singleton.mpr (t.tidy_toValue _)⟩
  refine t.settles_of_append hexact ?_
  cases hstack : stack (values ++ [t.toValue t.base]) with
  | none => exact absurd (eq_nil_of_stack hstack) (by simp)
  | some v =>
      rw [hstack] at hread
      exact t.settles_of_stack htidy' hstack hread

end Table

/-- The carriers are those of the highest value, each with the fields that its item states and
the defaults of the others. -/
def CellsOf : (values : List Value) → (cells : List CellConfig) → Prop
  | [], cells => cells = [{}]
  | v :: _, cells => ∃ items, v = .list items ∧
      List.Forall₂ (fun item cell ↦ CellConfig.table.Settles [item] cell) items cells

theorem forall₂_of_mapM {α : Type} {R : Value → α → Prop} {read : Value → Option α}
    {items : List Value} {xs : List α} (h : items.mapM read = some xs)
    (hread : ∀ item ∈ items, ∀ x, read item = some x → R item x) : List.Forall₂ R items xs := by
  induction items generalizing xs with
  | nil =>
      cases h
      exact .nil
  | cons item items ih =>
      simp only [List.mapM_cons, Option.bind_eq_bind, Option.bind_eq_some_iff] at h
      obtain ⟨x, hx, rest, hrest, heq⟩ := h
      cases heq
      exact .cons (hread item List.mem_cons_self x hx)
        (ih hrest fun other hother ↦ hread other (List.mem_cons_of_mem item hother))

theorem CellConfig.fits_default : ({} : CellConfig).Fits := by constructor <;> decide

theorem Config.fits_default : ({} : Config).Fits where
  cells := by simpa using CellConfig.fits_default
  harq := by constructor <;> decide
  pucch := by constructor <;> constructor <;> decide
  timing := by constructor <;> decide

theorem cellsOf_of_stack {values : List Value} (htidy : ∀ v ∈ values, v.Tidy) {v : Value}
    (hstack : stack (values ++ [.list [({} : CellConfig).toValue]]) = some v)
    {cells : List CellConfig} (hread : list? (CellConfig.ofValue? .lenient) v = some cells) :
    CellsOf values cells := by
  cases values with
  | nil =>
      cases hstack
      have hdefault : ∀ cell ∈ [({} : CellConfig)],
          CellConfig.ofValue? .lenient cell.toValue = some cell :=
        List.forall_mem_singleton.mpr
          (CellConfig.table.ofValue?_toValue CellConfig.fits_default.exact .lenient)
      exact Option.some.inj (hread.symm.trans (mapM_of_forall hdefault))
  | cons u values =>
      cases v with
      | list items =>
          rw [List.cons_append, stack, overlay_of_not_isDict (isDict_of_overlay hstack).symm]
            at hstack
          cases hstack
          refine ⟨items, rfl, forall₂_of_mapM hread fun item hitem cell hcell ↦ ?_⟩
          have hitem := (htidy _ List.mem_cons_self).items item hitem
          exact CellConfig.table.settles_of_stack (List.forall_mem_singleton.mpr hitem) rfl hcell
      | _ => cases hread

/-! ## Readers and layers -/

/-- What is relied on of the readers: no dictionary binds a key twice, and a file is one. -/
structure Readers.Lawful (readers : Readers) : Prop where
  toml : ∀ {s v}, readers.toml s = some v → v.Tidy ∧ v.isDict = true
  json : ∀ {s v}, readers.json s = some v → v.Tidy
  env : ∀ s, (readers.env s).Tidy

theorem Readers.lawful_standard : Readers.standard.Lawful where
  toml := fun h ↦ ⟨Toml.tidy_read? h, Toml.isDict_read? h⟩
  json := Json.tidy_read?
  env := fun s ↦ (EnvText.plain_read s).tidy

theorem Readers.isDict_env_standard (s : String) : (Readers.standard.env s).isDict = false :=
  (EnvText.plain_read s).isDict

namespace Config

variable {readers : Readers} {env : List (String × String)}

theorem exists_of_envPath? {name : String} {path : List String} (h : envPath? name = some path) :
    ∃ owner rest, path = owner :: rest := by
  obtain ⟨owner, -, howner⟩ := List.exists_of_findSome?_eq_some h
  split at howner
  · cases howner
    exact ⟨_, _, rfl⟩
  · cases howner

theorem envLayer_concat (readers : Readers) (env : List (String × String)) (x : String × String) :
    envLayer readers (env ++ [x]) =
      match envPath? x.1 with
      | some path => (envLayer readers env).merge (nest path (readers.env x.2))
      | none => envLayer readers env :=
  List.foldl_append

theorem tidy_envLayer (hr : readers.Lawful) (env : List (String × String)) :
    (envLayer readers env).Tidy ∧ (envLayer readers env).isDict = true := by
  induction env using List.reverseRecOn with
  | nil => exact ⟨.empty, rfl⟩
  | append_singleton env x ih =>
      rw [envLayer_concat]
      cases hpath : envPath? x.1 with
      | none => exact ih
      | some path =>
          obtain ⟨owner, rest, rfl⟩ := exists_of_envPath? hpath
          exact ⟨tidy_merge ih.1 (tidy_nest (hr.env x.2) _), isDict_merge _ _⟩

/-! ## Variables -/

/-- A variable that sets one field of a section, if anything, and not to a dictionary. -/
def SetsField (readers : Readers) (x : String × String) : Prop :=
  ∀ path, envPath? x.1 = some path → path.length = 2 ∧ (readers.env x.2).isDict = false

theorem at?_merge_nest {base v : Value} (htidy : v.Tidy) (hleaf : v.isDict = false)
    (owner field owner' field' : String) :
    at? [owner, field] (base.merge (nest [owner', field'] v)) =
      if owner' = owner ∧ field' = field then some v else at? [owner, field] base := by
  rw [at?_pair, at?_pair, get?_merge (tidy_nest htidy _) rfl]
  by_cases howner : owner' = owner
  · subst howner
    have hfield : (nest [owner', field'] v).get? owner' = some (nest [field'] v) := if_pos rfl
    rw [hfield, get?_overlay (tidy_nest htidy _) rfl]
    by_cases hf : field' = field
    · subst hf
      have hv : (nest [field'] v).get? field' = some v := if_pos rfl
      rw [hv, overlay_of_not_isDict hleaf, if_pos ⟨rfl, rfl⟩]
    · have hv : (nest [field'] v).get? field = none := if_neg hf
      rw [hv, overlay_none_right, if_neg (fun h ↦ hf h.2)]
  · have hfield : (nest [owner', field'] v).get? owner = none := if_neg howner
    rw [hfield, overlay_none_right, if_neg (fun h ↦ howner h.1)]

/-- Where variables set single fields, a field has the reading of the last one that names it. -/
theorem at?_envLayer (hr : readers.Lawful) (henv : ∀ x ∈ env, SetsField readers x)
    (owner field : String) :
    at? [owner, field] (envLayer readers env) =
      ((env.filter fun x ↦ envPath? x.1 = some [owner, field]).getLast?).map
        fun x ↦ readers.env x.2 := by
  induction env using List.reverseRecOn with
  | nil => rfl
  | append_singleton env x ih =>
      have hrest := ih fun y hy ↦ henv y (List.mem_append_left _ hy)
      rw [envLayer_concat, List.filter_append]
      cases hpath : envPath? x.1 with
      | none => simpa [hpath] using hrest
      | some path =>
          obtain ⟨hlength, hleaf⟩ := henv x (by simp) path hpath
          obtain ⟨owner', field', rfl⟩ := List.length_eq_two.mp hlength
          rw [at?_merge_nest (hr.env x.2) hleaf, hrest]
          by_cases hsame : owner' = owner ∧ field' = field
          · obtain ⟨rfl, rfl⟩ := hsame
            simp [hpath]
          · simp [hpath, hsame]

theorem dotParts_of_not_mem {cs : List Char} (h : '.' ∉ cs) : dotParts cs = [cs] := by
  induction cs with
  | nil => rfl
  | cons c cs ih =>
      have hc : c ≠ '.' := (List.ne_of_not_mem_cons h).symm
      rw [dotParts, if_neg hc, ih (List.not_mem_of_not_mem_cons h)]

theorem pathOf_of_not_mem {field : String} (hne : field ≠ "") (h : '.' ∉ field.toList) :
    pathOf field.toList = [field] := by
  have hcs : field.toList ≠ [] := by simpa using hne
  rw [pathOf, dotParts_of_not_mem h, List.takeWhile_cons_of_pos (by simpa using hcs)]
  simp

theorem announced_apart : ∀ owner ∈ envSections, ∀ other ∈ envSections, owner ≠ other →
    ¬announced owner <+: announced other := by
  decide

/-- A variable is named after the section and the field that it sets, in any case of letters. -/
theorem envPath?_of_name {owner field name : String} (howner : owner ∈ envSections)
    (hne : field ≠ "") (hdots : '.' ∉ field.toList)
    (hname : name.toLower.toList = announced owner ++ field.toList) :
    envPath? name = some [owner, field] := by
  obtain ⟨before, after, hsplit⟩ := List.append_of_mem howner
  unfold envPath?
  dsimp only
  rw [hname]
  refine List.findSome?_eq_some_iff.mpr ⟨before, owner, after, hsplit, ?_, fun other hother ↦ ?_⟩
  · have hpos : 0 < field.toList.length := List.length_pos_iff.mpr (by simpa using hne)
    rw [if_pos ⟨List.isPrefixOf_iff_prefix.mpr (List.prefix_append _ _), by simp; omega⟩,
      List.drop_left, pathOf_of_not_mem hne hdots]
  · -- no section before it is announced too: no announcement begins with another one
    refine if_neg fun h ↦ ?_
    have hmem : other ∈ envSections := hsplit ▸ List.mem_append_left _ hother
    have hother_ne : other ≠ owner := by
      have hnodup : (before ++ owner :: after).Nodup := hsplit ▸ (by decide : envSections.Nodup)
      rintro rfl
      exact (List.nodup_append.mp hnodup).2.2 other hother other List.mem_cons_self rfl
    have hprefix := List.isPrefixOf_iff_prefix.mp h.1
    rcases List.prefix_or_prefix_of_prefix hprefix (List.prefix_append _ _) with hsub | hsub
    · exact announced_apart other hmem owner howner hother_ne hsub
    · exact announced_apart owner howner other hmem hother_ne.symm hsub

/-! ## All layers -/

/-- Every field is what the layers, the highest first, give for it. -/
structure Follows (layers : List Value) (c : Config) : Prop where
  cells : CellsOf (valuesAt "cells" layers) c.cells
  harq : HarqConfig.table.Settles (valuesAt "harq" layers) c.harq
  pucch : PucchConfig.table.Settles (valuesAt "pucch" layers) c.pucch
  policy : PolicyConfig.table.Settles (valuesAt "policy" layers) c.policy
  timing : TimingConfig.table.Settles (valuesAt "timing" layers) c.timing

theorem follows_of_stack {layers : List Value} (htidy : ∀ v ∈ layers, v.Tidy)
    (hdict : ∀ v ∈ layers, v.isDict = true) {v : Value}
    (hstack : stack (layers ++ [({} : Config).toValue]) = some v) {c : Config}
    (hread : ofValue? .lenient v = some c) : Follows layers c := by
  have htidy' : ∀ v ∈ layers ++ [({} : Config).toValue], v.Tidy :=
    List.forall_mem_append.mpr ⟨htidy, List.forall_mem_singleton.mpr (tidy_toValue _)⟩
  have hdict' : ∀ v ∈ layers ++ [({} : Config).toValue], v.isDict = true :=
    List.forall_mem_append.mpr ⟨hdict, List.forall_mem_singleton.mpr rfl⟩
  obtain ⟨entries, hentries, ⟨w, hw, hcells⟩, hharq, hpucch, hpolicy, htiming⟩ :=
    ofValue?_eq_some_iff.mp hread
  have hlookup : ∀ {name base}, ({} : Config).toValue.get? name = some base →
      lookup name entries = stack (valuesAt name layers ++ [base]) := by
    intro name base hbase
    have hget := get?_stack htidy' name
    rw [List.takeWhile_eq_self_iff.mpr hdict', hstack, List.filterMap_append,
      List.filterMap_cons_some hbase, List.filterMap_nil] at hget
    rw [valuesAt, ← hget]
    obtain ⟨es, rfl⟩ := exists_entries (isDict_of_stack hdict' hstack)
    cases hentries
    rfl
  have htidyAt : ∀ name, ∀ v ∈ valuesAt name layers, v.Tidy := by
    intro name v hv
    obtain ⟨u, hu, hv⟩ := List.mem_filterMap.mp hv
    exact (htidy u hu).of_get? hv
  exact
    { cells := cellsOf_of_stack (htidyAt _) ((hlookup rfl).symm.trans hw) hcells
      harq := HarqConfig.table.settles_of_field? fits_default.harq.exact (htidyAt _)
        (hlookup rfl) hharq
      pucch := PucchConfig.table.settles_of_field? fits_default.pucch.exact (htidyAt _)
        (hlookup rfl) hpucch
      policy := PolicyConfig.table.settles_of_field? (PolicyConfig.exact _) (htidyAt _)
        (hlookup rfl) hpolicy
      timing := TimingConfig.table.settles_of_field? fits_default.timing.exact (htidyAt _)
        (hlookup rfl) htiming }

theorem tidy_fileLayer? (hr : readers.Lawful) {file : Option String} {t : Value}
    (h : fileLayer? readers file = some t) : t.Tidy ∧ t.isDict = true := by
  cases file with
  | none =>
      cases h
      exact ⟨.empty, rfl⟩
  | some text => exact hr.toml h

/-- What a load under a JSON text merges and reads. -/
theorem of_loadWith_json {file : Option String} {text : String} {c : Config}
    (h : loadWith readers file env (.json text) = .ok c) :
    ∃ j t v, readers.json text = some j ∧ j.isDict = true ∧ fileLayer? readers file = some t ∧
      stack [j, envLayer readers env, t, ({} : Config).toValue] = some v ∧
      ofValue? .lenient v = some c := by
  unfold loadWith at h
  split at h
  · cases h
  · rename_i v hv
    simp only [layered?, Option.bind_eq_bind, Option.bind_eq_some_iff, Override.apply?] at hv
    obtain ⟨t, ht, j, hj, hv⟩ := hv
    split at hv
    · rename_i hdict
      cases hv
      unfold extract at h
      split at h
      · cases h
      · rename_i c' hread
        cases hcheck : c'.check with
        | error e =>
            rw [hcheck] at h
            cases h
        | ok u =>
            rw [hcheck] at h
            cases h
            exact ⟨j, t, _, hj, hdict, ht, rfl, hread⟩
    · cases hv

/-- The JSON text decides a field before the environment, the environment before the file, and
the file before the defaults. -/
theorem highest_layer_decides (hr : readers.Lawful) {file : Option String} {text : String}
    {c : Config} (hload : loadWith readers file env (.json text) = .ok c) :
    ∃ j t, readers.json text = some j ∧ fileLayer? readers file = some t ∧
      Follows [j, envLayer readers env, t] c ∧
      ((∀ x ∈ env, SetsField readers x) → ∀ owner field,
        at? [owner, field] (envLayer readers env) =
          ((env.filter fun x ↦ envPath? x.1 = some [owner, field]).getLast?).map
            fun x ↦ readers.env x.2) ∧
      ∀ owner ∈ envSections, ∀ field name, field ≠ "" → '.' ∉ field.toList →
        name.toLower.toList = announced owner ++ field.toList →
        envPath? name = some [owner, field] := by
  obtain ⟨j, t, v, hj, hdict, ht, hstack, hread⟩ := of_loadWith_json hload
  have henv := tidy_envLayer hr env
  have hfile := tidy_fileLayer? hr ht
  refine ⟨j, t, hj, ht, follows_of_stack ?_ ?_ hstack hread, at?_envLayer hr,
    fun owner howner field name ↦ envPath?_of_name howner⟩
  · simpa using ⟨hr.json hj, henv.1, hfile.1⟩
  · simpa using ⟨hdict, henv.2, hfile.2⟩

def siteFile : String :=
  "[harq]\nround_trip_delay = 12\nmax_retx = 6\n\n[[cells]]\nnof_prb = 100\n"

def siteVariables : List (String × String) :=
  [("ENB_SCHED_HARQ_MAX_RETX", "2"), ("ENB_SCHED_TIMING_TTI_DEADLINE_US", "500")]

def siteOverride : String :=
  "\x7b\"timing\": \x7b\"fallback_mcs\": 3\x7d, \"cells\": [\x7b\"cfi\": 2\x7d, \x7b\x7d]\x7d"

theorem ok_of_toOption {ε α : Type} {r : Except ε α} {x : α} (h : r.toOption = some x) :
    r = .ok x := by
  cases r with
  | error e => cases h
  | ok y => exact congrArg Except.ok (Option.some.inj h)

theorem site_decided :
    ∃ c j t, load (some siteFile) siteVariables (.json siteOverride) = .ok c ∧
      Readers.standard.json siteOverride = some j ∧
      fileLayer? .standard (some siteFile) = some t ∧
      Follows [j, envLayer .standard siteVariables, t] c ∧
      at? ["harq", "max_retx"] (envLayer .standard siteVariables) =
        some (Readers.standard.env "2") ∧
      (c.harq, c.timing, c.cells) = (⟨12, 2⟩, ⟨some 500, 160, 3⟩, [{ cfi := 2 }, {}]) := by
  have hvalue : (load (some siteFile) siteVariables (.json siteOverride)).toOption.map
      (fun c ↦ (c.harq, c.timing, c.cells)) =
        some (⟨12, 2⟩, ⟨some 500, 160, 3⟩, [{ cfi := 2 }, {}]) := by decide +kernel
  obtain ⟨c, hc, hfields⟩ := Option.map_eq_some_iff.mp hvalue
  have hload := ok_of_toOption hc
  obtain ⟨j, t, hj, ht, hfollows, hvariables, hnames⟩ :=
    highest_layer_decides Readers.lawful_standard hload
  have hretx : envPath? "ENB_SCHED_HARQ_MAX_RETX" = some ["harq", "max_retx"] :=
    hnames "harq" (by decide) "max_retx" _ (by decide) (by decide) (by decide +kernel)
  have hdeadline :
      envPath? "ENB_SCHED_TIMING_TTI_DEADLINE_US" = some ["timing", "tti_deadline_us"] :=
    hnames "timing" (by decide) "tti_deadline_us" _ (by decide) (by decide) (by decide +kernel)
  have hsets : ∀ x ∈ siteVariables, SetsField .standard x := by
    simp only [siteVariables, List.forall_mem_cons, SetsField, hretx, hdeadline, Option.some.injEq]
    refine ⟨?_, ?_, List.forall_mem_nil _⟩ <;> rintro _ rfl <;>
      exact ⟨rfl, Readers.isDict_env_standard _⟩
  have hsaid := hvariables hsets "harq" "max_retx"
  simp only [siteVariables, List.filter_cons, hretx, hdeadline] at hsaid
  exact ⟨c, j, t, hload, hj, ht, hfollows, hsaid, hfields⟩

/-- A list for a whole section hides what a variable says about a field that it leaves out. -/
theorem list_section_hides_variable :
    (load none [("ENB_SCHED_HARQ_MAX_RETX", "2")]
        (.json "\x7b\"harq\": [10]\x7d")).toOption.map (·.harq) = some ⟨10, 4⟩ ∧
      ((Json.read? "\x7b\"harq\": [10]\x7d").bind (at? ["harq", "max_retx"])).isNone ∧
      (at? ["harq", "max_retx"]
        (envLayer .standard [("ENB_SCHED_HARQ_MAX_RETX", "2")])).bind word? = some 2 := by
  refine ⟨?_, ?_, ?_⟩ <;> decide +kernel

end Config

end MacScheduler
