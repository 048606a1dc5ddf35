import MacScheduler.Config.Codec
import MacScheduler.Proofs.Document.Merge

/-!
# Sections as lists of leaves

A section is written field by field and read field by field, so it is known by the
table of its fields: their names, and how each is read, written and taken from the
section.  What holds of every table holds of every section.
-/

namespace MacScheduler

open Value

/-- A field of a section.  No dictionary is written for it, and the only one that is read
binds a name to null. -/
structure Leaf (σ : Type) where
  Kind : Type
  name : String
  read : Value → Option Kind
  write : Kind → Value
  get : σ → Kind
  isLeaf_of_read : ∀ {v : Value} {x : Kind}, read v = some x → v.IsLeaf
  isDict_write : ∀ x, (write x).isDict = false
  tidy_write : ∀ x, (write x).Tidy

namespace Leaf

variable {σ : Type}

def count (most : Nat) (name : String) (get : σ → Nat) : Leaf σ where
  Kind := Nat
  name := name
  read := nat? most
  write := ofNat
  get := get
  isLeaf_of_read := by
    rintro v x h entries rfl
    cases h
  isDict_write := fun _ ↦ rfl
  tidy_write := fun n ↦ .int n

def word (name : String) (get : σ → Nat) : Leaf σ := count maxCount name get

def optional (most : Nat) (name : String) (get : σ → Option Nat) : Leaf σ where
  Kind := Option Nat
  name := name
  read := option? (nat? most)
  write := ofOption
  get := get
  isLeaf_of_read := by
    rintro v x h entries rfl
    cases h
  isDict_write := fun x ↦ by cases x <;> rfl
  tidy_write := fun x ↦ by
    cases x with
    | none => exact .null
    | some n => exact .int n

def words (name : String) (get : σ → List Nat) : Leaf σ where
  Kind := List Nat
  name := name
  read := list? word?
  write := ofNats
  get := get
  isLeaf_of_read := by
    rintro v x h entries rfl
    cases h
  isDict_write := fun _ ↦ rfl
  tidy_write := fun ns ↦ .list fun item hitem ↦ by
    obtain ⟨n, -, rfl⟩ := List.mem_map.mp hitem
    exact .int n

def flag (name : String) (get : σ → Bool) : Leaf σ where
  Kind := Bool
  name := name
  read := bool?
  write := .bool
  get := get
  isLeaf_of_read := by
    rintro v x h entries rfl
    cases h
  isDict_write := fun _ ↦ rfl
  tidy_write := .bool

def number (name : String) (get : σ → Float) : Leaf σ where
  Kind := Float
  name := name
  read := float?
  write := .float
  get := get
  isLeaf_of_read := by
    rintro v x h entries rfl
    cases h
  isDict_write := fun _ ↦ rfl
  tidy_write := .float

def policy (name : String) (get : σ → PolicyKind) : Leaf σ where
  Kind := PolicyKind
  name := name
  read := PolicyKind.ofValue?
  write := fun k ↦ .text k.name
  get := get
  isLeaf_of_read := by
    rintro v x h entries rfl
    unfold PolicyKind.ofValue? at h
    split at h
    · rename_i heq
      cases heq
    · rename_i key heq
      cases heq
      exact ⟨key, rfl⟩
    · cases h
  isDict_write := fun _ ↦ rfl
  tidy_write := fun k ↦ .text k.name

/-- The field is read from the entries, or is that of `base` where they lack it. -/
def Reads (leaf : Leaf σ) (entries : List (String × Value)) (base x : σ) : Prop :=
  field? leaf.read (leaf.get base) leaf.name entries = some (leaf.get x)

/-- What the section has in the field is read as it was written. -/
def Exact (leaf : Leaf σ) (x : σ) : Prop :=
  leaf.read (leaf.write (leaf.get x)) = some (leaf.get x)

end Leaf

def namesOf {σ : Type} (leaves : List (Leaf σ)) : List String := leaves.map Leaf.name

def entriesOf {σ : Type} (leaves : List (Leaf σ)) (x : σ) : List (String × Value) :=
  leaves.map fun leaf ↦ (leaf.name, leaf.write (leaf.get x))

/-- A section with the table of its fields; `base` has the defaults. -/
structure Table (σ : Type) where
  leaves : List (Leaf σ)
  base : σ
  toValue : σ → Value
  ofValue? : Arity → Value → Option σ
  nodup_names : (namesOf leaves).Nodup
  toValue_eq : ∀ x, toValue x = .dict (entriesOf leaves x)
  ofValue?_eq_some_iff : ∀ {arity v x}, ofValue? arity v = some x ↔
    ∃ entries, v.section? arity (namesOf leaves) = some entries ∧
      ∀ leaf ∈ leaves, leaf.Reads entries base x

namespace Table

variable {σ : Type} (t : Table σ)

theorem keys_entriesOf (leaves : List (Leaf σ)) (x : σ) :
    (entriesOf leaves x).map Prod.fst = namesOf leaves := by
  simp [entriesOf, namesOf]

theorem nodup_keys (x : σ) : ((entriesOf t.leaves x).map Prod.fst).Nodup :=
  keys_entriesOf t.leaves x ▸ t.nodup_names

theorem tidy_toValue (x : σ) : (t.toValue x).Tidy := by
  rw [t.toValue_eq]
  refine .dict (t.nodup_keys x) fun entry hentry ↦ ?_
  obtain ⟨leaf, -, rfl⟩ := List.mem_map.mp hentry
  exact leaf.tidy_write _

theorem isDict_toValue (x : σ) : (t.toValue x).isDict = true := by
  rw [t.toValue_eq]
  rfl

theorem get?_toValue (x : σ) {leaf : Leaf σ} (hleaf : leaf ∈ t.leaves) :
    (t.toValue x).get? leaf.name = some (leaf.write (leaf.get x)) := by
  rw [t.toValue_eq]
  exact lookup_of_mem (t.nodup_keys x) (List.mem_map_of_mem hleaf)

/-- A section that is written on top of any layer is read back. -/
theorem ofValue?_of_overlay {x : σ} (hexact : ∀ leaf ∈ t.leaves, leaf.Exact x) (arity : Arity)
    {lower : Option Value} {v : Value} (hv : overlay lower (some (t.toValue x)) = some v) :
    t.ofValue? arity v = some x := by
  obtain ⟨entries, rfl⟩ := exists_entries ((isDict_of_overlay hv).trans (t.isDict_toValue x))
  refine t.ofValue?_eq_some_iff.mpr ⟨entries, rfl, fun leaf hleaf ↦ ?_⟩
  have hget := get?_overlay (t.tidy_toValue x) (t.isDict_toValue x) lower leaf.name
  rw [hv, t.get?_toValue x hleaf, overlay_of_not_isDict (leaf.isDict_write _)] at hget
  have hlookup : lookup leaf.name entries = some (leaf.write (leaf.get x)) := hget
  rw [Leaf.Reads, field?, hlookup]
  exact hexact leaf hleaf

theorem ofValue?_toValue {x : σ} (hexact : ∀ leaf ∈ t.leaves, leaf.Exact x) (arity : Arity) :
    t.ofValue? arity (t.toValue x) = some x :=
  t.ofValue?_of_overlay hexact arity (overlay_none_left _)

theorem field?_of_overlay {x : σ} (hexact : ∀ leaf ∈ t.leaves, leaf.Exact x) (arity : Arity)
    {lower : Option Value} {name : String} {entries : List (String × Value)}
    (hlookup : lookup name entries = overlay lower (some (t.toValue x))) (default : σ) :
    field? (t.ofValue? arity) default name entries = some x := by
  obtain ⟨v, hv⟩ := exists_overlay lower (t.toValue x)
  rw [field?, hlookup, hv]
  exact t.ofValue?_of_overlay hexact arity hv

end Table

namespace CellConfig

def leaves : List (Leaf CellConfig) :=
  [.word "nof_prb" (·.nofPrb), .word "cfi" (·.cfi), .optional maxCount "nof_cce" (·.nofCce),
    .word "nrb_pucch" (·.nrbPucch), .word "max_mcs_dl" (·.maxMcsDl),
    .word "max_mcs_ul" (·.maxMcsUl), .word "delta_pucch_shift" (·.deltaPucchShift),
    .flag "extended_cp" (·.extendedCp), .word "ncs_an" (·.ncsAn)]

theorem ofValue?_eq_some_iff {arity : Arity} {v : Value} {c : CellConfig} :
    ofValue? arity v = some c ↔ ∃ entries, v.section? arity (namesOf leaves) = some entries ∧
      ∀ leaf ∈ leaves, leaf.Reads entries {} c := by
  cases c
  simp [ofValue?, Option.bind_eq_some_iff, leaves, namesOf, Leaf.Reads, Leaf.word, Leaf.count,
    Leaf.optional, Leaf.flag, word?, -Bool.exists_bool]

def table : Table CellConfig where
  leaves := leaves
  base := {}
  toValue := toValue
  ofValue? := ofValue?
  nodup_names := by decide
  toValue_eq := fun _ ↦ rfl
  ofValue?_eq_some_iff := ofValue?_eq_some_iff

end CellConfig

namespace HarqConfig

def leaves : List (Leaf HarqConfig) :=
  [.word "round_trip_delay" (·.roundTrip), .word "max_retx" (·.maxRetx)]

theorem ofValue?_eq_some_iff {arity : Arity} {v : Value} {h : HarqConfig} :
    ofValue? arity v = some h ↔ ∃ entries, v.section? arity (namesOf leaves) = some entries ∧
      ∀ leaf ∈ leaves, leaf.Reads entries {} h := by
  cases h
  simp [ofValue?, Option.bind_eq_some_iff, leaves, namesOf, Leaf.Reads, Leaf.word, Leaf.count,
    word?]

def table : Table HarqConfig where
  leaves := leaves
  base := {}
  toValue := toValue
  ofValue? := ofValue?
  nodup_names := by decide
  toValue_eq := fun _ ↦ rfl
  ofValue?_eq_some_iff := ofValue?_eq_some_iff

end HarqConfig

namespace PucchConfig

def leaves : List (Leaf PucchConfig) :=
  [.word "sr_nof_prb" (·.sr.nofPrb), .word "sr_nof_subframes" (·.sr.nofSubframes),
    .words "sr_sf_mapping" (·.sr.offsets), .word "sr_period" (·.sr.period),
    .word "cqi_nof_prb" (·.cqi.nofPrb), .word "cqi_nof_subframes" (·.cqi.nofSubframes),
    .words "cqi_sf_mapping" (·.cqi.offsets), .word "cqi_period" (·.cqi.period)]

theorem ofValue?_eq_some_iff {arity : Arity} {v : Value} {p : PucchConfig} :
    ofValue? arity v = some p ↔ ∃ entries, v.section? arity (namesOf leaves) = some entries ∧
      ∀ leaf ∈ leaves, leaf.Reads entries {} p := by
  obtain ⟨⟨_, _, _, _⟩, ⟨_, _, _, _⟩⟩ := p
  simp [ofValue?, Option.bind_eq_some_iff, leaves, namesOf, Leaf.Reads, Leaf.word, Leaf.count,
    Leaf.words, word?, and_assoc]

def table : Table PucchConfig where
  leaves := leaves
  base := {}
  toValue := toValue
  ofValue? := ofValue?
  nodup_names := by decide
  toValue_eq := fun _ ↦ rfl
  ofValue?_eq_some_iff := ofValue?_eq_some_iff

end PucchConfig

namespace PolicyConfig

def leaves : List (Leaf PolicyConfig) :=
  [.policy "kind" (·.kind), .number "pf_ewma_coeff" (·.weight)]

theorem ofValue?_eq_some_iff {arity : Arity} {v : Value} {p : PolicyConfig} :
    ofValue? arity v = some p ↔ ∃ entries, v.section? arity (namesOf leaves) = some entries ∧
      ∀ leaf ∈ leaves, leaf.Reads entries {} p := by
  cases p
  simp [ofValue?, Option.bind_eq_some_iff, leaves, namesOf, Leaf.Reads, Leaf.policy, Leaf.number]

def table : Table PolicyConfig where
  leaves := leaves
  base := {}
  toValue := toValue
  ofValue? := ofValue?
  nodup_names := by decide
  toValue_eq := fun _ ↦ rfl
  ofValue?_eq_some_iff := ofValue?_eq_some_iff

end PolicyConfig

namespace TimingConfig

def leaves : List (Leaf TimingConfig) :=
  [.optional 0xFFFFFFFFFFFFFFFF "tti_deadline_us" (·.deadline),
    .word "cqi_staleness_ttis" (·.staleness), .word "fallback_mcs" (·.fallbackMcs)]

theorem ofValue?_eq_some_iff {arity : Arity} {v : Value} {t : TimingConfig} :
    ofValue? arity v = some t ↔ ∃ entries, v.section? arity (namesOf leaves) = some entries ∧
      ∀ leaf ∈ leaves, leaf.Reads entries {} t := by
  cases t
  simp [ofValue?, Option.bind_eq_some_iff, leaves, namesOf, Leaf.Reads, Leaf.word, Leaf.count,
    Leaf.optional, word?]

def table : Table TimingConfig where
  leaves := leaves
  base := {}
  toValue := toValue
  ofValue? := ofValue?
  nodup_names := by decide
  toValue_eq := fun _ ↦ rfl
  ofValue?_eq_some_iff := ofValue?_eq_some_iff

end TimingConfig

end MacScheduler
