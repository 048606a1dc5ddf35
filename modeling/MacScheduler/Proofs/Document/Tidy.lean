import MacScheduler.Document.EnvText
import MacScheduler.Document.Json
import MacScheduler.Document.Toml
import MacScheduler.Proofs.Document.Merge

/-!
# Readers bind every key once

A text may repeat a key, but what is read from it does not: the last value counts, or
the text is refused.  The text of an environment variable is no dictionary at all.
-/

namespace MacScheduler

open Value (Tidy)

/-! ## JSON -/

namespace Json

theorem tidy_floatValue {d : Decimal} {v : Value} (h : floatValue d = some v) : v.Tidy := by
  obtain ⟨x, -, rfl⟩ := Option.map_eq_some_iff.mp h
  exact .float x

theorem tidy_wholeValue {negative : Bool} {digits : List Char} {v : Value}
    (h : wholeValue negative digits = some v) : v.Tidy := by
  rw [wholeValue] at h
  split at h <;> split at h
  · cases h
    exact .int _
  · exact tidy_floatValue h
  · cases h
    exact .int _
  · exact tidy_floatValue h

theorem tidy_numberValue {negative : Bool} {whole : List Char} {fraction : Option (List Char)}
    {power : Option Int} {v : Value} (h : numberValue negative whole fraction power = some v) :
    v.Tidy := by
  unfold numberValue at h
  split at h
  · exact tidy_wholeValue h
  · exact tidy_floatValue h

theorem tidy_readNumber {cs rest : List Char} {v : Value}
    (h : readNumber cs = some (v, rest)) : v.Tidy := by
  simp only [readNumber, Option.bind_eq_bind, Option.bind_eq_some_iff] at h
  obtain ⟨_, -, _, -, _, -, h⟩ := h
  obtain ⟨w, hw, heq⟩ := Option.map_eq_some_iff.mp h
  cases heq
  exact tidy_numberValue hw

/-- What each of the nested readers gives with some fuel. -/
structure ReadsTidy (fuel : Nat) : Prop where
  value : ∀ {depth cs v rest}, readValue fuel depth cs = some (v, rest) → v.Tidy
  items : ∀ {depth cs vs rest}, readItems fuel depth cs = some (vs, rest) → ∀ v ∈ vs, v.Tidy
  entries : ∀ {depth before cs after rest}, (Value.dict before).Tidy →
    readEntries fuel depth before cs = some (after, rest) → (Value.dict after).Tidy

namespace ReadsTidy

variable {fuel : Nat} (ih : ReadsTidy fuel)

include ih

theorem readValue_succ {depth : Nat} {cs rest : List Char} {v : Value}
    (h : readValue (fuel + 1) depth cs = some (v, rest)) : v.Tidy := by
  rw [readValue] at h
  split at h
  · split at h
    · cases h
    · split at h
      · cases h
        exact .empty
      · obtain ⟨_, hentries, h⟩ := Option.map_eq_some_iff.mp h
        cases h
        exact ih.entries .empty hentries
  · split at h
    · cases h
    · split at h
      · cases h
        exact .list (by simp)
      · obtain ⟨_, hitems, h⟩ := Option.map_eq_some_iff.mp h
        cases h
        exact .list (ih.items hitems)
  · obtain ⟨_, -, h⟩ := Option.map_eq_some_iff.mp h
    cases h
    exact .text _
  · cases h
    exact .bool true
  · cases h
    exact .bool false
  · cases h
    exact .null
  · exact tidy_readNumber h

theorem readItems_succ {depth : Nat} {cs rest : List Char} {vs : List Value}
    (h : readItems (fuel + 1) depth cs = some (vs, rest)) : ∀ v ∈ vs, v.Tidy := by
  rw [readItems] at h
  split at h
  · cases h
  · rename_i hvalue
    dsimp only at h
    split at h
    · obtain ⟨_, hitems, h⟩ := Option.map_eq_some_iff.mp h
      cases h
      exact List.forall_mem_cons.mpr ⟨ih.value hvalue, ih.items hitems⟩
    · cases h
      exact List.forall_mem_singleton.mpr (ih.value hvalue)
    · cases h

theorem readEntries_succ {depth : Nat} {before after : List (String × Value)}
    {cs rest : List Char} (hbefore : (Value.dict before).Tidy)
    (h : readEntries (fuel + 1) depth before cs = some (after, rest)) :
    (Value.dict after).Tidy := by
  rw [readEntries] at h
  split at h
  · split at h
    · cases h
    · split at h
      · split at h
        · cases h
        · rename_i hvalue
          dsimp only at h
          split at h
          · exact ih.entries (hbefore.assign (ih.value hvalue)) h
          · cases h
            exact hbefore.assign (ih.value hvalue)
          · cases h
      · cases h
  · cases h

end ReadsTidy

theorem readsTidy (fuel : Nat) : ReadsTidy fuel := by
  induction fuel with
  | zero => exact ⟨by simp [readValue], by simp [readItems], by simp [readEntries]⟩
  | succ fuel ih => exact ⟨ih.readValue_succ, ih.readItems_succ, ih.readEntries_succ⟩

theorem tidy_read? {s : String} {v : Value} (h : read? s = some v) : v.Tidy := by
  unfold read? at h
  split at h
  · rename_i hvalue
    split at h
    · cases h
      exact (readsTidy _).value hvalue
    · cases h
  · cases h

end Json

/-! ## Files -/

namespace Toml

theorem tidy_wholeValue {negative : Bool} {n : Nat} {v : Value}
    (h : wholeValue negative n = some v) : v.Tidy := by
  unfold wholeValue at h
  split at h <;> split at h <;> cases h <;> exact .int _

theorem tidy_basedValue {base : Nat} {cs : List Char} {v : Value}
    (h : basedValue base cs = some v) : v.Tidy := by
  simp only [basedValue, Option.bind_eq_bind, Option.bind_eq_some_iff] at h
  obtain ⟨_, -, _, -, h⟩ := h
  exact tidy_wholeValue h

theorem tidy_numberValue {negative : Bool} {whole : List Char} {fraction : Option (List Char)}
    {power : Option Int} {v : Value} (h : numberValue negative whole fraction power = some v) :
    v.Tidy := by
  unfold numberValue at h
  split at h
  · exact tidy_wholeValue h
  · obtain ⟨x, -, rfl⟩ := Option.map_eq_some_iff.mp h
    exact .float x

theorem tidy_decimalValue {negative : Bool} {cs : List Char} {v : Value}
    (h : decimalValue negative cs = some v) : v.Tidy := by
  simp only [decimalValue, Option.bind_eq_bind, Option.bind_eq_some_iff] at h
  obtain ⟨_, -, _, -, _, -, h⟩ := h
  split at h
  · exact tidy_numberValue h
  · cases h

theorem tidy_scalarValue {token : List Char} {v : Value} (h : scalarValue token = some v) :
    v.Tidy := by
  unfold scalarValue at h
  split at h
  · cases h
    exact .bool true
  split at h
  · cases h
    exact .bool false
  dsimp only at h
  split at h
  · cases h
    exact .float _
  split at h
  · cases h
    exact .float _
  split at h
  · exact tidy_basedValue h
  · exact tidy_basedValue h
  · exact tidy_basedValue h
  · obtain ⟨_, -, h⟩ := Option.bind_eq_some_iff.mp h
    exact tidy_decimalValue h

/-- A value is tidy, and so is each item of a list. -/
theorem tidy_readValue_and_readItems (fuel : Nat) :
    (∀ {cs v rest}, readValue fuel cs = some (v, rest) → v.Tidy) ∧
      ∀ {cs vs rest}, readItems fuel cs = some (vs, rest) → ∀ v ∈ vs, v.Tidy := by
  induction fuel with
  | zero => exact ⟨by simp [readValue], by simp [readItems]⟩
  | succ fuel ih =>
      obtain ⟨ihValue, ihItems⟩ := ih
      constructor
      · intro cs v rest h
        unfold readValue at h
        split at h
        · cases h
        · obtain ⟨_, -, h⟩ := Option.map_eq_some_iff.mp h
          cases h
          exact .text _
        · obtain ⟨_, -, h⟩ := Option.map_eq_some_iff.mp h
          cases h
          exact .text _
        · cases ‹fuel + 1 = _›
          obtain ⟨_, hitems, h⟩ := Option.map_eq_some_iff.mp h
          cases h
          exact .list (ihItems hitems)
        · obtain ⟨w, hw, h⟩ := Option.map_eq_some_iff.mp h
          cases h
          exact tidy_scalarValue hw
      · intro cs vs rest h
        rw [readItems] at h
        split at h
        · cases h
          simp
        · split at h
          · cases h
          · rename_i hvalue
            split at h
            · obtain ⟨_, hitems, h⟩ := Option.map_eq_some_iff.mp h
              cases h
              exact List.forall_mem_cons.mpr ⟨ihValue hvalue, ihItems hitems⟩
            · cases h
              exact List.forall_mem_singleton.mpr (ihValue hvalue)
            · cases h

namespace Reader

variable {r r' : Reader} {name key : String} {value : Value} {entries es : List (String × Value)}

theorem tidy_append (h : (Value.dict entries).Tidy) (hnew : Value.lookup key entries = none)
    (hvalue : value.Tidy) : (Value.dict (entries ++ [(key, value)])).Tidy := by
  refine .dict ?_ fun entry hentry ↦ ?_
  · rw [List.map_append]
    refine List.nodup_append.mpr ⟨h.nodup_keys, List.nodup_singleton key, ?_⟩
    rintro k hk _ hkey rfl
    obtain rfl := List.mem_singleton.mp hkey
    exact Value.lookup_eq_none_iff.mp hnew hk
  · rcases List.mem_append.mp hentry with hentry | hentry
    · exact h.values entry hentry
    · exact List.mem_singleton.mp hentry ▸ hvalue

theorem tidy_define (h : (Value.dict entries).Tidy) (hvalue : value.Tidy)
    (hdefine : define key value entries = some es) : (Value.dict es).Tidy := by
  unfold define at hdefine
  split at hdefine
  · rename_i hnew
    cases hdefine
    exact tidy_append h hnew hvalue
  · cases hdefine

theorem tidy_items_append {items : List Value} (h : ∀ item ∈ items, item.Tidy)
    (hvalue : value.Tidy) : (Value.list (items ++ [value])).Tidy :=
  .list (List.forall_mem_append.mpr ⟨h, List.forall_mem_singleton.mpr hvalue⟩)

theorem tidy_openTable (h : (Value.dict r.entries).Tidy) (hopen : r.openTable name = some r') :
    (Value.dict r'.entries).Tidy := by
  obtain ⟨es, hes, rfl⟩ := Option.map_eq_some_iff.mp hopen
  exact tidy_define h .empty hes

theorem tidy_openItem (h : (Value.dict r.entries).Tidy) (hopen : r.openItem name = some r') :
    (Value.dict r'.entries).Tidy := by
  unfold openItem at hopen
  split at hopen
  · rename_i hnew
    cases hopen
    exact tidy_append h hnew (.list (List.forall_mem_singleton.mpr .empty))
  · rename_i hfound
    split at hopen
    · cases hopen
      exact h.assign (tidy_items_append (h.of_lookup hfound).items .empty)
    · cases hopen
  · cases hopen

theorem tidy_put (h : (Value.dict r.entries).Tidy) (hvalue : value.Tidy)
    (hput : r.put key value = some r') : (Value.dict r'.entries).Tidy := by
  unfold put at hput
  split at hput
  · obtain ⟨es, hes, rfl⟩ := Option.map_eq_some_iff.mp hput
    exact tidy_define h hvalue hes
  · split at hput
    · rename_i hfound
      obtain ⟨es, hes, rfl⟩ := Option.map_eq_some_iff.mp hput
      exact h.assign (tidy_define (h.of_lookup hfound) hvalue hes)
    · cases hput
  · split at hput
    · rename_i hfound
      split at hput
      · rename_i hlast
        obtain ⟨es, hes, rfl⟩ := Option.map_eq_some_iff.mp hput
        have hitems := (h.of_lookup hfound).items
        refine h.assign (tidy_items_append (fun item hitem ↦ ?_) (tidy_define ?_ hvalue hes))
        · exact hitems item ((List.dropLast_sublist _).subset hitem)
        · exact hitems _ (List.mem_of_getLast? hlast)
      · cases hput
    · cases hput

end Reader

theorem tidy_readStatement {r r' : Reader} {cs rest : List Char}
    (h : (Value.dict r.entries).Tidy) (hread : readStatement r cs = some (r', rest)) :
    (Value.dict r'.entries).Tidy := by
  unfold readStatement at hread
  split at hread <;> simp only [Option.bind_eq_bind, Option.bind_eq_some_iff] at hread
  · obtain ⟨_, -, hread⟩ := hread
    split at hread
    · simp only [Option.bind_eq_some_iff] at hread
      obtain ⟨_, hopen, _, -, heq⟩ := hread
      cases heq
      exact Reader.tidy_openItem h hopen
    · cases hread
  · obtain ⟨_, -, hread⟩ := hread
    split at hread
    · simp only [Option.bind_eq_some_iff] at hread
      obtain ⟨_, hopen, _, -, heq⟩ := hread
      cases heq
      exact Reader.tidy_openTable h hopen
    · cases hread
  · obtain ⟨_, -, hread⟩ := hread
    split at hread
    · simp only [Option.bind_eq_some_iff] at hread
      obtain ⟨_, hvalue, _, hput, _, -, heq⟩ := hread
      cases heq
      exact Reader.tidy_put h ((tidy_readValue_and_readItems _).1 hvalue) hput
    · cases hread

theorem tidy_readStatements {fuel : Nat} {r r' : Reader} {cs : List Char}
    (h : (Value.dict r.entries).Tidy) (hread : readStatements fuel r cs = some r') :
    (Value.dict r'.entries).Tidy := by
  induction fuel generalizing r cs with
  | zero => cases hread
  | succ fuel ih =>
      unfold readStatements at hread
      split at hread
      · cases hread
        exact h
      · split at hread
        · cases hread
        · rename_i hstatement
          exact ih (tidy_readStatement h hstatement) hread

theorem tidy_read? {s : String} {v : Value} (h : read? s = some v) : v.Tidy := by
  obtain ⟨r, hr, rfl⟩ := Option.map_eq_some_iff.mp h
  exact tidy_readStatements .empty hr

theorem isDict_read? {s : String} {v : Value} (h : read? s = some v) : v.isDict = true := by
  obtain ⟨r, -, rfl⟩ := Option.map_eq_some_iff.mp h
  rfl

end Toml

/-! ## Variables -/

namespace EnvText

/-- A value without dictionaries; its lists may be nested. -/
inductive Plain : Value → Prop
  | bool (b : Bool) : Plain (.bool b)
  | int (i : Int) : Plain (.int i)
  | float (x : Float) : Plain (.float x)
  | text (s : String) : Plain (.text s)
  | list {items : List Value} (hitems : ∀ item ∈ items, Plain item) : Plain (.list items)

theorem Plain.isDict {v : Value} (h : Plain v) : v.isDict = false := by
  cases h <;> rfl

theorem Plain.tidy {v : Value} (h : Plain v) : v.Tidy := by
  induction h with
  | bool b => exact .bool b
  | int i => exact .int i
  | float x => exact .float x
  | text s => exact .text s
  | list _ ih => exact .list ih

theorem plain_wholeValue? {cs : List Char} {v : Value} (h : wholeValue? cs = some v) :
    Plain v := by
  unfold wholeValue? at h
  dsimp only at h
  split at h
  · cases h
  · split at h <;> split at h <;> cases h <;> exact .int _

theorem plain_floatValue? {cs : List Char} {v : Value} (h : floatValue? cs = some v) :
    Plain v := by
  unfold floatValue? at h
  dsimp only at h
  split at h
  · cases h
  · obtain ⟨_, -, h⟩ := Option.bind_eq_some_iff.mp h
    split at h
    · cases h
      exact .float _
    · cases h

theorem plain_wordValue (cs : List Char) : Plain (wordValue cs) := by
  unfold wordValue
  dsimp only
  cases hnumber : (if cs.contains '.' then floatValue? cs else none).or (wholeValue? cs) with
  | none => exact .text _
  | some v =>
      rcases Option.or_eq_some_iff.mp hnumber with hfloat | ⟨-, hwhole⟩
      · split at hfloat
        · exact plain_floatValue? hfloat
        · cases hfloat
      · exact plain_wholeValue? hwhole

theorem plain_readValue_and_readItems (fuel : Nat) :
    (∀ {cs v rest}, readValue fuel cs = some (v, rest) → Plain v) ∧
      ∀ {cs vs rest}, readItems fuel cs = some (vs, rest) → ∀ v ∈ vs, Plain v := by
  induction fuel with
  | zero => exact ⟨by simp [readValue], by simp [readItems]⟩
  | succ fuel ih =>
      obtain ⟨ihValue, ihItems⟩ := ih
      constructor
      · intro cs v rest h
        rw [readValue] at h
        split at h
        · cases h
          exact .bool true
        · cases h
          exact .bool false
        · obtain ⟨_, -, h⟩ := Option.map_eq_some_iff.mp h
          cases h
          exact .text _
        · obtain ⟨_, hitems, h⟩ := Option.map_eq_some_iff.mp h
          cases h
          exact .list (ihItems hitems)
        · cases h
        · cases h
          exact plain_wordValue _
      · intro cs vs rest h
        unfold readItems at h
        split at h
        · cases h
        · cases h
          simp
        · cases ‹fuel + 1 = _›
          split at h
          · cases h
          · rename_i hvalue
            obtain ⟨_, hitems, h⟩ := Option.map_eq_some_iff.mp h
            cases h
            exact List.forall_mem_cons.mpr ⟨ihValue hvalue, ihItems hitems⟩
          · rename_i hvalue
            cases h
            exact List.forall_mem_singleton.mpr (ihValue hvalue)
          · cases h

theorem plain_read (s : String) : Plain (read s) := by
  unfold read
  split
  · rename_i hvalue
    exact (plain_readValue_and_readItems _).1 hvalue
  · exact .text s

end EnvText

end MacScheduler
