/-!
# Document values

Configuration files, environment texts and overrides all denote values of one
tree.  Layers of configuration are merged: dictionaries are combined key by
key, and any other value of the upper layer replaces the lower one.
-/

namespace MacScheduler

/-- A value of a configuration document.  Whole numbers and floating-point
numbers are told apart, and an explicit null is a value. -/
inductive Value where
  | null
  | bool (b : Bool)
  | int (i : Int)
  | float (x : Float)
  | text (s : String)
  | list (items : List Value)
  | dict (entries : List (String × Value))
deriving Inhabited

namespace Value

def lookup (key : String) : List (String × Value) → Option Value
  | [] => none
  | (k, v) :: entries => if k = key then some v else lookup key entries

/-- Replaces the value of a key in place, or adds the entry at the end. -/
def assign (key : String) (value : Value) : List (String × Value) → List (String × Value)
  | [] => [(key, value)]
  | (k, v) :: entries =>
      if k = key then (k, value) :: entries else (k, v) :: assign key value entries

theorem lookup_assign (key k : String) (value : Value) (entries : List (String × Value)) :
    lookup k (assign key value entries) =
      if key = k then some value else lookup k entries := by
  induction entries with
  | nil => rfl
  | cons entry entries ih =>
      obtain ⟨k', v⟩ := entry
      by_cases hkey : k' = key
      · subst hkey
        by_cases hk : k' = k <;> simp [assign, lookup, hk]
      · by_cases hk : k' = k
        · subst hk
          simp [assign, lookup, hkey, Ne.symm hkey]
        · simp [assign, lookup, hkey, hk, ih]

mutual

/-- The lower layer `base` overridden by the upper one. -/
def merge (base : Value) : Value → Value
  | .dict upper =>
      match base with
      | .dict lower => .dict (mergeEntries lower upper)
      | _ => .dict upper
  | .null => .null
  | .bool b => .bool b
  | .int i => .int i
  | .float x => .float x
  | .text s => .text s
  | .list items => .list items

/-- Merges the upper entries into the lower ones, one after the other. -/
def mergeEntries (lower : List (String × Value)) :
    List (String × Value) → List (String × Value)
  | [] => lower
  | (key, value) :: upper =>
      mergeEntries (assign key (((lookup key lower).map (merge · value)).getD value) lower) upper

end

/-- Wraps a value into one dictionary per key of a path. -/
def nest : List String → Value → Value
  | [], value => value
  | key :: path, value => .dict [(key, nest path value)]

/-- The parts of a text between its dots. -/
def dotParts : List Char → List (List Char)
  | [] => [[]]
  | c :: cs =>
      if c = '.' then [] :: dotParts cs
      else
        match dotParts cs with
        | [] => [[c]]
        | part :: parts => (c :: part) :: parts

/-- The path that a dotted key names: its parts before the first empty one. -/
def pathOf (key : List Char) : List String :=
  ((dotParts key).takeWhile (· ≠ [])).map String.ofList

def at? : List String → Value → Option Value
  | [], value => some value
  | key :: path, .dict entries => (lookup key entries).bind (at? path)
  | _ :: _, _ => none

def isDict : Value → Bool
  | .dict _ => true
  | _ => false

end Value

end MacScheduler
