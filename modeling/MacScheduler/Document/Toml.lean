import MacScheduler.Document.Decimal
import MacScheduler.Document.Value

/-!
# TOML texts

A reader for the part of TOML that configuration files use: tables, lists of
tables, and keys bound to numbers, truth values, texts and lists.  A key or a
table defined twice makes the text unreadable.
-/

namespace MacScheduler.Toml

def isBlank (c : Char) : Bool := c = ' ' || c = '\t'

def skipBlank (cs : List Char) : List Char := cs.dropWhile isBlank

/-- Drops a comment up to the end of its line. -/
def skipComment : List Char → List Char
  | '#' :: cs => cs.dropWhile (· ≠ '\n')
  | cs => cs

/-- Blanks, comments and line ends, at most `fuel` of them. -/
def skipLines : (fuel : Nat) → List Char → List Char
  | 0, cs => cs
  | fuel + 1, cs =>
      match skipComment (skipBlank cs) with
      | '\n' :: cs => skipLines fuel cs
      | '\r' :: '\n' :: cs => skipLines fuel cs
      | cs => cs

def endLine (cs : List Char) : Option (List Char) :=
  match skipComment (skipBlank cs) with
  | [] => some []
  | '\n' :: cs => some cs
  | '\r' :: '\n' :: cs => some cs
  | _ => none

def isKeyChar (c : Char) : Bool := c.isAlphanum || c = '_' || c = '-'

def readKey (cs : List Char) : Option (String × List Char) :=
  match cs.span isKeyChar with
  | ([], _) => none
  | (key, rest) => some (String.ofList key, rest)

/-- The character that a one-letter escape stands for. -/
def escapeChar? : Char → Option Char
  | '"' => some '"'
  | '\\' => some '\\'
  | 'b' => some '\x08'
  | 'f' => some '\x0c'
  | 'n' => some '\n'
  | 'r' => some '\r'
  | 't' => some '\t'
  | _ => none

/-- What a reader inside a quoted text has seen of an escape. -/
inductive Escape where
  | none
  | opened
  | hex (code missing : Nat)

def push (c : Char) (tail : Option (List Char × List Char)) : Option (List Char × List Char) :=
  tail.map fun (cs, rest) ↦ (c :: cs, rest)

def readText : Escape → List Char → Option (List Char × List Char)
  | _, [] => none
  | .none, c :: cs =>
      if c = '"' then some ([], cs)
      else if c = '\\' then readText .opened cs
      else if c.toNat < 0x20 ∧ c ≠ '\t' ∨ c.toNat = 0x7f then none
      else push c (readText .none cs)
  | .opened, c :: cs =>
      if c = 'u' then readText (.hex 0 4) cs
      else if c = 'U' then readText (.hex 0 8) cs
      else
        match escapeChar? c with
        | none => none
        | some x => push x (readText .none cs)
  | .hex code missing, c :: cs =>
      match hexDigit? c with
      | none => none
      | some d =>
          let code := 16 * code + d
          if 1 < missing then readText (.hex code (missing - 1)) cs
          else if code.isValidChar then push (Char.ofNat code) (readText .none cs)
          else none

/-- Reads up to the closing apostrophe; nothing is escaped. -/
def readLiteral : List Char → Option (List Char × List Char)
  | [] => none
  | c :: cs =>
      if c = '\'' then some ([], cs)
      else if c.toNat < 0x20 ∧ c ≠ '\t' ∨ c.toNat = 0x7f then none
      else push c (readLiteral cs)

/-- Removes underscores, each of which stands between two digits; `digit` tells
whether a digit comes directly before. -/
def joinDigits (digit : Bool) : List Char → Option (List Char)
  | [] => some []
  | '_' :: c :: cs =>
      if digit && (hexDigit? c).isSome then
        (joinDigits true cs).map (c :: ·)
      else none
  | c :: cs =>
      if c = '_' then none else (joinDigits (hexDigit? c).isSome cs).map (c :: ·)

def wholeValue (negative : Bool) (n : Nat) : Option Value :=
  if negative then if n ≤ maxSigned + 1 then some (.int (-n)) else none
  else if n ≤ maxSigned then some (.int n) else none

def readBase (base : Nat) (cs : List Char) : Option Nat :=
  if cs = [] then none
  else
    cs.foldlM
      (fun n c ↦ (hexDigit? c).bind fun d ↦ if d < base then some (base * n + d) else none) 0

/-- A number written in another base, after the letter that announces it. -/
def basedValue (base : Nat) (cs : List Char) : Option Value := do
  let digits ← joinDigits false cs
  let n ← readBase base digits
  wholeValue false n

/-- A number with the given digits before the point, and perhaps a fraction and a power. -/
def numberValue (negative : Bool) (whole : List Char) :
    (fraction : Option (List Char)) → (power : Option Int) → Option Value
  | none, none => wholeValue negative (ofDigits whole)
  | fraction, power =>
      (Decimal.ofParts negative whole (fraction.getD []) (power.getD 0)).finite?.map .float

/-- A number written in decimal, without a leading zero. -/
def decimalValue (negative : Bool) (cs : List Char) : Option Value := do
  let (whole, cs) ← readWhole cs
  let (fraction, cs) ← readFraction cs
  let (power, cs) ← splitPower cs
  if cs = [] then numberValue negative whole fraction power else none

/-- A number or a truth value, as the run of characters that spells it. -/
def scalarValue (token : List Char) : Option Value :=
  if token = "true".toList then some (.bool true)
  else if token = "false".toList then some (.bool false)
  else
    let (negative, cs) := splitSign token
    if cs = "inf".toList then some (.float (if negative then -1.0 / 0.0 else 1.0 / 0.0))
    else if cs = "nan".toList then some (.float (0.0 / 0.0))
    else
      match token with
      | '0' :: 'x' :: cs => basedValue 16 cs
      | '0' :: 'o' :: cs => basedValue 8 cs
      | '0' :: 'b' :: cs => basedValue 2 cs
      | _ => (joinDigits false cs).bind (decimalValue negative)

def isTokenChar (c : Char) : Bool := c.isAlphanum || c = '_' || c = '+' || c = '-' || c = '.'

mutual

/-- Reads one value; every nested reader is given less fuel. -/
def readValue : (fuel : Nat) → List Char → Option (Value × List Char)
  | 0, _ => none
  | _ + 1, '"' :: cs => (readText .none cs).map fun (text, cs) ↦ (.text (String.ofList text), cs)
  | _ + 1, '\'' :: cs => (readLiteral cs).map fun (text, cs) ↦ (.text (String.ofList text), cs)
  | fuel + 1, '[' :: cs => (readItems fuel cs).map fun (items, cs) ↦ (.list items, cs)
  | _ + 1, cs =>
      let (token, rest) := cs.span isTokenChar
      (scalarValue token).map fun value ↦ (value, rest)

/-- Reads the items of a list up to its closing bracket, which a comma may precede. -/
def readItems : (fuel : Nat) → List Char → Option (List Value × List Char)
  | 0, _ => none
  | fuel + 1, cs =>
      match skipLines cs.length cs with
      | ']' :: cs => some ([], cs)
      | cs =>
          match readValue fuel cs with
          | none => none
          | some (value, cs) =>
              match skipLines cs.length cs with
              | ',' :: cs => (readItems fuel cs).map fun (items, cs) ↦ (value :: items, cs)
              | ']' :: cs => some ([value], cs)
              | _ => none

end

/-- The place that a key statement writes to. -/
inductive Section where
  | root
  | table (name : String)
  | lastOf (name : String)

/-- What has been read of a text. -/
structure Reader where
  entries : List (String × Value)
  place : Section

namespace Reader

/-- Adds a key that must be new. -/
def define (key : String) (value : Value) (entries : List (String × Value)) :
    Option (List (String × Value)) :=
  match Value.lookup key entries with
  | none => some (entries ++ [(key, value)])
  | some _ => none

def openTable (r : Reader) (name : String) : Option Reader :=
  (define name (.dict []) r.entries).map fun entries ↦ ⟨entries, .table name⟩

def openItem (r : Reader) (name : String) : Option Reader :=
  match Value.lookup name r.entries with
  | none => some ⟨r.entries ++ [(name, .list [.dict []])], .lastOf name⟩
  | some (.list items) =>
      if items.all Value.isDict && !items.isEmpty then
        some ⟨Value.assign name (.list (items ++ [.dict []])) r.entries, .lastOf name⟩
      else none
  | some _ => none

def put (r : Reader) (key : String) (value : Value) : Option Reader :=
  match r.place with
  | .root => (define key value r.entries).map fun entries ↦ { r with entries }
  | .table name =>
      match Value.lookup name r.entries with
      | some (.dict table) =>
          (define key value table).map fun table ↦
            { r with entries := Value.assign name (.dict table) r.entries }
      | _ => none
  | .lastOf name =>
      match Value.lookup name r.entries with
      | some (.list items) =>
          match items.getLast? with
          | some (.dict table) =>
              (define key value table).map fun table ↦
                { r with
                  entries := Value.assign name (.list (items.dropLast ++ [.dict table])) r.entries }
          | _ => none
      | _ => none

end Reader

def readStatement (r : Reader) (cs : List Char) : Option (Reader × List Char) :=
  match cs with
  | '[' :: '[' :: cs => do
      let (name, cs) ← readKey (skipBlank cs)
      match skipBlank cs with
      | ']' :: ']' :: cs =>
          let r ← r.openItem name
          let cs ← endLine cs
          some (r, cs)
      | _ => none
  | '[' :: cs => do
      let (name, cs) ← readKey (skipBlank cs)
      match skipBlank cs with
      | ']' :: cs =>
          let r ← r.openTable name
          let cs ← endLine cs
          some (r, cs)
      | _ => none
  | cs => do
      let (key, cs) ← readKey cs
      match skipBlank cs with
      | '=' :: cs =>
          let (value, cs) ← readValue (cs.length + 1) (skipBlank cs)
          let r ← r.put key value
          let cs ← endLine cs
          some (r, cs)
      | _ => none

/-- Reads statements to the end of the text, at most `fuel` of them. -/
def readStatements : (fuel : Nat) → Reader → List Char → Option Reader
  | 0, _, _ => none
  | fuel + 1, r, cs =>
      match skipLines cs.length cs with
      | [] => some r
      | cs =>
          match readStatement r cs with
          | none => none
          | some (r, cs) => readStatements fuel r cs

def read? (s : String) : Option Value :=
  (readStatements (s.length + 1) ⟨[], .root⟩ s.toList).map fun r ↦ .dict r.entries

end MacScheduler.Toml
