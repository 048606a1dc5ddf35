import MacScheduler.Document.Decimal
import MacScheduler.Document.Value

/-!
# JSON texts

A reader for JSON texts.  A number without fraction and power is whole as long
as it fits 64 bits, and minus zero is not whole; a number beyond the range of a
double is refused.  When a key is repeated its last value counts.
-/

namespace MacScheduler.Json

/-- Dictionaries and lists that may enclose a value. -/
def maxDepth : Nat := 127

def isBlank (c : Char) : Bool := c = ' ' || c = '\n' || c = '\t' || c = '\r'

def skipBlank (cs : List Char) : List Char := cs.dropWhile isBlank

/-- What a reader inside a quoted text has seen of an escape. -/
inductive Escape where
  | none
  | opened
  | hex (high : Option Nat) (code missing : Nat)
  | pairSlash (high : Nat)
  | pairLetter (high : Nat)

/-- The character that a one-letter escape stands for. -/
def escapeChar? : Char → Option Char
  | '"' => some '"'
  | '\\' => some '\\'
  | '/' => some '/'
  | 'b' => some '\x08'
  | 'f' => some '\x0c'
  | 'n' => some '\n'
  | 'r' => some '\r'
  | 't' => some '\t'
  | _ => none

def isHighSurrogate (code : Nat) : Bool := decide (0xD800 ≤ code) && decide (code < 0xDC00)

def isLowSurrogate (code : Nat) : Bool := decide (0xDC00 ≤ code) && decide (code < 0xE000)

def push (c : Char) (tail : Option (List Char × List Char)) : Option (List Char × List Char) :=
  tail.map fun (cs, rest) ↦ (c :: cs, rest)

def readText : Escape → List Char → Option (List Char × List Char)
  | _, [] => none
  | .none, c :: cs =>
      if c = '"' then some ([], cs)
      else if c = '\\' then readText .opened cs
      else if c.toNat < 0x20 then none
      else push c (readText .none cs)
  | .opened, c :: cs =>
      if c = 'u' then readText (.hex none 0 4) cs
      else
        match escapeChar? c with
        | none => none
        | some x => push x (readText .none cs)
  | .hex high code missing, c :: cs =>
      match hexDigit? c with
      | none => none
      | some d =>
          let code := 16 * code + d
          if 1 < missing then readText (.hex high code (missing - 1)) cs
          else
            match high with
            | none =>
                if isHighSurrogate code then readText (.pairSlash code) cs
                else if isLowSurrogate code then none
                else push (Char.ofNat code) (readText .none cs)
            | some high =>
                if isLowSurrogate code then
                  push (Char.ofNat (0x10000 + (high - 0xD800) * 0x400 + (code - 0xDC00)))
                    (readText .none cs)
                else none
  | .pairSlash high, c :: cs => if c = '\\' then readText (.pairLetter high) cs else none
  | .pairLetter high, c :: cs => if c = 'u' then readText (.hex (some high) 0 4) cs else none

def floatValue (d : Decimal) : Option Value := d.finite?.map .float

/-- A number written without fraction and power. -/
def wholeValue (negative : Bool) (digits : List Char) : Option Value :=
  let n := ofDigits digits
  if negative then
    if 0 < n ∧ n ≤ maxSigned + 1 then some (.int (-n)) else floatValue (.ofParts true digits [] 0)
  else if n ≤ maxUnsigned then some (.int n)
  else floatValue (.ofParts false digits [] 0)

/-- A number with the given digits before the point, and perhaps a fraction and a power. -/
def numberValue (negative : Bool) (whole : List Char) :
    (fraction : Option (List Char)) → (power : Option Int) → Option Value
  | none, none => wholeValue negative whole
  | fraction, power => floatValue (.ofParts negative whole (fraction.getD []) (power.getD 0))

def readNumber (cs : List Char) : Option (Value × List Char) := do
  let (negative, cs) :=
    match cs with
    | '-' :: cs => (true, cs)
    | cs => (false, cs)
  let (whole, cs) ← readWhole cs
  let (fraction, cs) ← readFraction cs
  let (power, cs) ← splitPower cs
  (numberValue negative whole fraction power).map fun value ↦ (value, cs)

mutual

/-- Reads one value; every nested reader is given less fuel. -/
def readValue : (fuel depth : Nat) → List Char → Option (Value × List Char)
  | 0, _, _ => none
  | fuel + 1, depth, cs =>
      match skipBlank cs with
      | '{' :: cs =>
          match depth with
          | 0 => none
          | depth + 1 =>
              match skipBlank cs with
              | '}' :: cs => some (.dict [], cs)
              | cs => (readEntries fuel depth [] cs).map fun (entries, cs) ↦ (.dict entries, cs)
      | '[' :: cs =>
          match depth with
          | 0 => none
          | depth + 1 =>
              match skipBlank cs with
              | ']' :: cs => some (.list [], cs)
              | cs => (readItems fuel depth cs).map fun (items, cs) ↦ (.list items, cs)
      | '"' :: cs => (readText .none cs).map fun (text, cs) ↦ (.text (String.ofList text), cs)
      | 't' :: 'r' :: 'u' :: 'e' :: cs => some (.bool true, cs)
      | 'f' :: 'a' :: 'l' :: 's' :: 'e' :: cs => some (.bool false, cs)
      | 'n' :: 'u' :: 'l' :: 'l' :: cs => some (.null, cs)
      | cs => readNumber cs

/-- Reads the entries of a dictionary up to its closing brace. -/
def readEntries : (fuel depth : Nat) → List (String × Value) → List Char →
    Option (List (String × Value) × List Char)
  | 0, _, _, _ => none
  | fuel + 1, depth, entries, cs =>
      match skipBlank cs with
      | '"' :: cs =>
          match readText .none cs with
          | none => none
          | some (key, cs) =>
              match skipBlank cs with
              | ':' :: cs =>
                  match readValue fuel depth cs with
                  | none => none
                  | some (value, cs) =>
                      let entries := Value.assign (String.ofList key) value entries
                      match skipBlank cs with
                      | ',' :: cs => readEntries fuel depth entries cs
                      | '}' :: cs => some (entries, cs)
                      | _ => none
              | _ => none
      | _ => none

/-- Reads the items of a list up to its closing bracket. -/
def readItems : (fuel depth : Nat) → List Char → Option (List Value × List Char)
  | 0, _, _ => none
  | fuel + 1, depth, cs =>
      match readValue fuel depth cs with
      | none => none
      | some (value, cs) =>
          match skipBlank cs with
          | ',' :: cs => (readItems fuel depth cs).map fun (items, cs) ↦ (value :: items, cs)
          | ']' :: cs => some ([value], cs)
          | _ => none

end

/-- The value that a text denotes, blanks around it aside. -/
def read? (s : String) : Option Value :=
  match readValue (s.length + 1) maxDepth s.toList with
  | some (value, rest) => if rest.all isBlank then some value else none
  | none => none

end MacScheduler.Json
