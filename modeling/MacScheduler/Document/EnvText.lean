import MacScheduler.Document.Decimal
import MacScheduler.Document.Value

/-!
# Environment texts

The text of an environment variable has no declared kind: it is read as a truth
value, a number or a bracketed list when it is spelled like one, and is a plain
text otherwise.
-/

namespace MacScheduler.EnvText

/-- Blanks that may surround a value. -/
def isBlank (c : Char) : Bool :=
  c = ' ' || c = '\t' || c = '\n' || c = '\r' || c = '\x0c'

def skipBlank (cs : List Char) : List Char := cs.dropWhile isBlank

/-- White space that is cut off a word. -/
def isSpace (c : Char) : Bool :=
  (decide (9 ≤ c.toNat) && decide (c.toNat ≤ 13)) ||
    [0x20, 0x85, 0xa0, 0x1680, 0x2028, 0x2029, 0x202f, 0x205f, 0x3000].contains c.toNat ||
      (decide (0x2000 ≤ c.toNat) && decide (c.toNat ≤ 0x200a))

def trim (cs : List Char) : List Char :=
  ((cs.dropWhile isSpace).reverse.dropWhile isSpace).reverse

/-- Characters that end a word. -/
def isSeparator (c : Char) : Bool :=
  c = ',' || c = '{' || c = '}' || c = '[' || c = ']'

/-- The digits after the point, none when there is no point. -/
def splitFraction : List Char → List Char × List Char
  | '.' :: cs => splitDigits cs
  | cs => ([], cs)

/-- A number with a point: digits on one side of it suffice. -/
def floatValue? (cs : List Char) : Option Value :=
  let (negative, cs) := splitSign cs
  let (whole, cs) := splitDigits cs
  let (fraction, cs) := splitFraction cs
  if whole = [] ∧ fraction = [] then none
  else
    (splitPower cs).bind fun (power, cs) ↦
      if cs = [] then
        some (.float (Decimal.ofParts negative whole fraction (power.getD 0)).toFloat)
      else none

def wholeValue? (cs : List Char) : Option Value :=
  let (negative, digits) := splitSign cs
  if digits = [] ∨ digits.any (fun c ↦ !c.isDigit) then none
  else
    let n := ofDigits digits
    if negative then if n ≤ maxSigned + 1 then some (.int (-n)) else none
    else if n ≤ maxUnsigned then some (.int n) else none

/-- A word that is not quoted: a number if it is spelled like one. -/
def wordValue (cs : List Char) : Value :=
  let float := if cs.contains '.' then floatValue? cs else none
  ((float.or (wholeValue? cs)).getD (.text (String.ofList cs)))

/-- The text between two quotes in which a backslash keeps the next character. -/
def readQuoted : (escaped : Bool) → List Char → Option (List Char × List Char)
  | _, [] => none
  | true, c :: cs => (readQuoted false cs).map fun (text, rest) ↦ (c :: text, rest)
  | false, c :: cs =>
      if c = '"' then some ([], cs)
      else if c = '\\' then readQuoted true cs
      else (readQuoted false cs).map fun (text, rest) ↦ (c :: text, rest)

mutual

/-- Reads one value and the blanks around it; every nested reader is given less fuel. -/
def readValue : (fuel : Nat) → List Char → Option (Value × List Char)
  | 0, _ => none
  | fuel + 1, cs =>
      match skipBlank cs with
      | 't' :: 'r' :: 'u' :: 'e' :: cs => some (.bool true, skipBlank cs)
      | 'f' :: 'a' :: 'l' :: 's' :: 'e' :: cs => some (.bool false, skipBlank cs)
      | '"' :: cs =>
          (readQuoted false cs).map fun (text, cs) ↦ (.text (String.ofList text), skipBlank cs)
      | '[' :: cs => (readItems fuel cs).map fun (items, cs) ↦ (.list items, skipBlank cs)
      | '{' :: _ => none
      | cs =>
          let (word, rest) := cs.span (fun c ↦ !isSeparator c)
          some (wordValue (trim word), skipBlank rest)

/-- Reads the items of a list up to its closing bracket, which a comma may precede. -/
def readItems : (fuel : Nat) → List Char → Option (List Value × List Char)
  | 0, _ => none
  | _ + 1, ']' :: cs => some ([], cs)
  | fuel + 1, cs =>
      match readValue fuel cs with
      | none => none
      | some (value, ',' :: cs) =>
          (readItems fuel cs).map fun (items, cs) ↦ (value :: items, cs)
      | some (value, ']' :: cs) => some ([value], cs)
      | some _ => none

end

def read (s : String) : Value :=
  match readValue (2 * s.length + 2) s.toList with
  | some (value, []) => value
  | _ => .text s

end MacScheduler.EnvText
