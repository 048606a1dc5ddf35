/-!
# Decimal notation

Numbers are read as a sign, a whole significand and a power of ten, and turned
into the nearest floating-point number.  Powers far outside the range of a
double are cut off first, so the work is bounded by the length of the text.
-/

namespace MacScheduler

def digitValue (c : Char) : Nat := c.toNat - '0'.toNat

/-- The whole number that decimal digits denote. -/
def ofDigits (digits : List Char) : Nat :=
  digits.foldl (fun n c ↦ 10 * n + digitValue c) 0

/-- The value of a hexadecimal digit. -/
def hexDigit? (c : Char) : Option Nat :=
  if c.isDigit then some (digitValue c)
  else if 'a' ≤ c ∧ c ≤ 'f' then some (c.toNat - 'a'.toNat + 10)
  else if 'A' ≤ c ∧ c ≤ 'F' then some (c.toNat - 'A'.toNat + 10)
  else none

/-- The greatest number of 64 bits. -/
def maxUnsigned : Nat := 0xFFFFFFFFFFFFFFFF

/-- The greatest number of 64 bits of which one is the sign. -/
def maxSigned : Nat := 0x7FFFFFFFFFFFFFFF

/-- `significand * 10 ^ exponent`, negated when `negative`. -/
structure Decimal where
  negative : Bool
  significand : Nat
  exponent : Int
deriving DecidableEq

namespace Decimal

/-- The power of ten just above the number, for a positive significand. -/
def magnitude (d : Decimal) : Int := (toString d.significand).length + d.exponent

def toFloat (d : Decimal) : Float :=
  let size :=
    if d.significand = 0 ∨ d.magnitude < -400 then 0.0
    else if 400 < d.magnitude then 1.0 / 0.0
    else if d.exponent < 0 then Float.ofScientific d.significand true d.exponent.natAbs
    else Float.ofScientific d.significand false d.exponent.natAbs
  if d.negative then -size else size

/-- The nearest floating-point number, unless that is infinite. -/
def finite? (d : Decimal) : Option Float := if d.toFloat.isInf then none else some d.toFloat

/-- The decimal with the given digits before and after the point and a power of
ten to scale it. -/
def ofParts (negative : Bool) (whole fraction : List Char) (power : Int) : Decimal :=
  ⟨negative, ofDigits (whole ++ fraction), power - fraction.length⟩

end Decimal

/-- The leading decimal digits of a text, and the rest. -/
def splitDigits (cs : List Char) : List Char × List Char := cs.span Char.isDigit

def splitSign : List Char → Bool × List Char
  | '-' :: cs => (true, cs)
  | '+' :: cs => (false, cs)
  | cs => (false, cs)

/-- The digits before the point: a zero stands alone. -/
def readWhole (cs : List Char) : Option (List Char × List Char) :=
  match splitDigits cs with
  | ([], _) => none
  | (['0'], rest) => some (['0'], rest)
  | ('0' :: _, _) => none
  | (digits, rest) => some (digits, rest)

/-- The digits after the point, if there is one. -/
def readFraction : List Char → Option (Option (List Char) × List Char)
  | '.' :: cs =>
      match splitDigits cs with
      | ([], _) => none
      | (digits, rest) => some (some digits, rest)
  | cs => some (none, cs)

/-- An optional power of ten after `e` or `E`; `none` when the letter stands
without digits. -/
def splitPower : List Char → Option (Option Int × List Char)
  | c :: cs =>
      if c = 'e' ∨ c = 'E' then
        let (negative, cs) := splitSign cs
        match splitDigits cs with
        | ([], _) => none
        | (digits, rest) =>
            let power : Int := ofDigits digits
            some (some (if negative then -power else power), rest)
      else some (none, c :: cs)
  | [] => some (none, [])

end MacScheduler
