import TemplateLogging.Decimal.Reading
import TemplateLogging.Json.Basic

namespace TemplateLogging.Json

/-- Appends digits to a significand while it stays within 64 bits; the second part is the digits
that are left over. -/
def absorb (significand : Nat) : List Char → Nat × List Char
  | [] => (significand, [])
  | c :: cs =>
      let next := 10 * significand + (c.toNat - '0'.toNat)
      if next < UInt64.size then absorb next cs else (significand, c :: cs)

def powerOfTen (n : Nat) : Float :=
  Decimal.nearestDouble 1 n

/-- Multiplies by a power of ten, exponents below -308 in several steps; none when the product is
past the largest double. -/
def scale (x : Float) (exponent : Int) : Option Float :=
  if exponent < -308 then
    if x == 0.0 then some x else scale (x / powerOfTen 308) (exponent + 308)
  else if exponent < 0 then some (x / powerOfTen exponent.natAbs)
  else if exponent ≤ 308 then
    let product := x * powerOfTen exponent.natAbs
    if product.isInf then none else some product
  else if x == 0.0 then some x
  else none
termination_by (-exponent).toNat

/-- The value of an integer text with the given significand. -/
def ofInteger (negative : Bool) (significand : Nat) : Json :=
  let n : Int := -significand
  if !negative then .int significand
  else if n < 0 ∧ (Int64.ofInt n).toInt = n then .int n
  else .float (-(significand.toUInt64.toFloat))

/-- The value of a number text in its parts: sign, digits before and after the point, exponent. -/
def ofParts (negative : Bool) (whole fraction : List Char) (exponent : Option Int) : Json :=
  let (significand, skipped) := absorb 0 whole
  if skipped.isEmpty && fraction.isEmpty && exponent.isNone then ofInteger negative significand
  else
    let (significand, unused) := absorb significand fraction
    let shift : Int := skipped.length - (fraction.length - unused.length : Nat)
    match scale significand.toUInt64.toFloat (shift + exponent.getD 0) with
    | some x => .float (if negative then -x else x)
    | none => .unreadable

/-- The digits at the front, at least one, and the rest. -/
def digits? (cs : List Char) : Option (List Char × List Char) :=
  let digits := cs.takeWhile Char.isDigit
  if digits.isEmpty then none else some (digits, cs.dropWhile Char.isDigit)

/-- The digits after a point, if there is one. -/
def fraction? : List Char → Option (List Char × List Char)
  | '.' :: cs => digits? cs
  | cs => some ([], cs)

/-- The exponent after a letter `e`, if there is one. -/
def exponent? : List Char → Option (Option Int × List Char)
  | [] => some (none, [])
  | c :: cs =>
      if c = 'e' ∨ c = 'E' then
        let (negative, cs) := Decimal.splitSign cs
        (digits? cs).map fun (digits, cs) =>
          let n : Int := Decimal.digitsValue digits
          (some (if negative then -n else n), cs)
      else some (none, c :: cs)

/-- Whether a number may have these digits before its point: only zero itself starts with zero. -/
def isWhole : List Char → Bool
  | '0' :: _ :: _ => false
  | _ => true

/-- The number at the front of a text, and the rest. -/
def number? (cs : List Char) : Option (Json × List Char) :=
  let (negative, cs) : Bool × List Char :=
    match cs with
    | '-' :: cs => (true, cs)
    | cs => (false, cs)
  (digits? cs).bind fun (whole, cs) =>
    if isWhole whole then
      (fraction? cs).bind fun (fraction, cs) =>
        (exponent? cs).map fun (exponent, cs) =>
          (ofParts negative whole fraction exponent, cs)
    else none

end TemplateLogging.Json
