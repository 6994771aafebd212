import TemplateLogging.Decimal.Shortest

namespace TemplateLogging.Decimal

def digitsValue (digits : List Char) : Nat :=
  digits.foldl (fun n c => 10 * n + (c.toNat - '0'.toNat)) 0

def infinity : Float :=
  Float.ofBits 0x7FF0000000000000

/-- The double nearest to `digits * 10 ^ exponent`, the even one of two equally near. Values from
`10 ^ 310` on are past the largest double and values below `10 ^ -330` round to zero. -/
def nearestDouble (digits : Nat) (exponent : Int) : Float :=
  let top := digitCount digits + exponent
  if digits = 0 ∨ top < -330 then 0.0
  else if 310 < top then infinity
  else Float.ofScientific digits (exponent < 0) exponent.natAbs

/-- Splits off a sign; true stands for minus. -/
def splitSign : List Char → Bool × List Char
  | '-' :: cs => (true, cs)
  | '+' :: cs => (false, cs)
  | cs => (false, cs)

/-- An exponent: an optional sign and at least one digit. -/
def exponent? (cs : List Char) : Option Int :=
  let (negative, digits) := splitSign cs
  if digits.isEmpty || !digits.all Char.isDigit then none
  else some (if negative then -digitsValue digits else digitsValue digits)

/-- An unsigned decimal: digits with an optional point, at least one digit in all, and an optional
exponent. -/
def unsigned? (cs : List Char) : Option Float :=
  let whole := cs.takeWhile Char.isDigit
  let rest := cs.dropWhile Char.isDigit
  let (fraction, rest) :=
    match rest with
    | '.' :: rest => (rest.takeWhile Char.isDigit, rest.dropWhile Char.isDigit)
    | rest => ([], rest)
  if whole.isEmpty && fraction.isEmpty then none
  else
    let digits := digitsValue (whole ++ fraction)
    let value := fun e : Int => nearestDouble digits (e - fraction.length)
    match rest with
    | [] => some (value 0)
    | c :: rest => if c == 'e' || c == 'E' then (exponent? rest).map value else none

/-- The double that a text writes: a decimal, or `inf`, `infinity` or `nan` in any case, after an
optional sign. -/
def double? (s : String) : Option Float :=
  let (negative, cs) := splitSign s.toList
  let word := cs.map Char.toLower
  let magnitude :=
    if word == "inf".toList || word == "infinity".toList then some infinity
    else if word == "nan".toList then some (0.0 / 0.0)
    else unsigned? cs
  magnitude.map fun x => if negative then -x else x

def int64? (s : String) : Option Int64 :=
  let (negative, digits) := splitSign s.toList
  if digits.isEmpty || !digits.all Char.isDigit then none
  else
    let n : Int := if negative then -digitsValue digits else digitsValue digits
    if (Int64.ofInt n).toInt = n then some (Int64.ofInt n) else none

end TemplateLogging.Decimal
