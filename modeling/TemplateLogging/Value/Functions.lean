import TemplateLogging.Decimal.Reading
import TemplateLogging.Value.Basic

namespace TemplateLogging.Value

/-- The larger of two doubles; a number is larger than NaN. -/
def larger (x y : Float) : Float :=
  if x.isNaN then y else if x < y then y else x

/-- The smaller of two doubles; a number is smaller than NaN. -/
def smaller (x y : Float) : Float :=
  if x.isNaN then y else if y < x then y else x

/-- Rounds to the nearest whole number, a half upwards. -/
def roundHalfUp (x : Float) : Float :=
  (x + 0.5).floor

/-- The product of `r` and `x ^ n` by repeated squaring. -/
def timesPower (r x : Float) (n : Nat) : Float :=
  let r := if n % 2 = 1 then r * x else r
  if n / 2 = 0 then r else timesPower r (x * x) (n / 2)
termination_by n
decreasing_by omega

def tenPower (n : Nat) : Float :=
  timesPower 1.0 10.0 n

def augmentMap? : Value → Value → Option Value
  | map first, map second => some (.map (Entries.insertAll first second))
  | _, _ => none

/-- The least integer that is not smaller, within 64 bits. -/
def ceil? : Value → Option Int64
  | integer n => some n
  | float x => some x.ceil.toInt64
  | _ => none

/-- The largest integer that is not larger, within 64 bits. -/
def floor? : Value → Option Int64
  | integer n => some n
  | float x => some x.floor.toInt64
  | _ => none

def keys? : Value → Option (List Value)
  | map entries => some (entries.map fun (name, _) => .string name)
  | _ => none

def max? : Value → Value → Option Value
  | integer m, integer n => some (.integer (if m < n then n else m))
  | v, w => v.number?.bind fun x => w.number?.map fun y => .float (larger x y)

def min? : Value → Value → Option Value
  | integer m, integer n => some (.integer (if n < m then n else m))
  | v, w => v.number?.bind fun x => w.number?.map fun y => .float (smaller x y)

def parseFloat? (s : String) : Option Float :=
  (Decimal.double? s).filter (!·.isNaN)

def parseInt? (s : String) : Option Int64 :=
  Decimal.int64? s

/-- The largest number of digits that a value may be rounded to. -/
def maxDigits : Nat := 2147483647

/-- Rounds to a number of digits after the point, a half upwards. No digits or fewer make an
integer, and more make a double. -/
def round? (v : Value) (digits : Int) : Option Value :=
  if maxDigits < digits.natAbs then none
  else
    match digits, v with
    | 0, integer n => some (.integer n)
    | 0, v => v.number?.map fun x => .integer (roundHalfUp x).toInt64
    | .ofNat n, v =>
        v.number?.map fun x => .float (roundHalfUp (x * tenPower n) / tenPower n)
    | .negSucc n, v =>
        v.number?.map fun x =>
          .integer (roundHalfUp (x / tenPower (n + 1)) * tenPower (n + 1)).toInt64

end TemplateLogging.Value
