/-!
Doubles taken apart into sign, significand and binary exponent, and the shortest decimal that reads
back as a given double: for one digit, two digits and so on, the two neighbours of the value on that
decimal grid are tried, and the first grid with a neighbour inside the rounding interval wins.
-/

namespace TemplateLogging.Decimal

/-- What the bits of a double stand for; a finite one is `significand * 2 ^ exponent`. -/
inductive Parts where
  | nan
  | infinite (negative : Bool)
  | finite (negative : Bool) (significand : Nat) (exponent : Int)
deriving DecidableEq

def Parts.ofBits (bits : Nat) : Parts :=
  let negative := bits / Nat.pow 2 63 % 2 == 1
  let exponent : Nat := bits / Nat.pow 2 52 % Nat.pow 2 11
  let fraction : Nat := bits % Nat.pow 2 52
  if exponent = 2047 then
    if fraction = 0 then .infinite negative else .nan
  else if exponent = 0 then
    .finite negative fraction (-1074)
  else
    .finite negative (Nat.pow 2 52 + fraction) (exponent - 1075)

def Parts.ofFloat (x : Float) : Parts :=
  Parts.ofBits x.toBits.toNat

/-- The number `digits * 10 ^ exponent`. -/
structure Scaled where
  digits : Nat
  exponent : Int
deriving DecidableEq

/-- Number of decimal digits of `n`; zero has one. -/
def digitCount (n : Nat) : Nat :=
  (Nat.toDigits 10 n).length

/-- The `p` with `10 ^ (p - 1) ≤ num / den < 10 ^ p`, for positive `num` and `den`. -/
def magnitude (num den : Nat) : Int :=
  if den ≤ num then
    digitCount (num / den)
  else
    1 - digitCount ((den + num - 1) / num - 1)

/-- An interval of fractions over one denominator around the fraction `value / den`. -/
structure Interval where
  low : Nat
  value : Nat
  high : Nat
  den : Nat
  closed : Bool

/-- The numbers that round to the double `significand * 2 ^ exponent`. Below a power of two the next
double is half as far away, and a number midway between two doubles rounds to the even one. -/
def Interval.ofDouble (significand : Nat) (exponent : Int) : Interval :=
  let below := if significand = Nat.pow 2 52 ∧ exponent ≠ -1074 then 1 else 2
  let scale := Nat.pow 2 (exponent - 2).toNat
  { low := (4 * significand - below) * scale
    value := 4 * significand * scale
    high := (4 * significand + 2) * scale
    den := Nat.pow 2 (2 - exponent).toNat
    closed := significand % 2 = 0 }

/-- Whether the fraction `num / (den * d)` lies in the interval. -/
def Interval.holds (i : Interval) (num d : Nat) : Bool :=
  if i.closed then i.low * d ≤ num && num ≤ i.high * d
  else i.low * d < num && num < i.high * d

/-- Which of two decimals is taken when both are equally near. -/
inductive Tie where
  | up
  | even
deriving DecidableEq

/-- Whether the larger of two neighbours is taken, `below` and `above` being their distances. -/
def Tie.takesUpper (tie : Tie) (lower below above : Nat) : Bool :=
  match tie with
  | .up => above ≤ below
  | .even => above < below || (above == below && lower % 2 == 1)

/-- The neighbour of the value on the grid of the multiples of `10 ^ k` that lies in the interval,
and the nearer one of two. -/
def Interval.onGrid? (i : Interval) (tie : Tie) (k : Int) : Option Nat :=
  let step := i.den * Nat.pow 10 k.toNat
  let d := Nat.pow 10 (-k).toNat
  let value := i.value * d
  let lower := value / step
  let upper := lower + 1
  match i.holds (lower * step) d, i.holds (upper * step) d with
  | true, true =>
      if tie.takesUpper lower (value - lower * step) (upper * step - value) then some upper
      else some lower
  | true, false => some lower
  | false, true => some upper
  | false, false => none

/-- Tries the grids for `count`, `count + 1`, … digits of a value below `10 ^ top`. -/
def Interval.search (i : Interval) (tie : Tie) (top : Int) : Nat → Nat → Scaled
  | 0, count => ⟨i.value / i.den, top - count⟩
  | fuel + 1, count =>
      match i.onGrid? tie (top - count) with
      | some digits => ⟨digits, top - count⟩
      | none => i.search tie top fuel (count + 1)

/-- The same number without trailing zeros among the digits, for at most `fuel` zeros. -/
def Scaled.trim : Nat → Scaled → Scaled
  | 0, s => s
  | fuel + 1, s =>
      if s.digits % 10 = 0 ∧ s.digits ≠ 0 then
        Scaled.trim fuel ⟨s.digits / 10, s.exponent + 1⟩
      else s

/-- The shortest decimal that reads back as the double `significand * 2 ^ exponent`. Seventeen
digits always suffice. -/
def shortest (tie : Tie) (significand : Nat) (exponent : Int) : Scaled :=
  if significand = 0 then ⟨0, 0⟩
  else
    let i := Interval.ofDouble significand exponent
    (i.search tie (magnitude i.value i.den) 17 1).trim 17

end TemplateLogging.Decimal
