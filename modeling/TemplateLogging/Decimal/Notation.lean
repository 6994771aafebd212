import TemplateLogging.Decimal.Shortest

namespace TemplateLogging.Decimal

def zeros (n : Nat) : List Char :=
  List.replicate n '0'

/-- Writes all digits and a point where one is needed. -/
def Scaled.positional (s : Scaled) : List Char :=
  let digits := Nat.toDigits 10 s.digits
  let point := s.exponent + digits.length
  if 0 ≤ s.exponent then digits ++ zeros s.exponent.toNat
  else if 0 < point then digits.take point.toNat ++ '.' :: digits.drop point.toNat
  else '0' :: '.' :: (zeros (-point).toNat ++ digits)

/-- Writes values from `10 ^ -5` up to `10 ^ 16` in positional form and others with an exponent. -/
def Scaled.withExponent (s : Scaled) : List Char :=
  let digits := Nat.toDigits 10 s.digits
  let point := s.exponent + digits.length
  if s.digits = 0 then "0.0".toList
  else if 0 ≤ s.exponent ∧ point ≤ 16 then s.positional ++ ".0".toList
  else if -5 < point ∧ point ≤ 16 then s.positional
  else
    let mantissa :=
      match digits with
      | d :: e :: rest => d :: '.' :: e :: rest
      | digits => digits
    mantissa ++ 'e' :: (toString (point - 1)).toList

def signed (negative : Bool) (cs : List Char) : String :=
  String.ofList (if negative then '-' :: cs else cs)

/-- The value `significand * 2 ^ exponent` when it is a whole number. -/
def whole? (significand : Nat) (exponent : Int) : Option Nat :=
  let den := Nat.pow 2 (-exponent).toNat
  if significand % den = 0 then some (significand / den * Nat.pow 2 exponent.toNat) else none

/-- The fewest digits that read back, in positional form; whole numbers have no point. Of two such
decimals that are equally near the larger is written. -/
def plainText (x : Float) : String :=
  match Parts.ofFloat x with
  | .nan => "NaN"
  | .infinite negative => signed negative "inf".toList
  | .finite negative m q => signed negative (shortest .up m q).positional

/-- As `plainText`, but a whole number is written out exactly and followed by `.0`. -/
def pointedText (x : Float) : String :=
  match Parts.ofFloat x with
  | .finite negative m q =>
      match whole? m q with
      | some n => signed negative (Nat.toDigits 10 n ++ ".0".toList)
      | none => plainText x
  | _ => plainText x

/-- The text of a double as a JSON number; JSON has none for infinities and NaN. Of two decimals
that are equally near the one with an even last digit is written. -/
def jsonText? (x : Float) : Option String :=
  match Parts.ofFloat x with
  | .finite negative m q => some (signed negative (shortest .even m q).withExponent)
  | _ => none

end TemplateLogging.Decimal
