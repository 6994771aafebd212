import TemplateLogging.Json.Printer

namespace TemplateLogging.Json

/-- A piece of a quoted string: a character, or a UTF-16 unit given by its number. -/
inductive Piece where
  | char (c : Char)
  | unit (n : Nat)

def hexValue? (c : Char) : Option Nat :=
  if c.isDigit then some (c.toNat - '0'.toNat)
  else if 'a' ≤ c ∧ c ≤ 'f' then some (c.toNat - 'a'.toNat + 10)
  else if 'A' ≤ c ∧ c ≤ 'F' then some (c.toNat - 'A'.toNat + 10)
  else none

def hexUnit? (a b c d : Char) : Option Nat :=
  match hexValue? a, hexValue? b, hexValue? c, hexValue? d with
  | some a, some b, some c, some d => some (((a * 16 + b) * 16 + c) * 16 + d)
  | _, _, _, _ => none

def unescape? (c : Char) : Option Char :=
  if c = '"' ∨ c = '\\' ∨ c = '/' then some c
  else if c = 'b' then some '\x08'
  else if c = 'f' then some '\x0c'
  else if c = 'n' then some '\n'
  else if c = 'r' then some '\r'
  else if c = 't' then some '\t'
  else none

/-- The pieces up to the closing quote, and what follows it. -/
def pieces? : List Char → Option (List Piece × List Char)
  | [] => none
  | c :: cs =>
      if c = '"' then some ([], cs)
      else if c = '\\' then
        match cs with
        | [] => none
        | e :: cs =>
            if e = 'u' then
              match cs with
              | p :: q :: r :: s :: cs =>
                  match hexUnit? p q r s, pieces? cs with
                  | some n, some (pieces, rest) => some (.unit n :: pieces, rest)
                  | _, _ => none
              | _ => none
            else
              match unescape? e, pieces? cs with
              | some d, some (pieces, rest) => some (.char d :: pieces, rest)
              | _, _ => none
      else if c.toNat < 0x20 then none
      else
        match pieces? cs with
        | some (pieces, rest) => some (.char c :: pieces, rest)
        | none => none

def isLead (n : Nat) : Bool :=
  0xD800 ≤ n && n < 0xDC00

def isTrail (n : Nat) : Bool :=
  0xDC00 ≤ n && n < 0xE000

/-- The characters that the pieces write; none when half of a pair stands alone. -/
def joinPieces? : List Piece → Option (List Char)
  | [] => some []
  | .char c :: rest => (joinPieces? rest).map (c :: ·)
  | .unit n :: rest =>
      if isLead n then
        match rest with
        | .unit m :: rest =>
            if isTrail m then
              (joinPieces? rest).map
                (Char.ofNat (0x10000 + (n - 0xD800) * 0x400 + (m - 0xDC00)) :: ·)
            else none
        | _ => none
      else if isTrail n then none
      else (joinPieces? rest).map (Char.ofNat n :: ·)

/-- The string whose opening quote has been read, and what follows it. The string itself is none
when it names half of a surrogate pair. -/
def stringTail? (cs : List Char) : Option (Option String × List Char) :=
  (pieces? cs).map fun (pieces, rest) => ((joinPieces? pieces).map String.ofList, rest)

/-- The member name whose opening quote has been read, and what follows it. The name has escapes
when a backslash stands before the first quote, since a quote inside a name has one in front. -/
def keyTail? (cs : List Char) : Option (Option Key × List Char) :=
  let escaped := (cs.takeWhile (· != '"')).contains '\\'
  (stringTail? cs).map fun (text, rest) => (text.map fun text => { text, escaped }, rest)

end TemplateLogging.Json
