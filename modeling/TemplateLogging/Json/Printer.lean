import TemplateLogging.Decimal.Notation
import TemplateLogging.Json.Basic

namespace TemplateLogging.Json

def hexDigits (n : Nat) : List Char :=
  [Nat.digitChar (n / 16 % 16), Nat.digitChar (n % 16)]

/-- Quotes, backslashes and control characters are escaped, the usual ones by a letter. -/
def escapeChar (c : Char) : List Char :=
  if c = '"' then ['\\', '"']
  else if c = '\\' then ['\\', '\\']
  else if c = '\x08' then ['\\', 'b']
  else if c = '\x0c' then ['\\', 'f']
  else if c = '\n' then ['\\', 'n']
  else if c = '\r' then ['\\', 'r']
  else if c = '\t' then ['\\', 't']
  else if c.toNat < 0x20 then '\\' :: 'u' :: '0' :: '0' :: hexDigits c.toNat
  else [c]

def quoted (s : String) : List Char :=
  '"' :: (s.toList.flatMap escapeChar ++ ['"'])

def intChars (n : Int) : List Char :=
  match n with
  | .ofNat n => Nat.toDigits 10 n
  | .negSucc n => '-' :: Nat.toDigits 10 (n + 1)

mutual

def chars : Json → List Char
  | null => ['n', 'u', 'l', 'l']
  | bool true => ['t', 'r', 'u', 'e']
  | bool false => ['f', 'a', 'l', 's', 'e']
  | int n => intChars n
  | float x => ((Decimal.jsonText? x).getD "null").toList
  | str s => quoted s
  | arr [] => ['[', ']']
  | arr (j :: rest) => '[' :: (j.chars ++ moreItems rest)
  | obj [] => ['\x7b', '\x7d']
  | obj ((key, j) :: rest) =>
      '\x7b' :: (quoted key.text ++ ':' :: (j.chars ++ moreMembers rest))
  | unreadable => ['n', 'u', 'l', 'l']

/-- Further items of an array, each after a comma, and the closing bracket. -/
def moreItems : List Json → List Char
  | [] => [']']
  | j :: rest => ',' :: (j.chars ++ moreItems rest)

/-- Further members of an object, each after a comma, and the closing brace. -/
def moreMembers : List (Key × Json) → List Char
  | [] => ['\x7d']
  | (key, j) :: rest => ',' :: (quoted key.text ++ ':' :: (j.chars ++ moreMembers rest))

end

def text (j : Json) : String :=
  String.ofList j.chars

end TemplateLogging.Json
