import TemplateLogging.Json.Number
import TemplateLogging.Json.Quoted

namespace TemplateLogging.Json

/-- Drops the white space of JSON: spaces, tabs, line feeds and carriage returns. -/
def skipBlank (cs : List Char) : List Char :=
  cs.dropWhile fun c => c = ' ' || c = '\n' || c = '\t' || c = '\r'

/-- An object, unless one of its names cannot be read. -/
def ofMembers (members : List (Option Key × Json)) : Json :=
  match members.mapM fun (key, j) => key.map fun key => (key, j) with
  | some members => .obj members
  | none => .unreadable

mutual

/-- The value at the front, after white space, and the rest. The number bounds the recursion; the
length of the text is always enough. -/
def value? : Nat → List Char → Option (Json × List Char)
  | 0, _ => none
  | fuel + 1, cs =>
      match skipBlank cs with
      | [] => none
      | c :: cs =>
          if c = '\x7b' then
            match skipBlank cs with
            | [] => none
            | d :: ds =>
                if d = '\x7d' then some (.obj [], ds)
                else (members? fuel (d :: ds)).map fun (members, rest) => (ofMembers members, rest)
          else if c = '[' then
            match skipBlank cs with
            | [] => none
            | d :: ds =>
                if d = ']' then some (.arr [], ds)
                else (items? fuel (d :: ds)).map fun (items, rest) => (.arr items, rest)
          else if c = '"' then
            (stringTail? cs).map fun (s, rest) => ((s.map Json.str).getD .unreadable, rest)
          else if c = 'n' then
            if cs.take 3 = "ull".toList then some (.null, cs.drop 3) else none
          else if c = 't' then
            if cs.take 3 = "rue".toList then some (.bool true, cs.drop 3) else none
          else if c = 'f' then
            if cs.take 4 = "alse".toList then some (.bool false, cs.drop 4) else none
          else number? (c :: cs)

/-- The items up to the closing bracket, at least one. -/
def items? : Nat → List Char → Option (List Json × List Char)
  | 0, _ => none
  | fuel + 1, cs =>
      (value? fuel cs).bind fun (j, cs) =>
        match skipBlank cs with
        | [] => none
        | c :: cs =>
            if c = ']' then some ([j], cs)
            else if c = ',' then (items? fuel cs).map fun (items, rest) => (j :: items, rest)
            else none

/-- The members up to the closing brace, at least one. -/
def members? : Nat → List Char → Option (List (Option Key × Json) × List Char)
  | 0, _ => none
  | fuel + 1, cs =>
      match skipBlank cs with
      | [] => none
      | q :: cs =>
          if q = '"' then
            (keyTail? cs).bind fun (key, cs) =>
              match skipBlank cs with
              | [] => none
              | c :: cs =>
                  if c = ':' then
                    (value? fuel cs).bind fun (j, cs) =>
                      match skipBlank cs with
                      | [] => none
                      | c :: cs =>
                          if c = '\x7d' then some ([(key, j)], cs)
                          else if c = ',' then
                            (members? fuel cs).map fun (members, rest) =>
                              ((key, j) :: members, rest)
                          else none
                  else none
          else none

end

/-- Levels of arrays and objects that a readable value may have. -/
def maxDepth : Nat := 127

def parse? (text : String) : Option Json :=
  match value? (text.toList.length + 1) text.toList with
  | some (j, rest) => if (skipBlank rest).isEmpty then some (clip maxDepth j) else none
  | none => none

end TemplateLogging.Json
