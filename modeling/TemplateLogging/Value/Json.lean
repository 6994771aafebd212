import TemplateLogging.Json.Reader
import TemplateLogging.Value.Basic

namespace TemplateLogging

def SanitizedContent.ofJson? (j : Json) : Option SanitizedContent :=
  match j.fields? [.required "content", .required "kind", .nullable "dir"] with
  | some [some content, some kind, some direction] => do
      return {
        content := ← content.toString?
        kind := ← kind.toName?.bind ContentKind.ofName?
        direction := ← direction.toOption? fun j => j.toName?.bind Direction.ofName? }
  | _ => none

namespace Value

/-- Reads the content of a value of the given type, the values in it by the given reader. Of two
entries for one key the later counts. -/
def ofContent? (read : Json → Option Value) (type : String) (content : Json) : Option Value :=
  match type with
  | "null" => content.toNull?.map fun _ => .null
  | "bool" => content.toBool?.map .bool
  | "integer" => content.toInt64?.map .integer
  | "float" => content.toFloat?.map .float
  | "string" => content.toString?.map .string
  | "list" => (content.toList? read).map .list
  | "map" => do
      let entries ← (← content.toMembers?).mapM fun (key, j) => return (key.text, ← read j)
      return .map (Entries.insertAll [] entries)
  | "sanitized" => (SanitizedContent.ofJson? content).map .sanitized
  | _ => none

def read? : Nat → Json → Option Value
  | 0, _ => none
  | levels + 1, j => do
      let (type, content) ← j.labelled? "type" "value" Json.toName? Json.toString?
      ofContent? (read? levels) type content

/-- The value that a JSON value describes. Each level of a value is a level of its JSON value. -/
def ofJson? (j : Json) : Option Value :=
  read? j.depth j

end Value

end TemplateLogging
