import TemplateLogging.Json.Parser
import TemplateLogging.Json.Reader

namespace TemplateLogging

/-- A logging element. Blocks of its name may attach metadata of its type. -/
structure LoggingElement where
  name : String
  id : Int64
  protoType : Option String := none
deriving DecidableEq

/-- Why a configuration is not valid, or does not fit a tree. -/
inductive LoggingError where
  | duplicateName (name : String)
  | duplicateId (id : Int64) (first second : String)
  | unknownElement (name file : String) (line : Nat)
  | idAlreadyAssigned (name : String) (existing new : Int64)
deriving DecidableEq

def LoggingError.message : LoggingError → String
  | duplicateName name => "logging element name '" ++ name ++ "' is configured more than once"
  | duplicateId id first second =>
      "logging id " ++ toString id.toInt ++ " is used by both '" ++ first ++ "' and '" ++ second ++
        "'"
  | unknownElement name file line =>
      "\x7bvelog " ++ name ++ "\x7d at " ++ file ++ ":" ++ toString line ++
        " does not match any configured logging element"
  | idAlreadyAssigned name existing new =>
      "\x7bvelog " ++ name ++ "\x7d already has logging id " ++ toString existing.toInt ++
        ", refusing to reassign " ++ toString new.toInt

namespace LoggingElement

def toJson (e : LoggingElement) : Json :=
  .obj [("name", .str e.name), ("id", .int e.id.toInt),
    ("protoType", (e.protoType.map .str).getD .null)]

def ofJson? (j : Json) : Option LoggingElement :=
  match j.fields? [.required "name", .required "id", .defaulted "protoType"] with
  | some [some name, some id, protoType] => do
      return {
        name := ← name.toString?
        id := ← id.toInt64?
        protoType := ← (protoType.getD .null).toOption? Json.toString? }
  | _ => none

/-- The element and the elements before it that it repeats: a repeated name counts before a repeated
id. -/
def clash? (earlier : List LoggingElement) (e : LoggingElement) : Option LoggingError :=
  if earlier.any (·.name = e.name) then some (.duplicateName e.name)
  else (earlier.find? (·.id = e.id)).map fun first => .duplicateId e.id first.name e.name

/-- The first element that repeats one before it. -/
def firstClash? (earlier : List LoggingElement) : List LoggingElement → Option LoggingError
  | [] => none
  | e :: rest =>
      match clash? earlier e with
      | some error => some error
      | none => firstClash? (earlier ++ [e]) rest

end LoggingElement

/-- A configuration as it is written, with elements in any order. -/
structure LoggingConfig where
  elements : List LoggingElement := []

/-- A configuration in which no element repeats a name or an id. -/
structure ValidLoggingConfig where
  elements : List LoggingElement
  noClash : LoggingElement.firstClash? [] elements = none

namespace LoggingConfig

def add (c : LoggingConfig) (e : LoggingElement) : LoggingConfig :=
  ⟨c.elements ++ [e]⟩

def ofJson? (j : Json) : Option LoggingConfig :=
  match j.fields? [.defaulted "elements"] with
  | some [elements] => do
      return ⟨← (elements.getD (.arr [])).toList? LoggingElement.ofJson?⟩
  | _ => none

def load? (text : String) : Option LoggingConfig :=
  (Json.parse? text).bind ofJson?

def validate (c : LoggingConfig) : Except LoggingError ValidLoggingConfig :=
  match h : LoggingElement.firstClash? [] c.elements with
  | some error => .error error
  | none => .ok ⟨c.elements, h⟩

end LoggingConfig

namespace ValidLoggingConfig

def find? (c : ValidLoggingConfig) (name : String) : Option LoggingElement :=
  c.elements.find? (·.name = name)

def size (c : ValidLoggingConfig) : Nat :=
  c.elements.length

def isEmpty (c : ValidLoggingConfig) : Bool :=
  c.elements.isEmpty

end ValidLoggingConfig

end TemplateLogging
