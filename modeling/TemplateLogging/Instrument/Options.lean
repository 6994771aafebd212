import TemplateLogging.Json.Parser
import TemplateLogging.Json.Printer
import TemplateLogging.Json.Reader

namespace TemplateLogging

/-- The names that instrumented templates use. -/
structure InstrumentOptions where
  /-- Begins the name of every synthetic attribute. -/
  attributeStart : String := "data-"
  /-- Key of the attribute with the marker of a block. -/
  markerKey : String := "soylog"
  /-- Key of the attributes of logging functions, before their number. -/
  functionKey : String := "soyloggingfunction-"
  /-- Begins the name of a variable that holds a computed attribute name. -/
  variableStart : String := "soy_logging_function_attribute_"
deriving DecidableEq

namespace InstrumentOptions

def toJson (o : InstrumentOptions) : Json :=
  .obj [("dataAttributePrefix", .str o.attributeStart), ("markerKey", .str o.markerKey),
    ("loggingFunctionKey", .str o.functionKey), ("letVariablePrefix", .str o.variableStart)]

def textField? (default : String) : Option Json → Option String
  | some j => j.toString?
  | none => some default

def ofJson? (j : Json) : Option InstrumentOptions :=
  let standard : InstrumentOptions := {}
  match j.fields? [.defaulted "dataAttributePrefix", .defaulted "markerKey",
    .defaulted "loggingFunctionKey", .defaulted "letVariablePrefix"] with
  | some [attributeStart, markerKey, functionKey, variableStart] => do
      return {
        attributeStart := ← textField? standard.attributeStart attributeStart
        markerKey := ← textField? standard.markerKey markerKey
        functionKey := ← textField? standard.functionKey functionKey
        variableStart := ← textField? standard.variableStart variableStart }
  | _ => none

def load? (text : String) : Option InstrumentOptions :=
  (Json.parse? text).bind ofJson?

end InstrumentOptions

structure InstrumentReport where
  files : Nat := 0
  logBlocks : Nat := 0
  functionAttributes : Nat := 0
  letBindings : Nat := 0
deriving DecidableEq

namespace InstrumentReport

def isNoop (r : InstrumentReport) : Bool :=
  r.logBlocks == 0 && r.functionAttributes == 0

def members (r : InstrumentReport) : List (Json.Key × Json) :=
  [("filesInstrumented", .int r.files), ("velogBlocks", .int r.logBlocks),
    ("loggingFunctionAttributes", .int r.functionAttributes), ("letBindings", .int r.letBindings)]

def toJson (r : InstrumentReport) : Json :=
  .obj r.members

end InstrumentReport

end TemplateLogging
