import TemplateLogging.Expr.Basic
import TemplateLogging.Json.Reader

namespace TemplateLogging

def Builtin.name : Builtin → String
  | xid => "xid"
  | hasLoggingMetadata => "hasLoggingMetadata"
  | makeLoggingMarker => "makeLoggingMarker"
  | renderLoggingAttribute => "renderLoggingAttribute"
  | augmentMap => "augmentMap"
  | ceil => "ceil"
  | floor => "floor"
  | keys => "keys"
  | max => "max"
  | min => "min"
  | parseFloat => "parseFloat"
  | parseInt => "parseInt"
  | round => "round"

def Builtin.all : List Builtin :=
  [xid, hasLoggingMetadata, makeLoggingMarker, renderLoggingAttribute, augmentMap, ceil, floor,
    keys, max, min, parseFloat, parseInt, round]

def Builtin.ofName? (name : String) : Option Builtin :=
  all.find? (·.name == name)

def LoggingFunction.toJson (f : LoggingFunction) : Json :=
  .obj [("name", .str f.name), ("placeholder", .str f.placeholder)]

def LoggingFunction.ofJson? (j : Json) : Option LoggingFunction :=
  match j.fields? [.required "name", .required "placeholder"] with
  | some [some name, some placeholder] => do
      return ⟨← name.toString?, ← placeholder.toString?⟩
  | _ => none

def Callee.toJson : Callee → Json
  | builtin b => .obj [("kind", .str "builtin"), ("function", .str b.name)]
  | logging f => .obj [("kind", .str "logging"), ("function", f.toJson)]
  | user name => .obj [("kind", .str "user"), ("function", .str name)]

def Callee.kinds : List String :=
  ["builtin", "logging", "user"]

def Callee.ofJson? (j : Json) : Option Callee := do
  let (kind, function) ←
    j.labelled? "kind" "function" Json.toInnerName? (Json.toInnerTag? kinds)
  match kind with
  | "builtin" => return .builtin (← function.toInnerName?.bind Builtin.ofName?)
  | "logging" => return .logging (← LoggingFunction.ofJson? function)
  | "user" => return .user (← function.toString?)
  | _ => none

namespace Expr

mutual

def toJson : Expr → Json
  | null => .obj [("type", .str "null")]
  | bool b => .obj [("type", .str "bool"), ("value", .bool b)]
  | integer n => .obj [("type", .str "integer"), ("value", .int n.toInt)]
  | float x => .obj [("type", .str "float"), ("value", .float x)]
  | str s => .obj [("type", .str "str"), ("value", .str s)]
  | varRef name => .obj [("type", .str "var-ref"), ("name", .str name)]
  | list items => .obj [("type", .str "list"), ("items", .arr (listToJson items))]
  | protoInit typeName fields =>
      .obj [("type", .str "proto-init"), ("type_name", .str typeName),
        ("fields", .arr (fieldsToJson fields))]
  | plus left right =>
      .obj [("type", .str "plus"), ("left", left.toJson), ("right", right.toJson)]
  | call callee args =>
      .obj [("type", .str "call"), ("function", callee.toJson), ("args", .arr (listToJson args))]

def listToJson : List Expr → List Json
  | [] => []
  | e :: rest => e.toJson :: listToJson rest

def fieldsToJson : List (String × Expr) → List Json
  | [] => []
  | (name, e) :: rest => .arr [.str name, e.toJson] :: fieldsToJson rest

end

def tags : List String :=
  ["null", "bool", "integer", "float", "str", "var-ref", "list", "proto-init", "plus", "call"]

def field? (read : Json → Option Expr) : Json → Option (String × Expr)
  | .arr [.str name, j] => (read j).map fun e => (name, e)
  | _ => none

/-- Reads the fields of the form with the given tag, the parts by the given reader. -/
def ofRecord? (read : Json → Option Expr) (tag : String) (record : Json) : Option Expr :=
  match tag with
  | "null" => record.noFields?.map fun _ => .null
  | "bool" => do return .bool (← (← record.oneField? "value").toBool?)
  | "integer" => do return .integer (← (← record.oneField? "value").toInt64?)
  | "float" => do return .float (← (← record.oneField? "value").toFloat?)
  | "str" => do return .str (← (← record.oneField? "value").toString?)
  | "var-ref" => do return .varRef (← (← record.oneField? "name").toString?)
  | "list" => do return .list (← (← record.oneField? "items").toList? read)
  | "proto-init" => do
      let (typeName, fields) ← record.twoFields? "type_name" "fields"
      return .protoInit (← typeName.toString?) (← fields.toList? (field? read))
  | "plus" => do
      let (left, right) ← record.twoFields? "left" "right"
      return .plus (← read left) (← read right)
  | "call" => do
      let (callee, args) ← record.twoFields? "function" "args"
      return .call (← Callee.ofJson? callee) (← args.toList? read)
  | _ => none

/-- Reads an expression of at most the given number of levels inside a tagged value. -/
def readInner? : Nat → Json → Option Expr
  | 0, _ => none
  | levels + 1, j => do
      let (tag, record) ← j.tagged? "type" (Json.toInnerTag? tags)
      ofRecord? (readInner? levels) tag record

/-- The expression that a JSON value inside a tagged value describes. Each level of an expression is
a level of its value. -/
def ofInner? (j : Json) : Option Expr :=
  readInner? j.depth j

/-- The expression that a JSON value of its own describes. -/
def ofJson? (j : Json) : Option Expr := do
  let (tag, record) ← (← j.readable?).tagged? "type" Json.toString?
  ofRecord? ofInner? tag record

end Expr

end TemplateLogging
