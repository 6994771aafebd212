import TemplateLogging.Decimal.Reading
import TemplateLogging.Expr.Json
import TemplateLogging.Json.Parser
import TemplateLogging.Json.Printer
import TemplateLogging.Tree.Links

namespace TemplateLogging

def FileKind.name : FileKind → String
  | source => "src"
  | dependency => "dep"

def FileKind.ofName? (name : String) : Option FileKind :=
  [source, dependency].find? (·.name == name)

def Quotes.name : Quotes → String
  | double => "double"
  | single => "single"
  | none => "none"

def Quotes.ofName? (name : String) : Option Quotes :=
  [double, single, none].find? (·.name == name)

def optionToJson {α : Type} (write : α → Json) : Option α → Json
  | some a => write a
  | none => .null

namespace NodeId

def toJson (id : NodeId) : Json :=
  .int id.index

def ofJson? (j : Json) : Option NodeId :=
  j.toWord?.map fun n => ⟨n⟩

def toKey (id : NodeId) : Json.Key :=
  toString id.index

/-- The id that a member name writes: a number with 32 bits, without leading zeros and escapes. -/
def ofKey? (key : Json.Key) : Option NodeId :=
  let digits := key.text.toList
  let n := Decimal.digitsValue digits
  if key.escaped || digits.isEmpty || !digits.all Char.isDigit || !Json.isWhole digits then none
  else if n ≤ maxWord then some ⟨n⟩
  else none

end NodeId

namespace LogBlock

def members (b : LogBlock) : List (Json.Key × Json) :=
  [("name", .str b.name), ("loggingId", optionToJson (fun n => .int n.toInt) b.loggingId),
    ("config", optionToJson Expr.toJson b.config), ("logonly", optionToJson Expr.toJson b.logonly)]

/-- Reads a field that may be null or absent. -/
def optionField? {α : Type} (read : Json → Option α) (field : Option Json) : Option (Option α) :=
  (field.getD .null).toOption? read

/-- Reads the fields of a log block, which stand beside the tag of its kind. -/
def ofRecord? (record : Json) : Option LogBlock :=
  match record.fields? [.required "name", .defaulted "loggingId", .defaulted "config",
    .defaulted "logonly"] with
  | some [some name, loggingId, config, logonly] => do
      return {
        name := ← name.toString?
        loggingId := ← optionField? Json.toInt64? loggingId
        config := ← optionField? Expr.ofInner? config
        logonly := ← optionField? Expr.ofInner? logonly }
  | _ => none

end LogBlock

namespace NodeKind

def members : NodeKind → List (Json.Key × Json)
  | fileSet => []
  | file path kind => [("path", .str path), ("file_kind", .str kind.name)]
  | template name contentKind => [("name", .str name), ("content_kind", .str contentKind.name)]
  | rawText text => [("text", .str text)]
  | print e isImplicit => [("expr", e.toJson), ("implicit", .bool isImplicit)]
  | openTag name selfClosing => [("tag_name", .str name), ("self_closing", .bool selfClosing)]
  | closeTag name => [("tag_name", .str name)]
  | htmlAttribute => []
  | attributeValue quotes => [("quotes", .str quotes.name)]
  | ifBlock => []
  | ifCond condition => [("condition", condition.toJson)]
  | ifElse => []
  | letContent varName => [("var_name", .str varName)]
  | logBlock block => block.members

def toJson (kind : NodeKind) : Json :=
  .obj (("type", .str kind.tag) :: kind.members)

/-- Reads the fields of the kind with the given tag. -/
def ofRecord? (tag : String) (record : Json) : Option NodeKind :=
  match tag with
  | "file-set" => record.noFields?.map fun _ => .fileSet
  | "file" => do
      let (path, kind) ← record.twoFields? "path" "file_kind"
      return .file (← path.toString?) (← kind.toInnerName?.bind FileKind.ofName?)
  | "template" => do
      let (name, contentKind) ← record.twoFields? "name" "content_kind"
      return .template (← name.toString?) (← contentKind.toInnerName?.bind ContentKind.ofName?)
  | "raw-text" => do return .rawText (← (← record.oneField? "text").toString?)
  | "print" => do
      let (e, isImplicit) ← record.twoFields? "expr" "implicit"
      return .print (← Expr.ofInner? e) (← isImplicit.toBool?)
  | "html-open-tag" => do
      let (name, selfClosing) ← record.twoFields? "tag_name" "self_closing"
      return .openTag (← name.toString?) (← selfClosing.toBool?)
  | "html-close-tag" => do return .closeTag (← (← record.oneField? "tag_name").toString?)
  | "html-attribute" => record.noFields?.map fun _ => .htmlAttribute
  | "html-attribute-value" => do
      return .attributeValue
        (← (← record.oneField? "quotes").toInnerName?.bind Quotes.ofName?)
  | "if" => record.noFields?.map fun _ => .ifBlock
  | "if-cond" => do return .ifCond (← Expr.ofInner? (← record.oneField? "condition"))
  | "if-else" => record.noFields?.map fun _ => .ifElse
  | "let-content" => do return .letContent (← (← record.oneField? "var_name").toString?)
  | "ve-log" => (LogBlock.ofRecord? record).map .logBlock
  | _ => none

def ofJson? (j : Json) : Option NodeKind := do
  let (tag, record) ← (← j.readable?).tagged? "type" Json.toString?
  ofRecord? tag record

end NodeKind

namespace Node

def toJson (node : Node) : Json :=
  .obj [("id", node.id.toJson), ("location", node.location.toJson),
    ("parent", optionToJson NodeId.toJson node.parent),
    ("children", .arr (node.children.map NodeId.toJson)), ("kind", node.kind.toJson)]

def ofJson? (j : Json) : Option Node :=
  match j.fields? [.required "id", .required "location", .nullable "parent", .required "children",
    .required "kind"] with
  | some [some id, some location, some parent, some children, some kind] => do
      return {
        id := ← NodeId.ofJson? id
        location := ← Location.ofJson? location
        parent := ← parent.toOption? NodeId.ofJson?
        children := ← children.toList? NodeId.ofJson?
        kind := ← NodeKind.ofJson? kind }
  | _ => none

end Node

namespace IdSource

def toJson (s : IdSource) : Json :=
  .obj [("nextId", .int s.next)]

def ofJson? (j : Json) : Option IdSource := do
  return ⟨← (← j.oneField? "nextId").toWord?⟩

end IdSource

inductive LoadError where
  | malformed
  | link (problem : LinkProblem)
  | idsExhausted

/-- The message, where the text at least has the form of a tree. -/
def LoadError.message? : LoadError → Option String
  | malformed => none
  | link problem => some problem.message
  | idsExhausted => some "node ids exhausted"

namespace Tree

def toJson (t : Tree) : Json :=
  .obj [("root", t.root.toJson),
    ("nodes", .obj (t.nodes.entries.map fun (key, node) => (key.toKey, node.toJson))),
    ("idGen", t.ids.toJson)]

/-- Adds the node that a member of the node table describes. -/
def insertMember? (nodes : Table Node) (member : Json.Key × Json) : Option (Table Node) := do
  let key ← NodeId.ofKey? member.1
  let node ← Node.ofJson? member.2
  return nodes.insert key node

/-- The tree that a JSON value describes, whatever its links; of two members with one name the later
counts. -/
def ofJson? (j : Json) : Option Tree :=
  match j.fields? [.required "root", .required "nodes", .required "idGen"] with
  | some [some root, some nodes, some ids] => do
      return {
        root := ← NodeId.ofJson? root
        nodes := ← (← nodes.toMembers?).foldlM insertMember? Table.empty
        ids := ← IdSource.ofJson? ids }
  | _ => none

def maxIndex (t : Tree) : Nat :=
  (t.nodes.keys.map (·.index)).foldl max 0

/-- Checks the links and moves the next id past all ids in use. -/
def checked (t : Tree) : Except LoadError Tree :=
  match t.linkProblem? with
  | some problem => .error (.link problem)
  | none =>
      if t.maxIndex < maxWord then .ok { t with ids := ⟨max (t.maxIndex + 1) t.ids.next⟩ }
      else .error .idsExhausted

def load (text : String) : Except LoadError Tree :=
  match (Json.parse? text).bind ofJson? with
  | some t => t.checked
  | none => .error .malformed

def store (t : Tree) : String :=
  t.toJson.text

end Tree

end TemplateLogging
