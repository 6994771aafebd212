import TemplateLogging.Expr.Source
import TemplateLogging.Tree.Basic

namespace TemplateLogging.Tree

/-- Whether a condition opens its block: it is its parent's first child, or has no parent with
children. -/
def opensBlock (t : Tree) (id : NodeId) : Bool :=
  match (t.parent? id).bind (t.child? · 0) with
  | some first => first = id
  | none => true

def braced (s : String) : String :=
  "\x7b" ++ s ++ "\x7d"

def childSources (part : NodeId → String) (node : Node) : String :=
  String.join (node.children.map part)

/-- The source of the node with the given id. Its children are printed by the given function, and
only where the kind shows them. -/
def nodeSource (t : Tree) (part : NodeId → String) (id : NodeId) (node : Node) : String :=
  match node.kind with
  | .fileSet => "\n".intercalate (node.children.map part)
  | .file path .source => "// " ++ path ++ "\n" ++ childSources part node
  | .file path .dependency => "// " ++ path ++ " (dep)\n" ++ childSources part node
  | .template name .html =>
      braced ("template " ++ name) ++ childSources part node ++ braced "/template"
  | .template name contentKind =>
      braced ("template " ++ name ++ " kind=\"" ++ contentKind.name ++ "\"") ++
        childSources part node ++ braced "/template"
  | .rawText text => text
  | .print e true => braced e.source
  | .print e false => braced ("print " ++ e.source)
  | .openTag name selfClosing =>
      "<" ++ name ++ String.join (node.children.map fun child => " " ++ part child) ++
        (if selfClosing then "/>" else ">")
  | .closeTag name => "</" ++ name ++ ">"
  | .htmlAttribute =>
      match node.children with
      | [] => ""
      | [name] => part name
      | name :: value :: _ => part name ++ "=" ++ part value
  | .attributeValue quotes => quotes.text ++ childSources part node ++ quotes.text
  | .ifBlock => childSources part node ++ braced "/if"
  | .ifCond condition =>
      braced ((if t.opensBlock id then "if " else "elseif ") ++ condition.source) ++
        childSources part node
  | .ifElse => braced "else" ++ childSources part node
  | .letContent varName => braced ("let $" ++ varName) ++ childSources part node ++ braced "/let"
  | .logBlock block =>
      braced ("velog " ++ block.name ++
        (match block.config with
          | some e => " data=\"" ++ e.source ++ "\""
          | none => "") ++
        (match block.logonly with
          | some e => " logonly=\"" ++ e.source ++ "\""
          | none => "")) ++ childSources part node ++ braced "/velog"

/-- The source of a subtree of at most the given number of levels. -/
def sourceLevels (t : Tree) : Nat → NodeId → String
  | 0, _ => ""
  | levels + 1, id =>
      match t.get? id with
      | none => ""
      | some node => t.nodeSource (t.sourceLevels levels) id node

def source (t : Tree) (id : NodeId) : String :=
  t.sourceLevels (t.size + 1) id

end TemplateLogging.Tree
