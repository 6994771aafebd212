import TemplateLogging.Expr.Basic
import TemplateLogging.Value.Basic

namespace TemplateLogging

/-- A file of the unit being compiled, or one that was compiled and instrumented on its own. -/
inductive FileKind where
  | source
  | dependency
deriving DecidableEq

inductive Quotes where
  | double
  | single
  | none
deriving DecidableEq

def Quotes.text : Quotes → String
  | double => "\""
  | single => "'"
  | none => ""

/-- A logging block. Its id is assigned from the logging configuration. -/
structure LogBlock where
  name : String
  loggingId : Option Int64
  config : Option Expr
  logonly : Option Expr

inductive NodeKind where
  | fileSet
  | file (path : String) (kind : FileKind)
  | template (name : String) (contentKind : ContentKind)
  | rawText (text : String)
  | print (expr : Expr) (isImplicit : Bool)
  /-- The children are the attributes and the control flow around them. -/
  | openTag (name : String) (selfClosing : Bool)
  | closeTag (name : String)
  /-- The children are the name and, if there is one, the value. -/
  | htmlAttribute
  | attributeValue (quotes : Quotes)
  | ifBlock
  | ifCond (condition : Expr)
  | ifElse
  | letContent (varName : String)
  | logBlock (block : LogBlock)

namespace NodeKind

def isOpenTag : NodeKind → Bool
  | openTag _ _ => true
  | _ => false

def isTemplate : NodeKind → Bool
  | template _ _ => true
  | _ => false

def isDependencyFile : NodeKind → Bool
  | file _ .dependency => true
  | _ => false

/-- The expressions in a node itself, not in its children. -/
def exprs : NodeKind → List Expr
  | print e _ => [e]
  | ifCond e => [e]
  | logBlock b => b.config.toList ++ b.logonly.toList
  | _ => []

def tag : NodeKind → String
  | fileSet => "file-set"
  | file _ _ => "file"
  | template _ _ => "template"
  | rawText _ => "raw-text"
  | print _ _ => "print"
  | openTag _ _ => "html-open-tag"
  | closeTag _ => "html-close-tag"
  | htmlAttribute => "html-attribute"
  | attributeValue _ => "html-attribute-value"
  | ifBlock => "if"
  | ifCond _ => "if-cond"
  | ifElse => "if-else"
  | letContent _ => "let-content"
  | logBlock _ => "ve-log"

end NodeKind

end TemplateLogging
