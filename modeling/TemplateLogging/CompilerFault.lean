import TemplateLogging.Tree.Source

namespace TemplateLogging

/-- What the instrumentation relies on. -/
inductive Contract where
  | openTagFirst
  | oneLoggingCall
  | idAssigned
  | attributeNamed
  | insideTarget
deriving DecidableEq

namespace Contract

def all : List Contract :=
  [openTagFirst, oneLoggingCall, idAssigned, attributeNamed, insideTarget]

def code : Contract → String
  | openTagFirst => "VELOG001"
  | oneLoggingCall => "VELOG002"
  | idAssigned => "VELOG003"
  | attributeNamed => "VELOG004"
  | insideTarget => "VELOG005"

def guarantee : Contract → String
  | openTagFirst => "The first child of a \x7bvelog\x7d block is an HTML open tag."
  | oneLoggingCall => "An HTML attribute value contains at most one logging function call."
  | idAssigned =>
      "Every \x7bvelog\x7d block has a logging id assigned from the logging configuration."
  | attributeNamed => "Every HTML attribute has a name."
  | insideTarget => "A logging function attribute is always inside an open tag or a template."

end Contract

/-- A broken contract, where it was found, and the source of the node there. -/
structure CompilerFault where
  code : String
  message : String
  file : String
  line : Nat
  column : Nat
  context : Option String := none
deriving DecidableEq

namespace CompilerFault

def errorType : String := "INTERNAL_COMPILER_FAULT"

/-- The contract that the code names. -/
def guarantee (f : CompilerFault) : String :=
  match Contract.all.find? (·.code == f.code) with
  | some contract => contract.guarantee
  | none => "Unknown invariant."

def text (f : CompilerFault) : String :=
  f.code ++ ": " ++ f.message ++ " (" ++ f.file ++ ":" ++ toString f.line ++ ":" ++
    toString f.column ++ ")"

/-- A fault at the start of a node. -/
def atNode (code message : String) (t : Tree) (id : NodeId) : Except Fault CompilerFault := do
  let location ← t.location id
  return {
    code
    message
    file := location.file
    line := location.start.line
    column := location.start.column
    context := some (t.source id) }

end CompilerFault

end TemplateLogging
