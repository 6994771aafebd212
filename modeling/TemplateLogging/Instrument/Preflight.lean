import TemplateLogging.CompilerFault
import TemplateLogging.Tree.Traversal

namespace TemplateLogging.Tree

def attributeValue? (t : Tree) (id : NodeId) : Option NodeId :=
  t.child? id 1

def nodeLoggingCalls (t : Tree) (id : NodeId) : List LoggingCall :=
  match t.get? id with
  | some node => node.kind.exprs.flatMap Expr.loggingCalls
  | none => []

/-- The calls of logging functions in the value of an attribute, in document order. -/
def loggingCallsInValue (t : Tree) (id : NodeId) : List LoggingCall :=
  match t.attributeValue? id with
  | some value => (t.descendants value).flatMap t.nodeLoggingCalls
  | none => []

/-- A block needs a logging id, and an open tag as its first child. -/
def logBlockFault? (t : Tree) (id : NodeId) (block : LogBlock) :
    Except Fault (Option CompilerFault) := do
  if block.loggingId.isNone then
    return some (← CompilerFault.atNode Contract.idAssigned.code
      ("\x7bvelog " ++ block.name ++ "\x7d has no logging id.") t id)
  let openTagFirst ←
    match t.child? id 0 with
    | some child => (·.isOpenTag) <$> t.kind child
    | none => pure false
  if openTagFirst then return none
  return some (← CompilerFault.atNode Contract.openTagFirst.code
    ("The first child of \x7bvelog " ++ block.name ++ "\x7d is not an HTML open tag.") t id)

/-- An attribute with a logging call in its value may have no other, and needs a name and an open
tag or a template around it. -/
def attributeFault? (t : Tree) (id : NodeId) : Except Fault (Option CompilerFault) := do
  let calls := t.loggingCallsInValue id
  if calls.isEmpty then return none
  if calls.length > 1 then
    return some (← CompilerFault.atNode Contract.oneLoggingCall.code
      ("Attribute value calls " ++ toString calls.length ++ " logging functions: " ++
        ", ".intercalate (calls.map (·.function.name)) ++ ".") t id)
  if (t.child? id 0).isNone then
    return some (← CompilerFault.atNode Contract.attributeNamed.code
      "Attribute with a logging function has no name." t id)
  if (← t.nearestAncestor? id fun k => k.isOpenTag || k.isTemplate).isSome then return none
  return some (← CompilerFault.atNode Contract.insideTarget.code
    "Logging function attribute is outside any open tag or template." t id)

def nodeFault? (t : Tree) (id : NodeId) : Except Fault (Option CompilerFault) := do
  match ← t.kind id with
  | .logBlock block => t.logBlockFault? id block
  | .htmlAttribute => t.attributeFault? id
  | _ => return none

def firstFault? (t : Tree) : List NodeId → Except Fault (Option CompilerFault)
  | [] => .ok none
  | id :: rest => do
      match ← t.nodeFault? id with
      | some fault => return some fault
      | none => t.firstFault? rest

def firstFileFault? (t : Tree) : List NodeId → Except Fault (Option CompilerFault)
  | [] => .ok none
  | file :: rest => do
      if (← t.kind file).isDependencyFile then t.firstFileFault? rest
      else
        match ← t.firstFault? (t.descendants file) with
        | some fault => return some fault
        | none => t.firstFileFault? rest

/-- The broken contract that keeps a tree from being instrumented. -/
def preflight? (t : Tree) : Except Fault (Option CompilerFault) :=
  t.firstFileFault? (t.children t.root)

end TemplateLogging.Tree
