import TemplateLogging.Instrument.Options
import TemplateLogging.Instrument.Preflight
import TemplateLogging.Tree.Edit

namespace TemplateLogging.Tree

/-- An attribute whose name and unquoted value are both printed. -/
def createAttribute (t : Tree) (name value : Expr) (location : Location) :
    Except Fault (NodeId × Tree) := do
  let (attr, t) ← t.create .htmlAttribute location
  let (_, t) ← t.append attr (.print name true) location
  let (valueNode, t) ← t.append attr (.attributeValue .none) location
  let (_, t) ← t.append valueNode (.print value true) location
  return (attr, t)

/-- A node that stands only when there is logging metadata. -/
def createIfMetadata (t : Tree) (body : NodeId) (location : Location) :
    Except Fault (NodeId × Tree) := do
  let (block, t) ← t.create .ifBlock location
  let (cond, t) ← t.append block (.ifCond (.call (.builtin .hasLoggingMetadata) [])) location
  let t ← t.addChild cond body
  return (block, t)

def addConditionalAttribute (t : Tree) (target : NodeId) (name value : Expr) (location : Location) :
    Except Fault Tree := do
  let (attr, t) ← t.createAttribute name value location
  let (block, t) ← t.createIfMetadata attr location
  t.addChild target block

end TemplateLogging.Tree

namespace TemplateLogging.Instrument

/-- A step on a single node: a compiler fault leaves the tree as it was, any other fault ends
everything. -/
abbrev Step : Type → Type :=
  ExceptT CompilerFault (Except Fault)

def Step.fail {α : Type} (contract : Contract) (message : String) (t : Tree) (id : NodeId) :
    Step α := do
  let fault ← liftM (CompilerFault.atNode contract.code message t id)
  throw fault

def xid (key : String) : Expr :=
  .call (.builtin .xid) [.str key]

def markerName (o : InstrumentOptions) : Expr :=
  .plus (.str o.attributeStart) (xid o.markerKey)

def functionAttributeName (o : InstrumentOptions) (number : Nat) : Expr :=
  .plus (.str o.attributeStart) (.plus (xid o.functionKey) (.str (toString number)))

def variableName (o : InstrumentOptions) (number : Nat) : String :=
  o.variableStart ++ toString number

/-- The marker of a block: its id, its configuration or null, and its logonly condition if it has
one. -/
def marker (id : Int64) (block : LogBlock) : Expr :=
  .call (.builtin .makeLoggingMarker)
    (.integer id :: block.config.getD .null :: block.logonly.toList)

/-- The call that a logging function is put off to, with the name of the attribute it stands in. -/
def renderCall (call : LoggingCall) (attributeName : Expr) : Expr :=
  .call (.builtin .renderLoggingAttribute) [.str call.function.name, .list call.args, attributeName]

/-- The place just before the end of a tag. -/
def tagEnd (location : Location) (selfClosing : Bool) : Location :=
  .atPoint location.file (location.stop.offset 0 (if selfClosing then -2 else -1))

/-- The open tag that a block begins with, and the place just before its end. -/
def firstTag? (t : Tree) (id : NodeId) : Except Fault (Option (NodeId × Location)) :=
  match t.child? id 0 with
  | none => .ok none
  | some child => do
      let node ← t.node child
      match node.kind with
      | .openTag _ selfClosing => return some (child, tagEnd node.location selfClosing)
      | _ => return none

def markBlock (o : InstrumentOptions) (t : Tree) (id : NodeId) (block : LogBlock) : Step Tree := do
  match block.loggingId with
  | none =>
      Step.fail .idAssigned ("\x7bvelog " ++ block.name ++ "\x7d has no logging id.") t id
  | some loggingId =>
      match ← liftM (firstTag? t id) with
      | some (tag, place) =>
          liftM (t.addConditionalAttribute tag (markerName o) (marker loggingId block) place)
      | none =>
          Step.fail .openTagFirst
            ("The first child of \x7bvelog " ++ block.name ++ "\x7d is not an HTML open tag.") t id

/-- Moves a computed attribute name into a variable that is bound before the open tag, or before the
attribute where there is none. The attribute prints the variable instead. -/
def hoistName (t : Tree) (id name : NodeId) (openTag : Option NodeId) (varName : String)
    (location : Location) : Except Fault Tree := do
  let (binding, t) ← t.create (.letContent varName) (← t.location name)
  let (reference, t) ← t.create (.print (.varRef varName) true) location
  let t := t.replaceChild id name reference
  let t ← t.addChild binding name
  let anchor := openTag.getD id
  match t.parent? anchor with
  | some parent => t.insertChild parent ((t.childIndex? parent anchor).getD 0) binding
  | none => return t

/-- The name of an attribute as an expression: the text of a literal name, else a variable that is
bound to the name. The last part tells whether a variable was bound. -/
def attributeName (o : InstrumentOptions) (t : Tree) (id name : NodeId) (openTag : Option NodeId)
    (number : Nat) (location : Location) : Except Fault (Expr × Tree × Bool) := do
  match ← t.kind name with
  | .rawText text => return (.str text, t, false)
  | _ =>
      let varName := variableName o number
      let t ← hoistName t id name openTag varName location
      return (.varRef varName, t, true)

/-- Puts a placeholder in double quotes in the place of the value of an attribute. -/
def replaceValue (t : Tree) (id value : NodeId) (placeholder : String) (location : Location) :
    Except Fault Tree := do
  let (quoted, t) ← t.create (.attributeValue .double) location
  let (_, t) ← t.append quoted (.rawText placeholder) location
  return (t.replaceChild id value quoted).removeSubtree value

/-- Where an attribute with a logging call stands: its name, its own location, the open tag around
it if there is one, and the node that its synthetic attribute is added to. -/
structure Site where
  name : NodeId
  location : Location
  openTag : Option NodeId
  target : NodeId

/-- The site of an attribute: the synthetic attribute goes to the open tag, or else to the template
around the attribute. -/
def site (t : Tree) (id : NodeId) : Step Site := do
  match t.child? id 0 with
  | none => Step.fail .attributeNamed "Attribute with a logging function has no name." t id
  | some name =>
      let location ← liftM (t.location id)
      let openTag ← liftM (t.nearestAncestor? id (·.isOpenTag))
      let target ←
        match openTag with
        | some tag => pure (some tag)
        | none => liftM (t.nearestAncestor? id (·.isTemplate))
      match target with
      | some target => return { name, location, openTag, target }
      | none =>
          Step.fail .insideTarget
            "Logging function attribute is outside any open tag or template." t id

/-- Moves the logging call out of the value of an attribute, under a number that is unique in its
template. -/
def moveCall (o : InstrumentOptions) (t : Tree) (id value : NodeId) (call : LoggingCall) (s : Site)
    (number : Nat) : Except Fault (Tree × Bool) := do
  let (name, t, hoisted) ← attributeName o t id s.name s.openTag number s.location
  let t ← t.addConditionalAttribute s.target (functionAttributeName o number) (renderCall call name)
    s.location
  let t ← replaceValue t id value call.function.placeholder s.location
  return (t, hoisted)

end TemplateLogging.Instrument
