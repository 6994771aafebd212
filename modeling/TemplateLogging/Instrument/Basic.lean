import TemplateLogging.Instrument.Step
import TemplateLogging.Visitor

/-!
Instrumentation of a file set for logging. Files that are dependencies are left alone. Logging
blocks are replaced by their children once their open tags carry their markers; logging calls in
attribute values move into attributes of their own. A tree that breaks a contract is refused before
anything is changed.
-/

namespace TemplateLogging.Instrument

/-- What the walk keeps besides the tree. -/
structure Progress where
  counter : SyntheticCounter := {}
  report : InstrumentReport := {}

abbrev Pass : Type → Type :=
  Walk Progress

def record (f : InstrumentReport → InstrumentReport) : Pass Unit := do
  let progress ← Walk.state
  Walk.setState { progress with report := f progress.report }

/-- A step on a single node as part of the walk. -/
def run {α : Type} (step : Step α) : Pass α := do
  match ← Walk.attempt step.run with
  | .ok a => return a
  | .error fault => throw fault

def takeNumber : Pass Nat := do
  let progress ← Walk.state
  let (number, counter) ← Walk.attempt progress.counter.take
  Walk.setState { progress with counter }
  return number

def visitFile (children : NodeId → Pass Unit) (id : NodeId) : Pass Unit := do
  let kind ← Walk.attempt ((← Walk.tree).kind id)
  if kind.isDependencyFile then return ()
  record fun r => { r with files := r.files + 1 }
  children id

def visitTemplate (children : NodeId → Pass Unit) (id : NodeId) : Pass Unit := do
  let progress ← Walk.state
  Walk.setState { progress with counter := progress.counter.reset }
  children id

def instrumentBlock (o : InstrumentOptions) (id : NodeId) : Pass Unit := do
  let t ← Walk.tree
  match ← Walk.attempt (t.kind id) with
  | .logBlock block =>
      Walk.setTree (← run (markBlock o t id block))
      record fun r => { r with logBlocks := r.logBlocks + 1 }
  | _ => return ()

/-- Marks a block, goes through its children, and puts them in its place. -/
def visitBlock (o : InstrumentOptions) (children : NodeId → Pass Unit) (id : NodeId) :
    Pass Unit := do
  instrumentBlock o id
  children id
  Walk.setTree (← Walk.attempt ((← Walk.tree).unwrap id))

/-- Moves the logging call in the value of an attribute, if there is one. -/
def instrumentAttribute (o : InstrumentOptions) (id : NodeId) : Pass Unit := do
  let t ← Walk.tree
  match t.attributeValue? id, t.loggingCallsInValue id with
  | some value, call :: _ =>
      let s ← run (site t id)
      let number ← takeNumber
      let (t, hoisted) ← Walk.attempt (moveCall o t id value call s number)
      Walk.setTree t
      record fun r => {
        r with
        functionAttributes := r.functionAttributes + 1
        letBindings := r.letBindings + if hoisted then 1 else 0 }
  | _, _ => return ()

def visitAttribute (o : InstrumentOptions) (children : NodeId → Pass Unit) (id : NodeId) :
    Pass Unit := do
  instrumentAttribute o id
  children id

def visitor (o : InstrumentOptions) : Visitor Progress where
  file := visitFile
  template := visitTemplate
  logBlock := visitBlock o
  htmlAttribute := visitAttribute o

end TemplateLogging.Instrument

namespace TemplateLogging.Tree

/-- Walks through a tree that has passed the check, at most the given number of levels deep. -/
def instrumentWithin (t : Tree) (levels : Nat) (o : InstrumentOptions) :
    Except Fault (Except CompilerFault InstrumentReport × Tree) := do
  let (result, progress, t) ← ((Instrument.visitor o).walkRoot levels).run.run ({}, t)
  return (result.map fun _ => progress.report, t)

/-- Instruments a file set. No chain of distinct nodes is longer than the table, and the nodes that
the walk inserts before itself nest six levels deep at most. -/
def instrument (t : Tree) (o : InstrumentOptions) :
    Except Fault (Except CompilerFault InstrumentReport × Tree) := do
  match ← t.preflight? with
  | some fault => return (.error fault, t)
  | none => t.instrumentWithin (t.size + 6) o

end TemplateLogging.Tree
