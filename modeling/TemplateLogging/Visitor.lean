import TemplateLogging.CompilerFault

/-!
Walks through a tree that may change the tree on their way. A walk is pre-order. The children of a
node are listed when the walk comes to them: nodes that are added to the list later are not visited,
and nodes that have left the tree by then are skipped.
-/

namespace TemplateLogging

/-- An action on a state of type `σ` and a tree. A compiler fault ends it and keeps the changes made
so far; any other fault ends everything. -/
abbrev Walk (σ : Type) : Type → Type :=
  ExceptT CompilerFault (StateT (σ × Tree) (Except Fault))

namespace Walk

variable {σ α : Type}

def tree : Walk σ Tree := do
  return (← get).2

def setTree (t : Tree) : Walk σ Unit :=
  modify fun (s, _) => (s, t)

def state : Walk σ σ := do
  return (← get).1

def setState (s : σ) : Walk σ Unit :=
  modify fun (_, t) => (s, t)

def attempt (step : Except Fault α) : Walk σ α :=
  liftM step

end Walk

/-- What a walk does at a node. `node` is called for every node but the first, and goes on with the
walk at that node; the other hooks are called for nodes of their kind, `other` for all remaining
kinds, and go on with the children. -/
structure Visitor (σ : Type) where
  node : (NodeId → Walk σ Unit) → NodeId → Walk σ Unit := fun walk id => walk id
  file : (NodeId → Walk σ Unit) → NodeId → Walk σ Unit := fun children id => children id
  template : (NodeId → Walk σ Unit) → NodeId → Walk σ Unit := fun children id => children id
  openTag : (NodeId → Walk σ Unit) → NodeId → Walk σ Unit := fun children id => children id
  htmlAttribute : (NodeId → Walk σ Unit) → NodeId → Walk σ Unit := fun children id => children id
  logBlock : (NodeId → Walk σ Unit) → NodeId → Walk σ Unit := fun children id => children id
  other : (NodeId → Walk σ Unit) → NodeId → Walk σ Unit := fun children id => children id

namespace Visitor

variable {σ : Type}

def hook (v : Visitor σ) : NodeKind → (NodeId → Walk σ Unit) → NodeId → Walk σ Unit
  | .file _ _ => v.file
  | .template _ _ => v.template
  | .openTag _ _ => v.openTag
  | .htmlAttribute => v.htmlAttribute
  | .logBlock _ => v.logBlock
  | _ => v.other

/-- Visits the listed nodes that are in the tree when their turn comes. -/
def visitEach (v : Visitor σ) (walk : NodeId → Walk σ Unit) : List NodeId → Walk σ Unit
  | [] => pure ()
  | id :: rest => do
      if (← Walk.tree).contains id then v.node walk id
      v.visitEach walk rest

/-- Visits the children that a node has now. -/
def visitChildren (v : Visitor σ) (walk : NodeId → Walk σ Unit) (id : NodeId) : Walk σ Unit := do
  v.visitEach walk ((← Walk.tree).children id)

/-- Walks at a node through at most the given number of levels. -/
def walk (v : Visitor σ) : Nat → NodeId → Walk σ Unit
  | 0, _ => Walk.attempt (.error .tooDeep)
  | levels + 1, id => do
      match (← Walk.tree).get? id with
      | none => pure ()
      | some node => v.hook node.kind (v.visitChildren (v.walk levels)) id

/-- Walks from the root, whatever its kind, with the hook for other nodes. -/
def walkRoot (v : Visitor σ) (levels : Nat) : Walk σ Unit := do
  v.other (v.visitChildren (v.walk levels)) (← Walk.tree).root

end Visitor

end TemplateLogging
