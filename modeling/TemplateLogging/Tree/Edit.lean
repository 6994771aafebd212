import TemplateLogging.Tree.Traversal

/-!
Changing a tree. A node is the child of at most one parent, so a node is detached from its parent
before it is put elsewhere. An id that is not in the table is left alone wherever the rules below
do not say otherwise.
-/

namespace TemplateLogging.Tree

/-- Adds a detached node with a fresh id. -/
def create (t : Tree) (kind : NodeKind) (location : Location) : Except Fault (NodeId × Tree) := do
  let (id, ids) ← t.ids.take
  return (id, { t with ids }.insertNode { id, location, kind })

/-- Takes a node out of its parent's list; the node stays in the table. -/
def detach (t : Tree) (id : NodeId) : Tree :=
  match t.parent? id with
  | none => t
  | some parent =>
      (t.modify parent fun node => { node with children := node.children.filter (· ≠ id) }).modify
        id fun node => { node with parent := none }

/-- Makes `parent` the parent of a detached child, at a place that is no further than the end of
the list. -/
def attach (t : Tree) (parent : NodeId) (index : Nat) (child : NodeId) : Tree :=
  (t.modify parent fun node =>
    { node with children := node.children.insertIdx (min index node.children.length) child }).modify
      child fun node => { node with parent := some parent }

/-- Puts a child at an index, which counts without the child itself when it already was a child of
the same parent. -/
def insertChild (t : Tree) (parent : NodeId) (index : Nat) (child : NodeId) : Except Fault Tree :=
  if t.isAncestorOrSelf child parent then .error (.cycle child parent)
  else .ok ((t.detach child).attach parent index child)

def addChild (t : Tree) (parent child : NodeId) : Except Fault Tree :=
  t.insertChild parent (t.children parent).length child

def append (t : Tree) (parent : NodeId) (kind : NodeKind) (location : Location) :
    Except Fault (NodeId × Tree) := do
  let (id, t) ← t.create kind location
  let t ← t.addChild parent id
  return (id, t)

/-- Puts `new` into the place of `old`, which is left detached. The new node is detached first, also
when `old` is no child of the parent. -/
def replaceChild (t : Tree) (parent old new : NodeId) : Tree :=
  let t := t.detach new
  match t.childIndex? parent old with
  | none => t
  | some index =>
      let t := t.modify parent fun node => { node with children := node.children.set index new }
      let t := t.modify new fun node => { node with parent := some parent }
      t.modify old fun node => { node with parent := none }

def removeSubtree (t : Tree) (id : NodeId) : Tree :=
  let t := t.detach id
  (t.descendants id).foldl eraseNode t

def insertChildren (t : Tree) (parent : NodeId) (index : Nat) : List NodeId → Except Fault Tree
  | [] => .ok t
  | child :: rest => do
      let t ← t.insertChild parent index child
      t.insertChildren parent (index + 1) rest

/-- Puts the children of a node in its place and drops the node. -/
def unwrap (t : Tree) (id : NodeId) : Except Fault Tree :=
  match t.parent? id with
  | none => .ok t
  | some parent =>
      match t.childIndex? parent id with
      | none => .ok t
      | some index => do
          let t ← t.insertChildren parent (index + 1) (t.children id)
          return t.removeSubtree id

/-- Copies a subtree of at most the given number of levels. A copy gets its id before the copies of
its children, and children that are not in the tree have no copy. -/
def copyLevels : Nat → Tree → NodeId → Except Fault (Option NodeId × Tree)
  | 0, _, _ => .error .tooDeep
  | levels + 1, t, id =>
      match t.get? id with
      | none => .ok (none, t)
      | some node => do
          let (copy, ids) ← t.ids.take
          let step := fun (copies : List NodeId × Tree) (child : NodeId) => do
            let (childCopy?, t) ← copyLevels levels copies.2 child
            match childCopy? with
            | none => return (copies.1, t)
            | some childCopy =>
                return (copies.1 ++ [childCopy],
                  t.modify childCopy fun node => { node with parent := some copy })
          let (children, t) ← node.children.foldlM step ([], { t with ids })
          return (some copy, t.insertNode { node with id := copy, parent := none, children })

/-- Copies a node and all nodes below it with fresh ids; the copy is detached. -/
def copySubtree (t : Tree) (id : NodeId) : Except Fault (Option NodeId × Tree) :=
  copyLevels (t.size + 1) t id

end TemplateLogging.Tree
