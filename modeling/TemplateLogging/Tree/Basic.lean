import TemplateLogging.Location
import TemplateLogging.Tree.Kind
import TemplateLogging.Tree.Table

/-!
Template trees. All nodes stand in one table under their ids; a node names its parent and lists its
children by id. Nodes may be in the table without being below the root.
-/

namespace TemplateLogging

structure Node where
  id : NodeId
  location : Location
  parent : Option NodeId := none
  children : List NodeId := []
  kind : NodeKind

/-- One compilation unit: its nodes, the root among them, and the source of ids for new nodes. -/
structure Tree where
  root : NodeId
  nodes : Table Node
  ids : IdSource

namespace Tree

def empty : Tree :=
  { root := ⟨0⟩
    nodes := Table.empty.insert ⟨0⟩ { id := ⟨0⟩, location := .unknown, kind := .fileSet }
    ids := ⟨1⟩ }

def get? (t : Tree) (id : NodeId) : Option Node :=
  t.nodes.get? id

def contains (t : Tree) (id : NodeId) : Bool :=
  (t.get? id).isSome

def parent? (t : Tree) (id : NodeId) : Option NodeId :=
  (t.get? id).bind (·.parent)

def children (t : Tree) (id : NodeId) : List NodeId :=
  match t.get? id with
  | some node => node.children
  | none => []

def child? (t : Tree) (id : NodeId) (index : Nat) : Option NodeId :=
  (t.children id)[index]?

/-- The first place of a child among the children of a parent. -/
def childIndex? (t : Tree) (parent child : NodeId) : Option Nat :=
  (t.children parent).idxOf? child

def node (t : Tree) (id : NodeId) : Except Fault Node :=
  match t.get? id with
  | some node => .ok node
  | none => .error (.missingNode id)

def kind (t : Tree) (id : NodeId) : Except Fault NodeKind :=
  (t.node id).map (·.kind)

def location (t : Tree) (id : NodeId) : Except Fault Location :=
  (t.node id).map (·.location)

def size (t : Tree) : Nat :=
  t.nodes.size

def isEmpty (t : Tree) : Bool :=
  t.size ≤ 1

/-- Changes a node, if it is there. -/
def modify (t : Tree) (id : NodeId) (f : Node → Node) : Tree :=
  { t with nodes := t.nodes.modify id f }

def insertNode (t : Tree) (node : Node) : Tree :=
  { t with nodes := t.nodes.insert node.id node }

def eraseNode (t : Tree) (id : NodeId) : Tree :=
  { t with nodes := t.nodes.erase id }

def setKind (t : Tree) (id : NodeId) (kind : NodeKind) : Tree :=
  t.modify id fun node => { node with kind }

theorem get?_modify (t : Tree) (id other : NodeId) (f : Node → Node) :
    (t.modify id f).get? other = if id = other then (t.get? other).map f else t.get? other :=
  t.nodes.get?_modify id other f

theorem get?_insertNode (t : Tree) (node : Node) (other : NodeId) :
    (t.insertNode node).get? other = if node.id = other then some node else t.get? other :=
  t.nodes.get?_insert node.id other node

theorem get?_eraseNode (t : Tree) (id other : NodeId) :
    (t.eraseNode id).get? other = if id = other then none else t.get? other :=
  t.nodes.get?_erase id other

theorem ext {s t : Tree} (hroot : s.root = t.root) (hids : s.ids = t.ids)
    (hget : ∀ id, s.get? id = t.get? id) : s = t := by
  cases s
  cases t
  simp_all only [mk.injEq, true_and, and_true]
  exact Table.ext hget

end Tree

end TemplateLogging
