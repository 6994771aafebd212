import TemplateLogging.Tree.Basic

namespace TemplateLogging.Tree

/-- The pre-order of a subtree, for at most the given number of levels. An id that is not in the
tree contributes nothing, an id that is listed twice contributes twice. -/
def preorder (t : Tree) : Nat → NodeId → List NodeId
  | 0, _ => []
  | levels + 1, id =>
      match t.get? id with
      | none => []
      | some node => id :: node.children.flatMap (t.preorder levels)

/-- How many ids come off the stack while the subtree is worked off, missing ones included. -/
def pops (t : Tree) : Nat → NodeId → Nat
  | 0, _ => 1
  | levels + 1, id =>
      match t.get? id with
      | none => 1
      | some node => node.children.foldr (fun child n => t.pops levels child + n) 1

/-- Works off a stack of pending ids, taking at most `fuel` of them off. -/
def drain (t : Tree) : Nat → List NodeId → List NodeId
  | 0, _ => []
  | _, [] => []
  | fuel + 1, id :: pending =>
      match t.get? id with
      | none => t.drain fuel pending
      | some node => id :: t.drain fuel (node.children ++ pending)

/-- A node and all nodes below it, a node before its children. No chain of distinct nodes is longer
than the table, so the subtree has no more levels than the table has nodes. -/
def descendants (t : Tree) (id : NodeId) : List NodeId :=
  t.drain (t.pops t.size id) [id]

def findAll (t : Tree) (start : NodeId) (test : NodeKind → Bool) : List NodeId :=
  (t.descendants start).filter fun id => (t.get? id).any (test ·.kind)

def climb (t : Tree) (test : NodeKind → Bool) : Nat → Option NodeId → Except Fault (Option NodeId)
  | 0, _ => .error .tooDeep
  | _, none => .ok none
  | fuel + 1, some id => do
      let node ← t.node id
      if test node.kind then return some id else t.climb test fuel node.parent

def nearestAncestor? (t : Tree) (id : NodeId) (test : NodeKind → Bool) :
    Except Fault (Option NodeId) :=
  t.climb test (t.size + 2) (t.parent? id)

/-- Whether `candidate` is reached from `id` by at most the given number of parent links. -/
def reaches (t : Tree) (candidate : NodeId) : Nat → NodeId → Bool
  | 0, id => id = candidate
  | fuel + 1, id =>
      if id = candidate then true
      else
        match t.parent? id with
        | none => false
        | some parent => t.reaches candidate fuel parent

/-- Whether `candidate` is `id` or one of its ancestors; the last parent link may lead out of the
table. -/
def isAncestorOrSelf (t : Tree) (candidate id : NodeId) : Bool :=
  t.reaches candidate (t.size + 1) id

end TemplateLogging.Tree
