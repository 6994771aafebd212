import TemplateLogging.Tree.Basic

namespace TemplateLogging

inductive LinkProblem where
  | rootMissing (root : NodeId)
  | rootHasParent (root : NodeId)
  | wrongKey (id key : NodeId)
  | unlisted (id parent : NodeId)
  | lostChild (id child : NodeId)
deriving DecidableEq

def LinkProblem.message : LinkProblem → String
  | rootMissing root => "root " ++ root.typedText ++ " is not in the node table"
  | rootHasParent root => "root " ++ root.typedText ++ " has a parent"
  | wrongKey id key => "node " ++ id.typedText ++ " is stored under key " ++ key.typedText
  | unlisted id parent =>
      "node " ++ id.typedText ++ " names parent " ++ parent.typedText ++ ", which does not list it"
  | lostChild id child =>
      "node " ++ id.typedText ++ " lists child " ++ child.typedText ++
        ", which is missing or detached"

namespace Tree

/-- The first broken link of the node under a key: its id, then its parent, then its children. -/
def nodeProblem? (t : Tree) (key : NodeId) (node : Node) : Option LinkProblem :=
  if key ≠ node.id then some (.wrongKey node.id key)
  else
    match node.parent.filter fun parent => key ∉ t.children parent with
    | some parent => some (.unlisted key parent)
    | none =>
        (node.children.find? fun child => t.parent? child ≠ some key).map fun child =>
          .lostChild key child

/-- The first broken link of a tree: the root, then the nodes by ascending key. -/
def linkProblem? (t : Tree) : Option LinkProblem :=
  match t.get? t.root with
  | none => some (.rootMissing t.root)
  | some root =>
      if root.parent.isSome then some (.rootHasParent t.root)
      else t.nodes.entries.findSome? fun (key, node) => t.nodeProblem? key node

end Tree

end TemplateLogging
