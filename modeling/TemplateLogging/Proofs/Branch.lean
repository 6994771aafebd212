import TemplateLogging.Proofs.Contents
import TemplateLogging.Proofs.Rose

/-!
Subtrees as values. A `Branch` is a node with all that is below it; `nodes` is what it puts into the
table when it hangs under a given parent. A `Context` is a tree with one place left open, and `plug`
fills the place with branches.
-/

namespace TemplateLogging

/-- A node apart from its links. -/
structure Item where
  id : NodeId
  kind : NodeKind
  location : Location

def Item.toNode (a : Item) (parent : Option NodeId) (children : List NodeId) : Node :=
  { id := a.id, location := a.location, parent, children, kind := a.kind }

def Node.item (n : Node) : Item :=
  { id := n.id, kind := n.kind, location := n.location }

abbrev Branch : Type :=
  Rose Item

namespace Rose

def id (b : Branch) : NodeId :=
  b.label.id

def kind (b : Branch) : NodeKind :=
  b.label.kind

def ids (b : Branch) : List NodeId :=
  b.labels.map (·.id)

def idsAll (bs : List Branch) : List NodeId :=
  (labelsAll bs).map (·.id)

mutual

/-- The nodes of a branch in the table, its first node with the given parent link. -/
def nodes (parent : Option NodeId) : Branch → Multiset Node
  | node a cs => {a.toNode parent (cs.map id)} + nodesAll (some a.id) cs

def nodesAll (parent : Option NodeId) : List Branch → Multiset Node
  | [] => 0
  | b :: bs => b.nodes parent + nodesAll parent bs

end

variable {parent : Option NodeId}

@[simp] theorem id_node (a : Item) (cs : List Branch) : id (node a cs) = a.id :=
  rfl

@[simp] theorem kind_node (a : Item) (cs : List Branch) : kind (node a cs) = a.kind :=
  rfl

@[simp] theorem idsAll_nil : idsAll [] = [] :=
  rfl

theorem idsAll_cons (b : Branch) (bs : List Branch) : idsAll (b :: bs) = b.ids ++ idsAll bs := by
  rw [idsAll, labelsAll, List.map_append]
  rfl

theorem ids_node (a : Item) (cs : List Branch) : ids (node a cs) = a.id :: idsAll cs := by
  rw [ids, labels, List.map_cons]
  rfl

theorem id_mem_ids (b : Branch) : b.id ∈ b.ids :=
  List.mem_map_of_mem (label_mem_labels b)

@[simp] theorem nodesAll_nil : nodesAll parent [] = 0 := by
  rw [nodesAll]

theorem nodesAll_singleton (b : Branch) : nodesAll parent [b] = b.nodes parent := by
  rw [nodesAll, nodesAll, add_zero]

theorem nodesAll_append (bs cs : List Branch) :
    nodesAll parent (bs ++ cs) = nodesAll parent bs + nodesAll parent cs := by
  induction bs with
  | nil => rw [List.nil_append, nodesAll_nil, zero_add]
  | cons b bs ih => rw [List.cons_append, nodesAll, nodesAll, ih, add_assoc]

mutual

theorem map_item_nodes : ∀ (parent : Option NodeId) (b : Branch),
    (b.nodes parent).map Node.item = ↑b.labels
  | parent, node a cs => by
      rw [nodes, Multiset.map_add, Multiset.map_singleton, map_item_nodesAll (some a.id) cs, labels]
      rfl

theorem map_item_nodesAll : ∀ (parent : Option NodeId) (bs : List Branch),
    (nodesAll parent bs).map Node.item = ↑(labelsAll bs)
  | parent, [] => by
      rw [nodesAll_nil]
      rfl
  | parent, b :: bs => by
      rw [nodesAll, Multiset.map_add, map_item_nodes parent b, map_item_nodesAll parent bs,
        labelsAll]
      rfl

end

theorem map_id_nodes (parent : Option NodeId) (b : Branch) :
    (b.nodes parent).map (·.id) = ↑b.ids := by
  rw [ids, ← Multiset.map_coe, ← map_item_nodes parent b, Multiset.map_map]
  rfl

theorem map_id_nodesAll (parent : Option NodeId) (bs : List Branch) :
    (nodesAll parent bs).map (·.id) = ↑(idsAll bs) := by
  rw [idsAll, ← Multiset.map_coe, ← map_item_nodesAll parent bs, Multiset.map_map]
  rfl

theorem mem_ids_iff (parent : Option NodeId) {b : Branch} {x : NodeId} :
    x ∈ b.ids ↔ ∃ n ∈ b.nodes parent, n.id = x := by
  rw [← Multiset.mem_coe, ← map_id_nodes parent b, Multiset.mem_map]

theorem item_mem_labels {parent : Option NodeId} {b : Branch} {n : Node} (h : n ∈ b.nodes parent) :
    n.item ∈ b.labels := by
  rw [← Multiset.mem_coe, ← map_item_nodes parent b]
  exact Multiset.mem_map_of_mem _ h

theorem exists_node_of_mem_labels (parent : Option NodeId) {b : Branch} {a : Item}
    (h : a ∈ b.labels) : ∃ n ∈ b.nodes parent, n.item = a := by
  rw [← Multiset.mem_coe, ← map_item_nodes parent b] at h
  exact Multiset.mem_map.mp h

end Rose

/-- A tree with an open place among the children of a node. `top` is the place above all nodes. -/
inductive Context where
  | top
  | within (outer : Context) (item : Item) (before after : List Branch)

namespace Context

def plug : Context → List Branch → List Branch
  | top, bs => bs
  | within outer a before after, bs => outer.plug [.node a (before ++ bs ++ after)]

/-- The node that has the open place among its children. -/
def parent? : Context → Option NodeId
  | top => none
  | within _ a _ _ => some a.id

/-- The nodes of a context when the open place holds the node `hole`. -/
def nodes : Context → NodeId → Multiset Node
  | top, _ => 0
  | within outer a before after, hole =>
      {a.toNode outer.parent? (before.map Rose.id ++ hole :: after.map Rose.id)} +
        (Rose.nodesAll (some a.id) before + Rose.nodesAll (some a.id) after) + outer.nodes a.id

/-- All of a context but the node that has the open place among its children. -/
def around : Context → Multiset Node
  | top => 0
  | within outer a before after =>
      Rose.nodesAll (some a.id) before + Rose.nodesAll (some a.id) after + outer.nodes a.id

/-- The nodes on the way to the open place, from there upwards. -/
def items : Context → List Item
  | top => []
  | within outer a _ _ => a :: outer.items

/-- The same place with branches added on its left and on its right. -/
def widen (before after : List Branch) : Context → Context
  | top => top
  | within outer a l r => within outer a (l ++ before) (after ++ r)

theorem nodesAll_plug_singleton (ctx : Context) (b : Branch) :
    Rose.nodesAll none (ctx.plug [b]) = b.nodes ctx.parent? + ctx.nodes b.id := by
  induction ctx generalizing b with
  | top => rw [plug, Rose.nodesAll_singleton, nodes, add_zero, parent?]
  | within outer a before after ih =>
      rw [plug, ih, Rose.nodes, Rose.nodesAll_append, Rose.nodesAll_append,
        Rose.nodesAll_singleton, Rose.id_node, nodes, parent?]
      simp only [List.map_append, List.map_cons, List.append_assoc, List.singleton_append]
      abel

theorem nodesAll_plug_within (outer : Context) (a : Item) (before after bs : List Branch) :
    Rose.nodesAll none ((within outer a before after).plug bs) =
      {a.toNode outer.parent? (before.map Rose.id ++ bs.map Rose.id ++ after.map Rose.id)} +
        (Rose.nodesAll (some a.id) bs + (within outer a before after).around) := by
  rw [plug, nodesAll_plug_singleton, Rose.nodes, Rose.id_node, Rose.nodesAll_append,
    Rose.nodesAll_append, List.map_append, List.map_append, around]
  abel

theorem plug_widen (outer : Context) (a : Item) (l r before after bs : List Branch) :
    (widen before after (within outer a l r)).plug bs =
      (within outer a l r).plug (before ++ bs ++ after) := by
  simp only [widen, plug, List.append_assoc]

theorem plug_singleton (outer : Context) (a : Item) (before after : List Branch) (b : Branch) :
    (within outer a before after).plug [b] = (within outer a before []).plug (b :: after) := by
  rw [plug, plug, List.append_assoc, List.singleton_append, List.append_nil]

theorem plug_snoc (outer : Context) (a : Item) (before bs : List Branch) (b : Branch) :
    (within outer a (before ++ [b]) []).plug bs = (within outer a before []).plug (b :: bs) := by
  rw [plug, plug, List.append_assoc before, List.singleton_append]

theorem plug_nil (outer : Context) (a : Item) (cs : List Branch) :
    (within outer a cs []).plug [] = outer.plug [.node a cs] := by
  rw [plug, List.append_nil, List.append_nil]

end Context

end TemplateLogging
