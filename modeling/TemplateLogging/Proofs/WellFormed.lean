import TemplateLogging.Proofs.Contents
import TemplateLogging.Tree.Links

namespace TemplateLogging

theorem Table.nodup_keys {α : Type} (t : Table α) : t.keys.Nodup := by
  rw [keys, List.nodup_iff_pairwise_ne, List.pairwise_map]
  refine t.ascending.imp ?_
  intro a b hlt heq
  exact Nat.ne_of_lt hlt (congrArg NodeId.index heq)

/-- A node whose links are given by numbers. -/
def Node.numbered (id : Nat) (parent : Option Nat) (children : List Nat) (kind : NodeKind) :
    Node :=
  { id := ⟨id⟩, location := .unknown, parent := parent.map .mk, children := children.map .mk, kind }

namespace Tree

structure WellFormed (t : Tree) : Prop where
  links : t.linkProblem? = none
  nodup : ∀ id node, t.get? id = some node → node.children.Nodup
  fresh : ∀ id node, t.get? id = some node → id.index < t.ids.next
  fileSet : t.kind t.root = .ok .fileSet

variable {t : Tree}

theorem nodeProblem?_eq_none_iff (key : NodeId) (node : Node) :
    t.nodeProblem? key node = none ↔ node.id = key ∧
      (∀ parent, node.parent = some parent → key ∈ t.children parent) ∧
        ∀ child ∈ node.children, t.parent? child = some key := by
  rw [nodeProblem?]
  by_cases hid : key = node.id
  · subst hid
    rw [if_neg (not_not.mpr rfl)]
    cases hparent : node.parent with
    | none => simp
    | some parent =>
        by_cases hlists : node.id ∈ t.children parent
        · simp [Option.filter, hlists]
        · simp [Option.filter, hlists]
  · rw [if_pos hid]
    simp [Ne.symm hid]

theorem linkProblem?_eq_none_iff :
    t.linkProblem? = none ↔ (∃ root, t.get? t.root = some root ∧ root.parent = none) ∧
      ∀ key node, t.get? key = some node → node.id = key ∧
        (∀ parent, node.parent = some parent → key ∈ t.children parent) ∧
          ∀ child ∈ node.children, t.parent? child = some key := by
  rw [linkProblem?]
  cases hroot : t.get? t.root with
  | none => simp
  | some root =>
      cases hparent : root.parent with
      | some parent => simp [hparent]
      | none =>
          have hentries : ∀ key node, (key, node) ∈ t.nodes.entries ↔ t.get? key = some node :=
            fun key node => Table.mem_entries_iff
          simp only [hparent, Option.isSome_none, Bool.false_eq_true, if_false,
            List.findSome?_eq_none_iff, Prod.forall, hentries, nodeProblem?_eq_none_iff]
          simp [hparent]

/-- The nodes that a node lists are the ones that name it as their parent. -/
structure Mirrored (t : Tree) : Prop where
  mem_children_iff : ∀ parent child, child ∈ t.children parent ↔ t.parent? child = some parent

/-- The root is there and hangs nowhere, each node stands under its own id, and the links go both
ways. -/
structure Linked (t : Tree) : Prop extends t.Mirrored where
  root : ∃ root, t.get? t.root = some root ∧ root.parent = none
  id_eq : ∀ id node, t.get? id = some node → node.id = id

theorem mirrored_iff : t.Mirrored ↔ ∀ key node, t.get? key = some node →
    (∀ parent, node.parent = some parent → key ∈ t.children parent) ∧
      ∀ child ∈ node.children, t.parent? child = some key := by
  constructor
  · intro h key node hget
    constructor
    · intro parent hparent
      rw [h.mem_children_iff, parent?, hget]
      exact hparent
    · intro child hchild
      rw [← h.mem_children_iff, children, hget]
      exact hchild
  · intro hnodes
    constructor
    intro parent child
    constructor
    · intro hchild
      rw [children] at hchild
      cases hget : t.get? parent with
      | none =>
          rw [hget] at hchild
          cases hchild
      | some node =>
          rw [hget] at hchild
          exact (hnodes parent node hget).2 child hchild
    · intro hparent
      obtain ⟨node, hget, hnames⟩ := Option.bind_eq_some_iff.mp hparent
      exact (hnodes child node hget).1 parent hnames

instance (t : Tree) : Decidable t.Mirrored :=
  decidable_of_iff (∀ e ∈ t.nodes.entries, (∀ parent ∈ e.2.parent, e.1 ∈ t.children parent) ∧
    ∀ child ∈ e.2.children, t.parent? child = some e.1) <| by
      rw [mirrored_iff]
      exact ⟨fun h key node hget => h (key, node) (Table.mem_entries_iff.mpr hget),
        fun h e hentry => h e.1 e.2 (Table.mem_entries_iff.mp hentry)⟩

theorem linked_iff : t.Linked ↔ t.linkProblem? = none := by
  rw [linkProblem?_eq_none_iff]
  constructor
  · intro h
    exact ⟨h.root, fun key node hget =>
      ⟨h.id_eq key node hget, mirrored_iff.mp h.toMirrored key node hget⟩⟩
  · rintro ⟨hroot, hnodes⟩
    exact ⟨mirrored_iff.mpr fun key node hget => (hnodes key node hget).2, hroot,
      fun key node hget => (hnodes key node hget).1⟩

theorem Linked.withNext (h : t.Linked) (next : Nat) : Linked { t with ids := ⟨next⟩ } where
  mem_children_iff := h.mem_children_iff
  root := h.root
  id_eq := h.id_eq

theorem children_of_get? {id : NodeId} {node : Node} (hget : t.get? id = some node) :
    t.children id = node.children := by
  rw [children, hget]

theorem parent?_of_get? {id : NodeId} {node : Node} (hget : t.get? id = some node) :
    t.parent? id = node.parent := by
  rw [parent?, hget]
  rfl

theorem contains_of_get? {id : NodeId} {node : Node} (hget : t.get? id = some node) :
    t.contains id = true := by
  rw [contains, hget]
  rfl

theorem contains_of_mem_children {parent child : NodeId} (h : child ∈ t.children parent) :
    t.contains parent = true := by
  rw [children] at h
  cases hget : t.get? parent with
  | none =>
      rw [hget] at h
      cases h
  | some node =>
      rw [contains, hget]
      rfl

theorem contains_of_parent? {parent child : NodeId} (h : t.parent? child = some parent) :
    t.contains child = true := by
  obtain ⟨node, hget, -⟩ := Option.bind_eq_some_iff.mp h
  rw [contains, hget]
  rfl

theorem kind_root_eq_ok_iff : t.kind t.root = .ok .fileSet ↔
    (t.get? t.root).any (·.kind matches .fileSet) = true := by
  rw [kind, node]
  cases hroot : t.get? t.root with
  | none => simp [Except.map]
  | some root =>
      cases hkind : root.kind with
      | fileSet => simp [Except.map, hkind]
      | _ => simp [Except.map, hkind]

theorem wellFormed_iff : t.WellFormed ↔ t.linkProblem? = none ∧
    (∀ e ∈ t.nodes.entries, e.2.children.Nodup ∧ e.1.index < t.ids.next) ∧
      (t.get? t.root).any (·.kind matches .fileSet) = true := by
  rw [← kind_root_eq_ok_iff]
  constructor
  · intro h
    refine ⟨h.links, ?_, h.fileSet⟩
    rintro ⟨id, node⟩ hentry
    have hget : t.get? id = some node := Table.mem_entries_iff.mp hentry
    exact ⟨h.nodup id node hget, h.fresh id node hget⟩
  · rintro ⟨hlinks, hentries, hroot⟩
    refine ⟨hlinks, ?_, ?_, hroot⟩
    · intro id node hget
      exact (hentries _ (Table.mem_entries_iff.mpr hget)).1
    · intro id node hget
      exact (hentries _ (Table.mem_entries_iff.mpr hget)).2

instance (t : Tree) : Decidable t.WellFormed :=
  decidable_of_iff _ wellFormed_iff.symm

/-- The tree of nodes with the numbers from zero on, the first of which is the root. -/
def ofNodes (nodes : List Node) : Tree :=
  nodes.foldl insertNode ⟨⟨0⟩, Table.empty, ⟨nodes.length⟩⟩

/-- A page with a block around a link. The address of the link is what a logging function gives. -/
def page (loggingId : Option Int64) : Tree :=
  ofNodes [
    .numbered 0 none [1] .fileSet,
    .numbered 1 (some 0) [2] (.file "page.soy" .source),
    .numbered 2 (some 1) [3] (.template "page" .html),
    .numbered 3 (some 2) [4, 9] (.logBlock ⟨"Page", loggingId, none, none⟩),
    .numbered 4 (some 3) [5] (.openTag "a" false),
    .numbered 5 (some 4) [6, 7] .htmlAttribute,
    .numbered 6 (some 5) [] (.rawText "href"),
    .numbered 7 (some 5) [8] (.attributeValue .double),
    .numbered 8 (some 7) [] (.print (.call (.logging ⟨"address", "#"⟩) []) false),
    .numbered 9 (some 3) [] (.closeTag "a")]

example : (page none).WellFormed := by
  decide

/-- No link of a closed table leads out of it. -/
structure Closed (nodes : Multiset Node) : Prop where
  nodup : ∀ n ∈ nodes, n.children.Nodup
  parent : ∀ n ∈ nodes, ∀ parent, n.parent = some parent →
    ∃ m ∈ nodes, m.id = parent ∧ n.id ∈ m.children
  child : ∀ n ∈ nodes, ∀ child ∈ n.children,
    ∃ m ∈ nodes, m.id = child ∧ m.parent = some n.id

namespace Closed

variable {nodes others : Multiset Node}

theorem add (h : Closed nodes) (h' : Closed others) : Closed (nodes + others) where
  nodup n hn := by
    rcases Multiset.mem_add.mp hn with hn | hn
    · exact h.nodup n hn
    · exact h'.nodup n hn
  parent n hn parent hparent := by
    rcases Multiset.mem_add.mp hn with hn | hn
    · obtain ⟨m, hm, hlinks⟩ := h.parent n hn parent hparent
      exact ⟨m, Multiset.mem_add.mpr (Or.inl hm), hlinks⟩
    · obtain ⟨m, hm, hlinks⟩ := h'.parent n hn parent hparent
      exact ⟨m, Multiset.mem_add.mpr (Or.inr hm), hlinks⟩
  child n hn child hchild := by
    rcases Multiset.mem_add.mp hn with hn | hn
    · obtain ⟨m, hm, hlinks⟩ := h.child n hn child hchild
      exact ⟨m, Multiset.mem_add.mpr (Or.inl hm), hlinks⟩
    · obtain ⟨m, hm, hlinks⟩ := h'.child n hn child hchild
      exact ⟨m, Multiset.mem_add.mpr (Or.inr hm), hlinks⟩

theorem rest (h : Closed (nodes + others)) (hnodes : Closed nodes)
    (hnodup : ((nodes + others).map (·.id)).Nodup) : Closed others := by
  rw [Multiset.map_add, Multiset.nodup_add] at hnodup
  have hapart : ∀ m ∈ nodes, ∀ n ∈ others, m.id ≠ n.id := by
    intro m hm n hn heq
    exact Multiset.disjoint_left.mp hnodup.2.2 (Multiset.mem_map_of_mem (·.id) hm)
      (heq ▸ Multiset.mem_map_of_mem (·.id) hn)
  constructor
  · intro n hn
    exact h.nodup n (Multiset.mem_add.mpr (Or.inr hn))
  · intro n hn parent hparent
    obtain ⟨m, hm, hid, hlists⟩ := h.parent n (Multiset.mem_add.mpr (Or.inr hn)) parent hparent
    rcases Multiset.mem_add.mp hm with hm | hm
    · obtain ⟨k, hk, hkid, -⟩ := hnodes.child m hm n.id hlists
      exact absurd hkid (hapart k hk n hn)
    · exact ⟨m, hm, hid, hlists⟩
  · intro n hn child hchild
    obtain ⟨m, hm, hid, hnames⟩ := h.child n (Multiset.mem_add.mpr (Or.inr hn)) child hchild
    rcases Multiset.mem_add.mp hm with hm | hm
    · obtain ⟨k, hk, hkid, -⟩ := hnodes.parent m hm n.id hnames
      exact absurd hkid (hapart k hk n hn)
    · exact ⟨m, hm, hid, hnames⟩

end Closed

theorem WellFormed.linked (h : t.WellFormed) : t.Linked :=
  linked_iff.mpr h.links

theorem WellFormed.parent_eq (h : t.WellFormed) {id child : NodeId} {node : Node}
    (hget : t.get? id = some node) (hchild : child ∈ node.children) :
    ∃ m, t.get? child = some m ∧ m.parent = some id := by
  have hparent := ((linkProblem?_eq_none_iff.mp h.links).2 id node hget).2.2 child hchild
  rw [parent?, Option.bind_eq_some_iff] at hparent
  exact hparent

theorem WellFormed.exists_root (h : t.WellFormed) :
    ∃ root, t.get? t.root = some root ∧ root.parent = none ∧ root.kind = .fileSet := by
  obtain ⟨root, hget, hparent⟩ := (linkProblem?_eq_none_iff.mp h.links).1
  have hkind := h.fileSet
  rw [kind, node, hget] at hkind
  exact ⟨root, hget, hparent, Except.ok.inj hkind⟩

theorem Linked.holds (h : t.Linked)
    (hnodup : ∀ id node, t.get? id = some node → node.children.Nodup)
    (hfresh : ∀ id node, t.get? id = some node → id.index < t.ids.next) :
    ∃ nodes : Multiset Node, t.Holds t.root t.ids.next nodes ∧ Closed nodes := by
  have hmem : ∀ node, node ∈ (t.nodes.entries.map (·.2) : Multiset Node) ↔
      t.get? node.id = some node := by
    intro node
    rw [Multiset.mem_coe, List.mem_map]
    constructor
    · rintro ⟨⟨key, _⟩, hentry, rfl⟩
      have hget : t.get? key = some _ := Table.mem_entries_iff.mp hentry
      rwa [h.id_eq key _ hget]
    · intro hget
      exact ⟨(node.id, node), Table.mem_entries_iff.mpr hget, rfl⟩
  refine ⟨t.nodes.entries.map (·.2), ⟨rfl, rfl, ?_, ?_, ?_⟩, ⟨?_, ?_, ?_⟩⟩
  · have hkeys : (t.nodes.entries.map (·.2)).map (·.id) = t.nodes.keys := by
      rw [List.map_map, Table.keys]
      apply List.map_congr_left
      rintro ⟨key, node⟩ hentry
      exact h.id_eq key node (Table.mem_entries_iff.mp hentry)
    rw [Multiset.map_coe, hkeys, Multiset.coe_nodup]
    exact t.nodes.nodup_keys
  · intro id node
    rw [hmem]
    constructor
    · intro hget
      obtain rfl := h.id_eq id node hget
      exact ⟨hget, rfl⟩
    · rintro ⟨hget, rfl⟩
      exact hget
  · intro node hnode
    exact hfresh _ _ ((hmem node).mp hnode)
  · intro n hn
    exact hnodup _ _ ((hmem n).mp hn)
  · intro n hn parent hparent
    rw [← parent?_of_get? ((hmem n).mp hn), ← h.mem_children_iff] at hparent
    obtain ⟨m, hget⟩ := Option.isSome_iff_exists.mp (contains_of_mem_children hparent)
    obtain rfl := h.id_eq parent m hget
    rw [children_of_get? hget] at hparent
    exact ⟨m, (hmem m).mpr hget, rfl, hparent⟩
  · intro n hn child hchild
    rw [← children_of_get? ((hmem n).mp hn), h.mem_children_iff] at hchild
    obtain ⟨m, hget⟩ := Option.isSome_iff_exists.mp (contains_of_parent? hchild)
    obtain rfl := h.id_eq child m hget
    rw [parent?_of_get? hget] at hchild
    exact ⟨m, (hmem m).mpr hget, rfl, hchild⟩

theorem Holds.wellFormed {root : NodeId} {next : Nat} {nodes : Multiset Node}
    (h : t.Holds root next nodes) (hclosed : Closed nodes)
    (hroot : ∃ n ∈ nodes, n.id = root ∧ n.parent = none ∧ n.kind = .fileSet) : t.WellFormed := by
  obtain ⟨r, hr, rfl, hparent, hkind⟩ := hroot
  have hget := h.get? hr
  rw [← h.root_eq] at hget
  refine ⟨linkProblem?_eq_none_iff.mpr ⟨⟨r, hget, hparent⟩, ?_⟩, ?_, ?_, ?_⟩
  · intro key node hnode
    have hid := h.id_eq hnode
    subst hid
    refine ⟨rfl, ?_, ?_⟩
    · intro parent hparent
      obtain ⟨m, hm, rfl, hlists⟩ := hclosed.parent node (h.mem hnode) parent hparent
      rw [children, h.get? hm]
      exact hlists
    · intro child hchild
      obtain ⟨m, hm, rfl, hnames⟩ := hclosed.child node (h.mem hnode) child hchild
      rw [parent?, h.get? hm]
      exact hnames
  · intro id node hnode
    exact hclosed.nodup node (h.mem hnode)
  · intro id node hnode
    have hlt := h.below node (h.mem hnode)
    rwa [h.id_eq hnode, ← h.next_eq] at hlt
  · rw [Tree.kind, Tree.node, hget]
    exact congrArg Except.ok hkind

end Tree

end TemplateLogging
