import TemplateLogging.Proofs.Editing
import TemplateLogging.Proofs.WellFormed

/-!
Reading a sound tree. `read` is the subtree under an id as a value. All nodes below the root of a
sound tree are in one branch, and the rest of the table is closed as well.
-/

namespace TemplateLogging

namespace Tree

/-- The subtree under an id, for at most the given number of levels. An id that is not in the tree
contributes nothing. -/
def read (t : Tree) : Nat → NodeId → List Branch
  | 0, _ => []
  | levels + 1, id =>
      match t.get? id with
      | none => []
      | some node => [.node node.item (node.children.flatMap (t.read levels))]

/-- The path leads from a node to a node without a parent. -/
def Climbs (t : Tree) : NodeId → List NodeId → Prop
  | id, [] => t.parent? id = none
  | id, parent :: path => t.parent? id = some parent ∧ t.Climbs parent path

variable {t : Tree} {id : NodeId} {path : List NodeId}

mutual

theorem read_eq {parent : Option NodeId} : ∀ {b : Branch} {levels : Nat},
    t.Shows parent b → b.height ≤ levels → t.read levels b.id = [b]
  | .node a cs, 0, _, hlevels => absurd hlevels (Nat.not_succ_le_zero _)
  | .node a cs, levels + 1, h, hlevels => by
      obtain ⟨ha, hcs⟩ := shows_node_iff.mp h
      rw [Rose.height] at hlevels
      rw [read, Rose.id_node, ha]
      show [Rose.node a ((cs.map Rose.id).flatMap (t.read levels))] = _
      rw [flatMap_read_eq hcs (by omega)]

theorem flatMap_read_eq {parent : Option NodeId} : ∀ {bs : List Branch} {levels : Nat},
    t.ShowsAll parent bs → Rose.heightAll bs ≤ levels →
      (bs.map Rose.id).flatMap (t.read levels) = bs
  | [], _, _, _ => rfl
  | b :: bs, levels, h, hlevels => by
      obtain ⟨hb, hbs⟩ := showsAll_cons_iff.mp h
      rw [Rose.heightAll] at hlevels
      rw [List.map_cons, List.flatMap_cons, read_eq hb (by omega), flatMap_read_eq hbs (by omega)]
      rfl

end

theorem Climbs.parent?_eq (h : t.Climbs id path) : t.parent? id = path.head? := by
  cases path with
  | nil => exact h
  | cons parent path => exact h.1

theorem Climbs.unique {path' : List NodeId} (h : t.Climbs id path) (h' : t.Climbs id path') :
    path = path' := by
  induction path generalizing id path' with
  | nil =>
      cases path' with
      | nil => rfl
      | cons parent path' =>
          have hparent := h'.1
          rw [show t.parent? id = none from h] at hparent
          cases hparent
  | cons parent path ih =>
      have hparent := h.1
      cases path' with
      | nil =>
          rw [show t.parent? id = none from h'] at hparent
          cases hparent
      | cons parent' path' =>
          rw [h'.1, Option.some.injEq] at hparent
          subst hparent
          rw [ih h.2 h'.2]

theorem Climbs.of_mem (h : t.Climbs id path) {above : NodeId} (hmem : above ∈ path) :
    ∃ rest, t.Climbs above rest ∧ rest.length < path.length := by
  induction path generalizing id with
  | nil => cases hmem
  | cons parent path ih =>
      rcases List.mem_cons.mp hmem with rfl | hmem
      · exact ⟨path, h.2, Nat.lt_succ_self _⟩
      · obtain ⟨rest, hrest, hlt⟩ := ih h.2 hmem
        exact ⟨rest, hrest, Nat.lt_succ_of_lt hlt⟩

theorem Climbs.nodup (h : t.Climbs id path) : (id :: path).Nodup := by
  induction path generalizing id with
  | nil => exact List.nodup_singleton id
  | cons parent path ih =>
      refine List.nodup_cons.mpr ⟨?_, ih h.2⟩
      intro hmem
      obtain ⟨rest, hrest, hlt⟩ := h.of_mem hmem
      rw [h.unique hrest] at hlt
      exact Nat.lt_irrefl _ hlt

theorem Mirrored.contains_of_climbs (hlinks : t.Mirrored) (h : t.Climbs id path)
    (hid : t.contains id = true) : ∀ above ∈ id :: path, t.contains above = true := by
  induction path generalizing id with
  | nil =>
      intro above hmem
      rw [List.mem_singleton] at hmem
      rwa [hmem]
  | cons parent path ih =>
      intro above hmem
      rcases List.mem_cons.mp hmem with rfl | hmem
      · exact hid
      · have hlists := (hlinks.mem_children_iff parent id).mpr h.1
        exact ih h.2 (contains_of_mem_children hlists) above hmem

theorem Mirrored.length_lt_size (hlinks : t.Mirrored) (h : t.Climbs id path)
    (hid : t.contains id = true) : path.length < t.size := by
  have hsub : id :: path ⊆ t.nodes.keys := by
    intro above hmem
    obtain ⟨node, hget⟩ :=
      Option.isSome_iff_exists.mp (hlinks.contains_of_climbs h hid above hmem)
    have hentry : (above, node) ∈ t.nodes.entries := Table.mem_entries_iff.mpr hget
    exact List.mem_map.mpr ⟨_, hentry, rfl⟩
  have hle := (List.subperm_of_subset h.nodup hsub).length_le
  rwa [Table.keys, List.length_map] at hle

/-- The way up from a node passes another node, which is climbed on by the given path. -/
def Passes (t : Tree) (below id : NodeId) (path : List NodeId) : Prop :=
  ∃ above, t.Climbs below above ∧ (id :: path) <:+ (below :: above)

theorem Passes.parent {below parent : NodeId} (h : t.Passes below id (parent :: path)) :
    t.Passes below parent path := by
  obtain ⟨above, habove, hsuffix⟩ := h
  exact ⟨above, habove, (List.suffix_cons _ _).trans hsuffix⟩

theorem Passes.unique {below id' : NodeId} (h : t.Passes below id path)
    (h' : t.Passes below id' path) : id = id' := by
  obtain ⟨above, habove, hsuffix⟩ := h
  obtain ⟨above', habove', hsuffix'⟩ := h'
  obtain rfl := habove.unique habove'
  have hle : (id :: path).length ≤ (id' :: path).length := Nat.le_refl _
  have heq := (List.suffix_of_suffix_length_le hsuffix hsuffix' hle).eq_of_length rfl
  exact (List.cons.inj heq).1

theorem Climbs.not_passes {child : NodeId} (h : t.Climbs id path) :
    ¬ t.Passes id child (id :: path) := by
  rintro ⟨above, habove, hsuffix⟩
  obtain rfl := h.unique habove
  have hle := hsuffix.length_le
  simp only [List.length_cons] at hle
  omega

/-- What reading a node gives, for the node that a path leads up from. -/
structure Reads (t : Tree) (path : List NodeId) (b : Branch) : Prop where
  shows : t.Shows path.head? b
  nodup : b.ids.Nodup
  passes : ∀ below ∈ b.ids, t.Passes below b.id path

theorem exists_branches {levels : Nat} (hread : ∀ child, t.parent? child = some id →
      ∃ b, b.id = child ∧ t.Reads (id :: path) b ∧ b.height ≤ levels) :
    ∀ ids : List NodeId, ids.Nodup → (∀ child ∈ ids, t.parent? child = some id) →
      ∃ bs : List Branch, bs.map Rose.id = ids ∧ t.ShowsAll (some id) bs ∧ (Rose.idsAll bs).Nodup ∧
        (∀ below ∈ Rose.idsAll bs, ∃ child ∈ ids, t.Passes below child (id :: path)) ∧
          Rose.heightAll bs ≤ levels := by
  intro ids
  induction ids with
  | nil =>
      intro _ _
      exact ⟨[], rfl, showsAll_nil, List.nodup_nil, by simp, Nat.zero_le _⟩
  | cons child ids ih =>
      intro hnodup hparent
      rw [List.nodup_cons] at hnodup
      obtain ⟨b, rfl, hb, hheight⟩ := hread child (hparent child List.mem_cons_self)
      obtain ⟨bs, rfl, hshows, hbs, hpasses, hheights⟩ := ih hnodup.2 fun c hc =>
        hparent c (List.mem_cons_of_mem _ hc)
      refine ⟨b :: bs, rfl, showsAll_cons_iff.mpr ⟨hb.shows, hshows⟩, ?_, ?_, ?_⟩
      · rw [Rose.idsAll_cons, List.nodup_append]
        refine ⟨hb.nodup, hbs, ?_⟩
        -- A node below two children would have two ways up.
        rintro below hbelow _ hbelow' rfl
        obtain ⟨other, hother, hpass⟩ := hpasses below hbelow'
        rw [(hb.passes below hbelow).unique hpass] at hnodup
        exact hnodup.1 hother
      · intro below hbelow
        rw [Rose.idsAll_cons] at hbelow
        rcases List.mem_append.mp hbelow with hbelow | hbelow
        · exact ⟨b.id, List.mem_cons_self, hb.passes below hbelow⟩
        · obtain ⟨other, hother, hpass⟩ := hpasses below hbelow
          exact ⟨other, List.mem_cons_of_mem _ hother, hpass⟩
      · rw [Rose.heightAll]
        exact Nat.max_le.mpr ⟨hheight, hheights⟩

/-- Every node can be read. The path up and the levels that are left are together as many as the
nodes of the table, which no way up exceeds. -/
theorem Linked.exists_reads (hlinks : t.Linked)
    (hnodup : ∀ id node, t.get? id = some node → node.children.Nodup) (levels : Nat)
    (hpath : t.Climbs id path) (hid : t.contains id = true)
    (hlevels : t.size ≤ levels + path.length) :
    ∃ b, b.id = id ∧ t.Reads path b ∧ b.height ≤ levels := by
  induction levels generalizing id path with
  | zero =>
      -- The way up would have as many nodes as the table, and the node itself is one more.
      have hlt := hlinks.length_lt_size hpath hid
      omega
  | succ levels ih =>
      obtain ⟨node, hget⟩ := Option.isSome_iff_exists.mp hid
      obtain rfl := hlinks.id_eq id node hget
      have hread : ∀ child, t.parent? child = some node.id →
          ∃ b, b.id = child ∧ t.Reads (node.id :: path) b ∧ b.height ≤ levels := by
        intro child hparent
        exact ih ⟨hparent, hpath⟩ (contains_of_parent? hparent) (by rw [List.length_cons]; omega)
      have hparents : ∀ child ∈ node.children, t.parent? child = some node.id := by
        intro child hchild
        rw [← children_of_get? hget] at hchild
        exact (hlinks.mem_children_iff node.id child).mp hchild
      obtain ⟨bs, hids, hshows, hnodup, hpasses, hheights⟩ :=
        exists_branches hread node.children (hnodup _ _ hget) hparents
      have hroot : node.parent = path.head? := (parent?_of_get? hget).symm.trans hpath.parent?_eq
      refine ⟨.node node.item bs, rfl, ⟨shows_node_iff.mpr ⟨?_, hshows⟩, ?_, ?_⟩, ?_⟩
      · show t.get? node.id = _
        rw [hget, hids, ← hroot]
        rfl
      · rw [Rose.ids_node, List.nodup_cons]
        refine ⟨?_, hnodup⟩
        intro hmem
        obtain ⟨child, -, hpass⟩ := hpasses _ hmem
        exact hpath.not_passes hpass
      · intro below hbelow
        rw [Rose.ids_node] at hbelow
        rcases List.mem_cons.mp hbelow with rfl | hbelow
        · exact ⟨path, hpath, List.suffix_refl _⟩
        · obtain ⟨child, -, hpass⟩ := hpasses below hbelow
          exact hpass.parent
      · rw [Rose.height]
        exact Nat.succ_le_succ hheights

end Tree

namespace Rose

variable {parent : Option NodeId} {n : Node} {child : NodeId}

theorem exists_mem_nodes (parent : Option NodeId) (b : Branch) :
    ∃ n ∈ b.nodes parent, n.id = b.id ∧ n.parent = parent := by
  cases b with
  | node a cs =>
      refine ⟨a.toNode parent (cs.map id), ?_, rfl, rfl⟩
      rw [nodes]
      exact Multiset.mem_add.mpr (Or.inl (Multiset.mem_singleton_self _))

theorem exists_mem_nodesAll {bs : List Branch} (h : child ∈ bs.map id) :
    ∃ n ∈ nodesAll parent bs, n.id = child ∧ n.parent = parent := by
  induction bs with
  | nil => cases h
  | cons b bs ih =>
      rw [nodesAll]
      rcases List.mem_cons.mp h with rfl | h
      · obtain ⟨n, hn, hlinks⟩ := exists_mem_nodes parent b
        exact ⟨n, Multiset.mem_add.mpr (Or.inl hn), hlinks⟩
      · obtain ⟨n, hn, hlinks⟩ := ih h
        exact ⟨n, Multiset.mem_add.mpr (Or.inr hn), hlinks⟩

mutual

theorem parent_mem_nodes : ∀ {parent : Option NodeId} {b : Branch}, n ∈ b.nodes parent →
    (n.id = b.id ∧ n.parent = parent) ∨
      ∃ m ∈ b.nodes parent, n.parent = some m.id ∧ n.id ∈ m.children
  | parent, node a cs, h => by
      rw [nodes] at h ⊢
      rcases Multiset.mem_add.mp h with h | h
      · rw [Multiset.mem_singleton] at h
        subst h
        exact Or.inl ⟨rfl, rfl⟩
      · right
        rcases parent_mem_nodesAll h with ⟨hid, hparent⟩ | ⟨m, hm, hlinks⟩
        · exact ⟨_, Multiset.mem_add.mpr (Or.inl (Multiset.mem_singleton_self _)), hparent, hid⟩
        · exact ⟨m, Multiset.mem_add.mpr (Or.inr hm), hlinks⟩

theorem parent_mem_nodesAll : ∀ {parent : Option NodeId} {bs : List Branch},
    n ∈ nodesAll parent bs → (n.id ∈ bs.map id ∧ n.parent = parent) ∨
      ∃ m ∈ nodesAll parent bs, n.parent = some m.id ∧ n.id ∈ m.children
  | parent, [], h => by
      simp at h
  | parent, b :: bs, h => by
      rw [nodesAll] at h ⊢
      rcases Multiset.mem_add.mp h with h | h
      · rcases parent_mem_nodes h with ⟨hid, hparent⟩ | ⟨m, hm, hlinks⟩
        · exact Or.inl ⟨List.mem_cons.mpr (Or.inl hid), hparent⟩
        · exact Or.inr ⟨m, Multiset.mem_add.mpr (Or.inl hm), hlinks⟩
      · rcases parent_mem_nodesAll h with ⟨hid, hparent⟩ | ⟨m, hm, hlinks⟩
        · exact Or.inl ⟨List.mem_cons_of_mem _ hid, hparent⟩
        · exact Or.inr ⟨m, Multiset.mem_add.mpr (Or.inr hm), hlinks⟩

end

mutual

theorem child_mem_nodes : ∀ {parent : Option NodeId} {b : Branch}, n ∈ b.nodes parent →
    child ∈ n.children → ∃ m ∈ b.nodes parent, m.id = child ∧ m.parent = some n.id
  | parent, node a cs, h, hchild => by
      rw [nodes] at h ⊢
      rcases Multiset.mem_add.mp h with h | h
      · rw [Multiset.mem_singleton] at h
        subst h
        obtain ⟨m, hm, hlinks⟩ := exists_mem_nodesAll hchild
        exact ⟨m, Multiset.mem_add.mpr (Or.inr hm), hlinks⟩
      · obtain ⟨m, hm, hlinks⟩ := child_mem_nodesAll h hchild
        exact ⟨m, Multiset.mem_add.mpr (Or.inr hm), hlinks⟩

theorem child_mem_nodesAll : ∀ {parent : Option NodeId} {bs : List Branch},
    n ∈ nodesAll parent bs → child ∈ n.children →
      ∃ m ∈ nodesAll parent bs, m.id = child ∧ m.parent = some n.id
  | parent, [], h, _ => by
      simp at h
  | parent, b :: bs, h, hchild => by
      rw [nodesAll] at h ⊢
      rcases Multiset.mem_add.mp h with h | h
      · obtain ⟨m, hm, hlinks⟩ := child_mem_nodes h hchild
        exact ⟨m, Multiset.mem_add.mpr (Or.inl hm), hlinks⟩
      · obtain ⟨m, hm, hlinks⟩ := child_mem_nodesAll h hchild
        exact ⟨m, Multiset.mem_add.mpr (Or.inr hm), hlinks⟩

end

mutual

theorem children_sublist_ids : ∀ {parent : Option NodeId} {b : Branch}, n ∈ b.nodes parent →
    n.children.Sublist b.ids
  | parent, node a cs, h => by
      rw [nodes] at h
      rw [ids_node]
      rcases Multiset.mem_add.mp h with h | h
      · rw [Multiset.mem_singleton] at h
        subst h
        exact (map_id_sublist_idsAll cs).trans (List.sublist_cons_self _ _)
      · exact (children_sublist_idsAll h).trans (List.sublist_cons_self _ _)

theorem children_sublist_idsAll : ∀ {parent : Option NodeId} {bs : List Branch},
    n ∈ nodesAll parent bs → n.children.Sublist (idsAll bs)
  | parent, [], h => by
      simp at h
  | parent, b :: bs, h => by
      rw [nodesAll] at h
      rw [idsAll_cons]
      rcases Multiset.mem_add.mp h with h | h
      · exact (children_sublist_ids h).trans (List.sublist_append_left _ _)
      · exact (children_sublist_idsAll h).trans (List.sublist_append_right _ _)

end

theorem closed_nodes {b : Branch} (h : b.ids.Nodup) : Tree.Closed (b.nodes none) where
  nodup n hn := h.sublist (children_sublist_ids hn)
  parent n hn parent hparent := by
    rcases parent_mem_nodes hn with ⟨-, hnone⟩ | ⟨m, hm, hlink, hlists⟩
    · rw [hnone] at hparent
      cases hparent
    · rw [hlink, Option.some.injEq] at hparent
      exact ⟨m, hm, hparent, hlists⟩
  child n hn child hchild := child_mem_nodes hn hchild

end Rose

namespace Tree

variable {t : Tree} {root : NodeId} {next : Nat} {others : Multiset Node} {a : Item}
  {cs : List Branch} {b : Branch} {parent : Option NodeId}

theorem WellFormed.exists_holds (hwf : t.WellFormed) :
    ∃ (a : Item) (cs : List Branch) (others : Multiset Node), a.id = t.root ∧ a.kind = .fileSet ∧
      t.Holds t.root t.ids.next ((Rose.node a cs).nodes none + others) ∧ Closed others := by
  obtain ⟨root, hget, hparent, hkind⟩ := hwf.exists_root
  obtain ⟨nodes, hholds, hclosed⟩ := hwf.linked.holds hwf.nodup hwf.fresh
  have hpath : t.Climbs t.root [] := by
    rw [Climbs, parent?, hget]
    exact hparent
  have hcontains : t.contains t.root = true := by
    rw [contains, hget]
    rfl
  obtain ⟨b, hid, ⟨hshows, hnodup, -⟩, -⟩ :=
    hwf.linked.exists_reads hwf.nodup t.size hpath hcontains (Nat.le_add_right _ _)
  have hle : b.nodes none ≤ nodes := by
    rw [Multiset.le_iff_subset]
    · intro n hn
      exact hholds.mem (hshows n hn)
    · apply Multiset.Nodup.of_map (·.id)
      rw [Rose.map_id_nodes, Multiset.coe_nodup]
      exact hnodup
  obtain ⟨others, rfl⟩ := Multiset.le_iff_exists_add.mp hle
  obtain ⟨a, cs⟩ := b
  refine ⟨a, cs, others, hid, ?_, hholds, hclosed.rest (Rose.closed_nodes hnodup) hholds.nodup⟩
  have hlabel := hshows.get?
  rw [hid, hget, Option.some.injEq] at hlabel
  rw [hlabel] at hkind
  exact hkind

theorem Holds.wellFormed_of_branch
    (h : t.Holds root next ((Rose.node a cs).nodes none + others)) (hroot : a.id = root)
    (hkind : a.kind = .fileSet) (hclosed : Closed others) : t.WellFormed := by
  refine h.wellFormed ((Rose.closed_nodes h.nodup_ids).add hclosed)
    ⟨a.toNode none (cs.map Rose.id), ?_, hroot, rfl, hkind⟩
  rw [Rose.nodes]
  exact Multiset.mem_add.mpr (Or.inl (Multiset.mem_add.mpr (Or.inl
    (Multiset.mem_singleton_self _))))

/-- The second node is the first one or somewhere below it. -/
def Below (t : Tree) (id below : NodeId) : Prop :=
  Relation.ReflTransGen (fun x y => y ∈ t.children x) id below

/-- The node hangs in the tree. -/
def Reaches (t : Tree) (id : NodeId) : Prop :=
  t.Below t.root id

theorem Shows.mem_ids_of_child (h : t.Shows parent b) {id child : NodeId} (hid : id ∈ b.ids)
    (hchild : child ∈ t.children id) : child ∈ b.ids := by
  obtain ⟨n, hn, rfl⟩ := (Rose.mem_ids_iff parent).mp hid
  rw [Tree.children, h n hn] at hchild
  exact (Rose.children_sublist_ids hn).subset hchild

mutual

theorem Shows.below_of_mem : ∀ {parent : Option NodeId} {b : Branch}, t.Shows parent b →
    ∀ id ∈ b.ids, t.Below b.id id
  | parent, .node a cs, h, id, hid => by
      rw [Rose.ids_node] at hid
      rcases List.mem_cons.mp hid with rfl | hid
      · exact .refl
      · obtain ⟨c, hc, hbelow⟩ := ShowsAll.below_of_mem h.children id hid
        refine .head ?_ hbelow
        rw [h.children_eq]
        exact List.mem_map_of_mem hc

theorem ShowsAll.below_of_mem : ∀ {parent : Option NodeId} {bs : List Branch},
    t.ShowsAll parent bs → ∀ id ∈ Rose.idsAll bs, ∃ b ∈ bs, t.Below b.id id
  | parent, [], _, id, hid => by
      cases hid
  | parent, b :: bs, h, id, hid => by
      obtain ⟨hb, hbs⟩ := showsAll_cons_iff.mp h
      rw [Rose.idsAll_cons] at hid
      rcases List.mem_append.mp hid with hid | hid
      · exact ⟨b, List.mem_cons_self, Shows.below_of_mem hb id hid⟩
      · obtain ⟨c, hc, hbelow⟩ := ShowsAll.below_of_mem hbs id hid
        exact ⟨c, List.mem_cons_of_mem _ hc, hbelow⟩

end

theorem Shows.below_iff (h : t.Shows parent b) (id : NodeId) : t.Below b.id id ↔ id ∈ b.ids := by
  constructor
  · intro hbelow
    induction hbelow with
    | refl => exact b.id_mem_ids
    | tail _ hchild ih => exact h.mem_ids_of_child ih hchild
  · exact h.below_of_mem id

theorem Holds.reaches_iff (h : t.Holds root next ((Rose.node a cs).nodes none + others))
    (hroot : a.id = root) (id : NodeId) : t.Reaches id ↔ id ∈ (Rose.node a cs).ids := by
  rw [Reaches, h.root_eq, ← hroot]
  exact h.shows.below_iff id

theorem Holds.read_eq (h : t.Holds root next ((Rose.node a cs).nodes none + others))
    (hroot : a.id = root) : t.read t.size t.root = [.node a cs] := by
  rw [h.root_eq, ← hroot]
  exact Tree.read_eq h.shows h.height_le_size

end Tree

end TemplateLogging
