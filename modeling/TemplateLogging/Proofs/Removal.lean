import TemplateLogging.Proofs.Linkage

namespace TemplateLogging.Tree

variable {t s : Tree} {id parent : NodeId} {single : NodeKind → Prop}

theorem Linked.exists_shows (h : t.Linked) {path : List NodeId} (levels : Nat)
    (hpath : t.Climbs id path) (hid : t.contains id = true)
    (hlevels : t.size ≤ levels + path.length) :
    ∃ b : Branch, b.id = id ∧ t.Shows path.head? b ∧ b.height ≤ levels := by
  induction levels generalizing id path with
  | zero =>
      have hlt := h.length_lt_size hpath hid
      omega
  | succ levels ih =>
      have hall : ∀ ids : List NodeId, (∀ child ∈ ids, child ∈ t.children id) →
          ∃ bs : List Branch, bs.map Rose.id = ids ∧ t.ShowsAll (some id) bs ∧
            Rose.heightAll bs ≤ levels := by
        intro ids
        induction ids with
        | nil =>
            intro _
            exact ⟨[], rfl, showsAll_nil, Nat.zero_le _⟩
        | cons child ids ih' =>
            intro hids
            have hchild := hids child List.mem_cons_self
            have hpath' : t.Climbs child (id :: path) :=
              ⟨(h.mem_children_iff id child).mp hchild, hpath⟩
            obtain ⟨b, rfl, hb, hheight⟩ :=
              ih hpath' (h.contains_child hchild) (by rw [List.length_cons]; omega)
            obtain ⟨bs, rfl, hbs, hheights⟩ := ih' fun c hc => hids c (List.mem_cons_of_mem _ hc)
            refine ⟨b :: bs, rfl, showsAll_cons_iff.mpr ⟨hb, hbs⟩, ?_⟩
            rw [Rose.heightAll]
            exact Nat.max_le.mpr ⟨hheight, hheights⟩
      obtain ⟨node, hget⟩ := Option.isSome_iff_exists.mp hid
      obtain ⟨bs, hbs, hshows, hheight⟩ := hall _ fun _ hchild => hchild
      obtain rfl := h.id_eq id node hget
      refine ⟨.node node.item bs, rfl, shows_node_iff.mpr ⟨?_, hshows⟩, ?_⟩
      · rw [hbs, ← hpath.parent?_eq, parent?_of_get? hget, children_of_get? hget]
        exact hget
      · rw [Rose.height]
        exact Nat.succ_le_succ hheight

theorem Linked.mem_descendants_iff (h : t.Linked) (hid : t.contains id = true)
    (hparent : t.parent? id = none) (x : NodeId) : x ∈ t.descendants id ↔ t.Below id x := by
  have hpath : t.Climbs id [] := hparent
  obtain ⟨b, rfl, hb, hheight⟩ := h.exists_shows t.size hpath hid (Nat.le_add_right _ _)
  rw [hb.descendants_eq hheight, hb.below_iff]

theorem descendants_of_not_contains (h : t.contains id = false) : t.descendants id = [] := by
  have hget : t.get? id = none := Option.not_isSome_iff_eq_none.mp (Bool.eq_false_iff.mp h)
  rw [descendants]
  cases t.pops t.size id with
  | zero => rfl
  | succ fuel =>
      rw [drain, hget]
      cases fuel <;> rfl

theorem get?_foldl_eraseNode (ids : List NodeId) (t : Tree) (x : NodeId) :
    (ids.foldl eraseNode t).get? x = if x ∈ ids then none else t.get? x := by
  induction ids generalizing t with
  | nil => rfl
  | cons id ids ih =>
      rw [List.foldl_cons, ih, get?_eraseNode]
      by_cases hx : x ∈ ids
      · simp [hx]
      · by_cases hid : id = x
        · simp [hid]
        · simp [hx, hid, Ne.symm hid]

theorem foldl_eraseNode_root (ids : List NodeId) (t : Tree) :
    (ids.foldl eraseNode t).root = t.root ∧ (ids.foldl eraseNode t).ids = t.ids := by
  induction ids generalizing t with
  | nil => exact ⟨rfl, rfl⟩
  | cons id ids ih => exact ih (t.eraseNode id)

section Erase

variable {ids : List NodeId}

theorem parent?_foldl_eraseNode (ids : List NodeId) (t : Tree) (x : NodeId) :
    (ids.foldl eraseNode t).parent? x = if x ∈ ids then none else t.parent? x := by
  rw [parent?, get?_foldl_eraseNode]
  split_ifs <;> rfl

theorem children_foldl_eraseNode (ids : List NodeId) (t : Tree) (x : NodeId) :
    (ids.foldl eraseNode t).children x = if x ∈ ids then [] else t.children x := by
  rw [children, get?_foldl_eraseNode]
  split_ifs <;> rfl

/-- Nodes may go if with a node its children go and its parent. -/
theorem Mirrored.erase (h : t.Mirrored)
    (hids : ∀ parent child, child ∈ t.children parent → (parent ∈ ids ↔ child ∈ ids)) :
    (ids.foldl eraseNode t).Mirrored := by
  constructor
  intro parent child
  rw [parent?_foldl_eraseNode, children_foldl_eraseNode]
  have hmem := h.mem_children_iff parent child
  by_cases hparent : parent ∈ ids
  · rw [if_pos hparent]
    split_ifs with hchild
    · simp
    · rw [← hmem]
      exact ⟨nofun, fun hlists => absurd ((hids _ _ hlists).mp hparent) hchild⟩
  · rw [if_neg hparent]
    split_ifs with hchild
    · exact ⟨fun hlists => absurd ((hids _ _ hlists).mpr hchild) hparent, nofun⟩
    · exact hmem

theorem Linked.erase (h : t.Linked) (hroot : t.root ∉ ids)
    (hids : ∀ parent child, child ∈ t.children parent → (parent ∈ ids ↔ child ∈ ids)) :
    (ids.foldl eraseNode t).Linked := by
  refine ⟨h.toMirrored.erase hids, ?_, ?_⟩
  · obtain ⟨root, hget, hparent⟩ := h.root
    refine ⟨root, ?_, hparent⟩
    rw [(foldl_eraseNode_root ids t).1, get?_foldl_eraseNode, if_neg hroot, hget]
  · intro x n hget
    rw [get?_foldl_eraseNode] at hget
    split_ifs at hget
    exact h.id_eq x n hget

theorem Sound.erase (h : t.Sound single) (hroot : t.root ∉ ids)
    (hids : ∀ parent child, child ∈ t.children parent → (parent ∈ ids ↔ child ∈ ids)) :
    (ids.foldl eraseNode t).Sound single := by
  refine ⟨h.toLinked.erase hroot hids, ?_, ?_⟩
  · intro x hx
    rw [contains, get?_foldl_eraseNode] at hx
    split_ifs at hx
    · cases hx
    · rw [(foldl_eraseNode_root ids t).2]
      exact h.fresh x hx
  · intro x n hget hsingle
    rw [get?_foldl_eraseNode] at hget
    split_ifs at hget
    exact h.nodup x n hget hsingle

end Erase

theorem removeSubtree_eq (t : Tree) (id : NodeId) :
    t.removeSubtree id = ((t.detach id).descendants id).foldl eraseNode (t.detach id) :=
  rfl

theorem ids_removeSubtree (t : Tree) (id : NodeId) : (t.removeSubtree id).ids = t.ids := by
  rw [removeSubtree_eq, (foldl_eraseNode_root _ _).2, (relinks_detach t id).ids]

theorem Sound.removeSubtree_detached (h : t.Sound single) (hne : id ≠ t.root)
    (hparent : t.parent? id = none) : ((t.descendants id).foldl eraseNode t).Sound single := by
  cases hid : t.contains id with
  | false =>
      rw [descendants_of_not_contains hid]
      exact h
  | true =>
      have hmem := h.mem_descendants_iff hid hparent
      apply h.erase
      · rw [hmem]
        intro hbelow
        rcases hbelow.cases_tail with heq | ⟨x, -, hlists⟩
        · exact hne heq.symm
        · exact h.ne_root hlists rfl
      · intro parent child hlists
        rw [hmem, hmem]
        constructor
        · intro hbelow
          exact hbelow.tail hlists
        · intro hbelow
          have hnames := (h.mem_children_iff parent child).mp hlists
          rcases hbelow.cases_tail with rfl | ⟨x, hx, hlists'⟩
          · rw [hparent] at hnames
            cases hnames
          · have hnames' := (h.mem_children_iff x child).mp hlists'
            rw [hnames, Option.some.injEq] at hnames'
            rwa [hnames']

theorem Sound.removeSubtree (h : t.Sound single) (hne : id ≠ t.root) :
    (t.removeSubtree id).Sound single := by
  rw [removeSubtree_eq]
  apply (h.detach id).removeSubtree_detached
  · rwa [(relinks_detach t id).root]
  · rw [parent?_detach, if_pos rfl]

section InsertChildren

variable {ids : List NodeId} {index : Nat}

theorem relinks_insertChildren (hs : t.insertChildren parent index ids = .ok s) : Relinks t s := by
  induction ids generalizing t index with
  | nil =>
      cases hs
      exact .refl _
  | cons id ids ih =>
      rw [Tree.insertChildren] at hs
      obtain ⟨u, hinsert, hs⟩ := Except.exists_of_bind_eq_ok hs
      exact (relinks_insertChild hinsert).trans (ih hs)

theorem insertChildren_keeps {P : Tree → Prop} (ht : P t) (hparent : t.contains parent = true)
    (hids : ∀ id ∈ ids, t.contains id = true) (hs : t.insertChildren parent index ids = .ok s)
    (hstep : ∀ (u u' : Tree) (index : Nat), ∀ id ∈ ids, P u → u.contains parent = true →
      u.contains id = true → u.insertChild parent index id = .ok u' → P u') : P s := by
  induction ids generalizing t index with
  | nil =>
      cases hs
      exact ht
  | cons id ids ih =>
      rw [Tree.insertChildren] at hs
      obtain ⟨u, hinsert, hs⟩ := Except.exists_of_bind_eq_ok hs
      have hid := hids id List.mem_cons_self
      have hrelinks := relinks_insertChild hinsert
      have hrest : ∀ x ∈ ids, u.contains x = true := by
        intro x hx
        rw [hrelinks.contains]
        exact hids x (List.mem_cons_of_mem _ hx)
      exact ih (hstep t u index id List.mem_cons_self ht hparent hid hinsert)
        ((hrelinks.contains parent).trans hparent) hrest hs
        fun u u' index x hx => hstep u u' index x (List.mem_cons_of_mem _ hx)

theorem Mirrored.insertChildren (h : t.Mirrored) (hparent : t.contains parent = true)
    (hids : ∀ id ∈ ids, t.contains id = true)
    (hs : t.insertChildren parent index ids = .ok s) : s.Mirrored :=
  insertChildren_keeps h hparent hids hs fun _ _ _ _ _ hu hparent hid hinsert =>
    hu.insertChild hparent hid hinsert

theorem Sound.insertChildren (h : t.Sound single) (hparent : t.contains parent = true)
    (hids : ∀ id ∈ ids, t.contains id = true ∧ id ≠ t.root)
    (hs : t.insertChildren parent index ids = .ok s) : s.Sound single := by
  have hkeeps : s.Sound single ∧ s.root = t.root := by
    refine insertChildren_keeps (P := fun u => u.Sound single ∧ u.root = t.root) ⟨h, rfl⟩ hparent
      (fun id hid => (hids id hid).1) hs ?_
    rintro u u' index id hmem ⟨hu, hroot⟩ hparent hid hinsert
    have hne : id ≠ u.root := by
      rw [hroot]
      exact (hids id hmem).2
    obtain ⟨hu', hrelinks⟩ := hu.insertChild hparent hid hne hinsert
    exact ⟨hu', hrelinks.root.trans hroot⟩
  exact hkeeps.1

end InsertChildren

theorem Sound.unwrap (h : t.Sound single) (hs : t.unwrap id = .ok s) :
    s.Sound single ∧ s.ids = t.ids := by
  rw [Tree.unwrap] at hs
  cases hparent : t.parent? id with
  | none =>
      rw [hparent] at hs
      cases hs
      exact ⟨h, rfl⟩
  | some parent =>
      rw [hparent] at hs
      have hlists := (h.mem_children_iff parent id).mpr hparent
      cases hindex : t.childIndex? parent id with
      | none =>
          simp only [hindex] at hs
          cases hs
          exact ⟨h, rfl⟩
      | some index =>
          simp only [hindex] at hs
          obtain ⟨u, hinsert, hs⟩ := Except.exists_of_bind_eq_ok hs
          cases hs
          have hrelinks := relinks_insertChildren hinsert
          have hu := h.insertChildren (contains_of_mem_children hlists)
            (fun x hx => ⟨h.contains_child hx, h.ne_root hx⟩) hinsert
          have hne : id ≠ u.root := by
            rw [hrelinks.root]
            exact h.ne_root hlists
          exact ⟨hu.removeSubtree hne, (ids_removeSubtree u id).trans hrelinks.ids⟩

end TemplateLogging.Tree
