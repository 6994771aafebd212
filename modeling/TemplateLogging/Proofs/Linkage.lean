import TemplateLogging.Proofs.Reading

/-!
The editing operations and the links of any tree whose links are sound. `Relinks` says that nothing
but links has changed; what has become of them is said by `parent?` and `children`. Nothing is asked
of the shape of the tree: nodes outside of it may hang in a circle, and a node may list a child
twice.
-/

namespace TemplateLogging.Tree

variable {t s r : Tree} {id parent child old new : NodeId} {single : NodeKind → Prop}

/-- The trees have the same nodes but for their links. -/
structure Relinks (t s : Tree) : Prop where
  root : s.root = t.root
  ids : s.ids = t.ids
  item : ∀ id, (s.get? id).map Node.item = (t.get? id).map Node.item

namespace Relinks

theorem refl (t : Tree) : Relinks t t :=
  ⟨rfl, rfl, fun _ => rfl⟩

theorem trans (h : Relinks t s) (h' : Relinks s r) : Relinks t r :=
  ⟨h'.root.trans h.root, h'.ids.trans h.ids, fun id => (h'.item id).trans (h.item id)⟩

theorem modify (t : Tree) (id : NodeId) {f : Node → Node} (hf : ∀ n, (f n).item = n.item) :
    Relinks t (t.modify id f) := by
  refine ⟨rfl, rfl, ?_⟩
  intro other
  rw [get?_modify]
  split
  · rw [Option.map_map]
    congr 1
    exact funext hf
  · rfl

theorem contains (h : Relinks t s) (id : NodeId) : s.contains id = t.contains id := by
  have hitem := congrArg Option.isSome (h.item id)
  rwa [Option.isSome_map, Option.isSome_map] at hitem

theorem get? (h : Relinks t s) {n : Node} (hget : s.get? id = some n) :
    ∃ m, t.get? id = some m ∧ m.item = n.item := by
  have hitem := h.item id
  rw [hget, Option.map_some] at hitem
  exact Option.map_eq_some_iff.mp hitem.symm

end Relinks

/-- Nodes that differ in their links only are given by their links. -/
theorem Relinks.get?_eq (h : Relinks t s) (id : NodeId) :
    s.get? id = (t.get? id).map fun node =>
      { node with parent := s.parent? id, children := s.children id } := by
  cases hs : s.get? id with
  | none =>
      have hitem := h.item id
      rw [hs] at hitem
      rw [Option.map_eq_none_iff.mp hitem.symm, Option.map_none]
  | some n =>
      obtain ⟨m, hget, hitem⟩ := h.get? hs
      rw [hget, Option.map_some, parent?, children, hs]
      obtain ⟨i, l, p, cs, k⟩ := n
      obtain ⟨i', l', p', cs', k'⟩ := m
      cases hitem
      rfl

theorem Relinks.kind (h : Relinks t s) (id : NodeId) : s.kind id = t.kind id := by
  have hitem := h.item id
  rw [Tree.kind, Tree.kind, node, node]
  cases hs : s.get? id with
  | none =>
      rw [hs] at hitem
      rw [Option.map_eq_none_iff.mp hitem.symm]
  | some n =>
      obtain ⟨m, hm, heq⟩ := h.get? hs
      have hkind : m.kind = n.kind := congrArg Item.kind heq
      rw [hm]
      show Except.ok n.kind = Except.ok m.kind
      rw [hkind]

/-- A tree with sound links and fresh ids to come. A node of one of the given kinds lists no child
twice. -/
structure Sound (single : NodeKind → Prop) (t : Tree) : Prop extends t.Linked where
  fresh : ∀ id, t.contains id = true → id.index < t.ids.next
  nodup : ∀ id node, t.get? id = some node → single node.kind → node.children.Nodup

namespace Linked

variable (h : t.Linked)

include h

theorem parent?_root : t.parent? t.root = none := by
  obtain ⟨root, hget, hparent⟩ := h.root
  rw [parent?, hget]
  exact hparent

theorem contains_root : t.contains t.root = true := by
  obtain ⟨root, hget, -⟩ := h.root
  rw [contains, hget]
  rfl

theorem ne_root (hchild : child ∈ t.children parent) : child ≠ t.root := by
  rintro rfl
  have hparent := (h.mem_children_iff parent t.root).mp hchild
  rw [h.parent?_root] at hparent
  cases hparent

end Linked

namespace Mirrored

variable (h : t.Mirrored)

include h

theorem contains_child (hchild : child ∈ t.children parent) : t.contains child = true :=
  contains_of_parent? ((h.mem_children_iff parent child).mp hchild)

theorem not_mem_children (hparent : t.parent? child = none) : child ∉ t.children parent := by
  rw [h.mem_children_iff, hparent]
  exact nofun

theorem eq_of_mem_children {other : NodeId} (hchild : child ∈ t.children parent)
    (hother : child ∈ t.children other) : other = parent := by
  rw [h.mem_children_iff] at hchild hother
  rw [hchild, Option.some.injEq] at hother
  exact hother.symm

end Mirrored

/-- The links of a tree may be changed as long as those of a parent and those of its children stay
the same. -/
theorem Linked.relink (h : t.Linked) (hs : Relinks t s) (hroot : s.parent? t.root = none)
    (hmirrored : s.Mirrored) : s.Linked where
  toMirrored := hmirrored
  root := by
    have hcontains : s.contains t.root = true := (hs.contains _).trans h.contains_root
    obtain ⟨root, hget⟩ := Option.isSome_iff_exists.mp hcontains
    rw [hs.root]
    exact ⟨root, hget, (parent?_of_get? hget).symm.trans hroot⟩
  id_eq id n hget := by
    obtain ⟨m, hget', hitem⟩ := hs.get? hget
    exact (congrArg Item.id hitem).symm.trans (h.id_eq id m hget')

/-- No child may be repeated that was not repeated before. -/
theorem Sound.relink (h : t.Sound single) (hs : Relinks t s) (hlinked : s.Linked)
    (hnodup : ∀ id, (t.children id).Nodup → (s.children id).Nodup) : s.Sound single where
  toLinked := hlinked
  fresh id hid := by
    rw [hs.contains] at hid
    rw [hs.ids]
    exact h.fresh id hid
  nodup id n hget hsingle := by
    obtain ⟨m, hget', hitem⟩ := hs.get? hget
    have hkind : m.kind = n.kind := congrArg Item.kind hitem
    have hlist := hnodup id
    rw [children_of_get? hget, children_of_get? hget'] at hlist
    exact hlist (h.nodup id m hget' (hkind ▸ hsingle))

def setParent (t : Tree) (id : NodeId) (parent : Option NodeId) : Tree :=
  t.modify id fun node => { node with parent }

def setChildren (t : Tree) (id : NodeId) (f : List NodeId → List NodeId) : Tree :=
  t.modify id fun node => { node with children := f node.children }

theorem relinks_setParent (t : Tree) (id : NodeId) (parent : Option NodeId) :
    Relinks t (t.setParent id parent) :=
  .modify t id fun _ => rfl

theorem relinks_setChildren (t : Tree) (id : NodeId) (f : List NodeId → List NodeId) :
    Relinks t (t.setChildren id f) :=
  .modify t id fun _ => rfl

theorem parent?_setParent (hid : t.contains id = true) (parent : Option NodeId) (x : NodeId) :
    (t.setParent id parent).parent? x = if x = id then parent else t.parent? x := by
  rw [setParent, parent?, get?_modify]
  by_cases hx : x = id
  · subst hx
    obtain ⟨node, hget⟩ := Option.isSome_iff_exists.mp hid
    rw [if_pos rfl, if_pos rfl, hget]
    rfl
  · rw [if_neg (Ne.symm hx), if_neg hx]
    rfl

theorem children_setParent (t : Tree) (id : NodeId) (parent : Option NodeId) (x : NodeId) :
    (t.setParent id parent).children x = t.children x := by
  rw [setParent, children, get?_modify, children]
  split_ifs
  · cases t.get? x <;> rfl
  · rfl

theorem parent?_setChildren (t : Tree) (id : NodeId) (f : List NodeId → List NodeId) (x : NodeId) :
    (t.setChildren id f).parent? x = t.parent? x := by
  rw [setChildren, parent?, get?_modify, parent?]
  split_ifs
  · cases t.get? x <;> rfl
  · rfl

theorem children_setChildren (hid : t.contains id = true) (f : List NodeId → List NodeId)
    (x : NodeId) :
    (t.setChildren id f).children x = if x = id then f (t.children id) else t.children x := by
  rw [setChildren, children, get?_modify]
  by_cases hx : x = id
  · subst hx
    obtain ⟨node, hget⟩ := Option.isSome_iff_exists.mp hid
    rw [if_pos rfl, if_pos rfl, children, hget]
    rfl
  · rw [if_neg (Ne.symm hx), if_neg hx]
    rfl

theorem detach_of_parent? (h : t.parent? id = some parent) :
    t.detach id = (t.setChildren parent (·.filter (· ≠ id))).setParent id none := by
  rw [detach, h]
  rfl

theorem detach_of_parent?_none (h : t.parent? id = none) : t.detach id = t := by
  rw [detach, h]

theorem attach_eq (t : Tree) (parent : NodeId) (index : Nat) (child : NodeId) :
    t.attach parent index child =
      (t.setChildren parent fun ids => ids.insertIdx (min index ids.length) child).setParent child
        (some parent) :=
  rfl

theorem relinks_detach (t : Tree) (id : NodeId) : Relinks t (t.detach id) := by
  cases hparent : t.parent? id with
  | none =>
      rw [detach_of_parent?_none hparent]
      exact .refl t
  | some parent =>
      rw [detach_of_parent? hparent]
      exact (relinks_setChildren t _ _).trans (relinks_setParent _ _ _)

theorem parent?_detach (t : Tree) (id x : NodeId) :
    (t.detach id).parent? x = if x = id then none else t.parent? x := by
  cases hparent : t.parent? id with
  | none =>
      rw [detach_of_parent?_none hparent]
      split_ifs with hx
      · rw [hx]
        exact hparent
      · rfl
  | some parent =>
      have hid := (relinks_setChildren t parent (·.filter (· ≠ id))).contains id
      rw [detach_of_parent? hparent,
        parent?_setParent (hid.trans (contains_of_parent? hparent)), parent?_setChildren]

theorem Mirrored.children_detach (h : t.Mirrored) (id x : NodeId) :
    (t.detach id).children x = (t.children x).filter (· ≠ id) := by
  have hkeep : id ∉ t.children x → t.children x = (t.children x).filter (· ≠ id) := fun hid =>
    (filter_ne_of_not_mem hid).symm
  cases hparent : t.parent? id with
  | none =>
      rw [detach_of_parent?_none hparent]
      exact hkeep (h.not_mem_children hparent)
  | some parent =>
      have hlists := (h.mem_children_iff parent id).mpr hparent
      rw [detach_of_parent? hparent, children_setParent,
        children_setChildren (contains_of_mem_children hlists)]
      split_ifs with hx
      · rw [hx]
      · apply hkeep
        rw [h.mem_children_iff, hparent, Option.some.injEq]
        exact Ne.symm hx

theorem Mirrored.detach (h : t.Mirrored) (id : NodeId) : (t.detach id).Mirrored := by
  constructor
  intro parent child
  rw [h.children_detach, parent?_detach, List.mem_filter, decide_eq_true_eq, h.mem_children_iff]
  split_ifs with hchild
  · simp [hchild]
  · simp [hchild]

theorem Linked.detach (h : t.Linked) (id : NodeId) : (t.detach id).Linked := by
  refine h.relink (relinks_detach t id) ?_ (h.toMirrored.detach id)
  rw [parent?_detach, h.parent?_root, ite_self]

theorem Sound.detach (h : t.Sound single) (id : NodeId) : (t.detach id).Sound single := by
  refine h.relink (relinks_detach t id) (h.toLinked.detach id) ?_
  intro x hnodup
  rw [h.children_detach]
  exact hnodup.filter _

theorem relinks_attach (t : Tree) (parent : NodeId) (index : Nat) (child : NodeId) :
    Relinks t (t.attach parent index child) := by
  rw [attach_eq]
  exact (relinks_setChildren t _ _).trans (relinks_setParent _ _ _)

theorem parent?_attach (t : Tree) (parent : NodeId) (index : Nat) (hchild : t.contains child = true)
    (x : NodeId) : (t.attach parent index child).parent? x =
      if x = child then some parent else t.parent? x := by
  rw [attach_eq, parent?_setParent, parent?_setChildren]
  rwa [(relinks_setChildren t parent _).contains]

theorem children_attach (hparent : t.contains parent = true) (index : Nat) (child x : NodeId) :
    (t.attach parent index child).children x =
      if x = parent then (t.children parent).insertIdx (min index (t.children parent).length) child
      else t.children x := by
  rw [attach_eq, children_setParent, children_setChildren hparent]

theorem Mirrored.attach (h : t.Mirrored) (hparent : t.contains parent = true)
    (hchild : t.contains child = true) (hdetached : t.parent? child = none) (index : Nat) :
    (t.attach parent index child).Mirrored := by
  constructor
  intro p c
  rw [parent?_attach t parent index hchild, children_attach hparent]
  by_cases hp : p = parent
  · subst hp
    rw [if_pos rfl, List.mem_insertIdx (Nat.min_le_right _ _), h.mem_children_iff]
    by_cases hc : c = child
    · simp [hc]
    · simp [hc]
  · rw [if_neg hp, h.mem_children_iff]
    by_cases hc : c = child
    · simp [hc, hdetached, Ne.symm hp]
    · simp [hc]

theorem Linked.attach (h : t.Linked) (hparent : t.contains parent = true)
    (hchild : t.contains child = true) (hne : child ≠ t.root) (hdetached : t.parent? child = none)
    (index : Nat) : (t.attach parent index child).Linked := by
  refine h.relink (relinks_attach t parent index child) ?_
    (h.toMirrored.attach hparent hchild hdetached index)
  rw [parent?_attach t parent index hchild, if_neg (Ne.symm hne), h.parent?_root]

theorem Sound.attach (h : t.Sound single) (hparent : t.contains parent = true)
    (hchild : t.contains child = true) (hne : child ≠ t.root) (hdetached : t.parent? child = none)
    (index : Nat) : (t.attach parent index child).Sound single := by
  refine h.relink (relinks_attach t parent index child)
    (h.toLinked.attach hparent hchild hne hdetached index) ?_
  intro x hnodup
  rw [children_attach hparent]
  split_ifs with hx
  · subst hx
    rw [(List.perm_insertIdx child (t.children x) (Nat.min_le_right _ _)).nodup_iff,
      List.nodup_cons]
    exact ⟨h.not_mem_children hdetached, hnodup⟩
  · exact hnodup

theorem insertChild_eq_ok_iff {index : Nat} :
    t.insertChild parent index child = .ok s ↔
      t.isAncestorOrSelf child parent = false ∧ s = (t.detach child).attach parent index child := by
  rw [insertChild]
  cases t.isAncestorOrSelf child parent <;> simp [eq_comm]

theorem relinks_insertChild {index : Nat} (hs : t.insertChild parent index child = .ok s) :
    Relinks t s := by
  obtain ⟨-, rfl⟩ := insertChild_eq_ok_iff.mp hs
  exact (relinks_detach t child).trans (relinks_attach _ _ _ _)

theorem parent?_insertChild (hchild : t.contains child = true) {index : Nat}
    (hs : t.insertChild parent index child = .ok s) (x : NodeId) :
    s.parent? x = if x = child then some parent else t.parent? x := by
  obtain ⟨-, rfl⟩ := insertChild_eq_ok_iff.mp hs
  rw [parent?_attach _ _ _ (((relinks_detach t child).contains _).trans hchild), parent?_detach]
  split_ifs <;> rfl

theorem Mirrored.insertChild (h : t.Mirrored) (hparent : t.contains parent = true)
    (hchild : t.contains child = true) {index : Nat}
    (hs : t.insertChild parent index child = .ok s) : s.Mirrored := by
  obtain ⟨-, rfl⟩ := insertChild_eq_ok_iff.mp hs
  have hdetach := relinks_detach t child
  apply (h.detach child).attach
  · rwa [hdetach.contains]
  · rwa [hdetach.contains]
  · rw [parent?_detach, if_pos rfl]

theorem Linked.insertChild (h : t.Linked) (hparent : t.contains parent = true)
    (hchild : t.contains child = true) (hne : child ≠ t.root) {index : Nat}
    (hs : t.insertChild parent index child = .ok s) : s.Linked := by
  refine h.relink (relinks_insertChild hs) ?_ (h.toMirrored.insertChild hparent hchild hs)
  rw [parent?_insertChild hchild hs, if_neg (Ne.symm hne), h.parent?_root]

theorem Sound.insertChild (h : t.Sound single) (hparent : t.contains parent = true)
    (hchild : t.contains child = true) (hne : child ≠ t.root) {index : Nat}
    (hs : t.insertChild parent index child = .ok s) : s.Sound single ∧ Relinks t s := by
  refine ⟨?_, relinks_insertChild hs⟩
  obtain ⟨-, rfl⟩ := insertChild_eq_ok_iff.mp hs
  have hdetach := relinks_detach t child
  apply (h.detach child).attach
  · rwa [hdetach.contains]
  · rwa [hdetach.contains]
  · rwa [hdetach.root]
  · rw [parent?_detach, if_pos rfl]

theorem Mirrored.children_insertChild (h : t.Mirrored) (hparent : t.contains parent = true)
    {index : Nat} (hs : t.insertChild parent index child = .ok s) (x : NodeId) :
    s.children x =
      if x = parent then ((t.children parent).filter (· ≠ child)).insertIdx
        (min index ((t.children parent).filter (· ≠ child)).length) child
      else (t.children x).filter (· ≠ child) := by
  obtain ⟨-, rfl⟩ := insertChild_eq_ok_iff.mp hs
  rw [children_attach (((relinks_detach t child).contains parent).trans hparent),
    h.children_detach, h.children_detach]

theorem exists_set_eq {l : List NodeId} {index : Nat} (hnodup : l.Nodup)
    (hindex : l.idxOf? old = some index) :
    ∃ before after, l = before ++ old :: after ∧ old ∉ before ∧ old ∉ after ∧
      ∀ new, l.set index new = before ++ new :: after := by
  obtain ⟨hlt, hget, -⟩ := List.idxOf?_eq_some_iff.mp hindex
  have hsplit : l = l.take index ++ old :: l.drop (index + 1) := by
    rw [← hget, List.getElem_cons_drop, List.take_append_drop]
  have hmiddle := List.nodup_middle.mp (hsplit ▸ hnodup)
  rw [List.nodup_cons, List.mem_append, not_or] at hmiddle
  refine ⟨l.take index, l.drop (index + 1), hsplit, hmiddle.1.1, hmiddle.1.2, ?_⟩
  intro new
  rw [List.set_eq_take_append_cons_drop, if_pos hlt]

theorem replaceChild_of_childIndex? {index : Nat}
    (h : (t.detach new).childIndex? parent old = some index) :
    t.replaceChild parent old new =
      (((t.detach new).setChildren parent (·.set index new)).setParent new
        (some parent)).setParent old none := by
  rw [replaceChild]
  simp only [h]
  rfl

theorem replaceChild_of_childIndex?_none (h : (t.detach new).childIndex? parent old = none) :
    t.replaceChild parent old new = t.detach new := by
  rw [replaceChild]
  simp only [h]

theorem relinks_swap (t : Tree) (parent old new : NodeId) (index : Nat) :
    Relinks t (((t.setChildren parent (·.set index new)).setParent new (some parent)).setParent old
      none) :=
  (relinks_setChildren _ _ _).trans ((relinks_setParent _ _ _).trans (relinks_setParent _ _ _))

theorem relinks_replaceChild (t : Tree) (parent old new : NodeId) :
    Relinks t (t.replaceChild parent old new) := by
  have hdetach := relinks_detach t new
  cases hindex : (t.detach new).childIndex? parent old with
  | none =>
      rw [replaceChild_of_childIndex?_none hindex]
      exact hdetach
  | some index =>
      rw [replaceChild_of_childIndex? hindex]
      exact hdetach.trans (relinks_swap _ parent old new index)

section Swap

variable {index : Nat}

theorem mem_children_of_childIndex? (h : t.childIndex? parent old = some index) :
    old ∈ t.children parent := by
  obtain ⟨hlt, hget, -⟩ := List.idxOf?_eq_some_iff.mp h
  rw [← hget]
  exact List.getElem_mem hlt

theorem Mirrored.parent?_swap (h : t.Mirrored) (hnew : t.contains new = true)
    (hindex : t.childIndex? parent old = some index) (x : NodeId) :
    (((t.setChildren parent (·.set index new)).setParent new (some parent)).setParent old
      none).parent? x = if x = old then none else if x = new then some parent else t.parent? x := by
  have hlists := relinks_setChildren t parent (·.set index new)
  have hhangs := relinks_setParent (t.setChildren parent (·.set index new)) new (some parent)
  rw [parent?_setParent ((hlists.trans hhangs).contains old |>.trans
    (h.contains_child (mem_children_of_childIndex? hindex))),
    parent?_setParent ((hlists.contains new).trans hnew), parent?_setChildren]

theorem children_swap (hindex : t.childIndex? parent old = some index) (x : NodeId) :
    (((t.setChildren parent (·.set index new)).setParent new (some parent)).setParent old
      none).children x = if x = parent then (t.children parent).set index new
        else t.children x := by
  rw [children_setParent, children_setParent,
    children_setChildren (contains_of_mem_children (mem_children_of_childIndex? hindex))]

theorem Mirrored.swap (h : t.Mirrored) (hnew : t.contains new = true) (hne : new ≠ old)
    (hdetached : t.parent? new = none) (hnodup : (t.children parent).Nodup)
    (hindex : t.childIndex? parent old = some index) :
    (((t.setChildren parent (·.set index new)).setParent new (some parent)).setParent old
      none).Mirrored := by
  obtain ⟨before, after, hchildren, hbefore, hafter, hset⟩ := exists_set_eq hnodup hindex
  have hold := mem_children_of_childIndex? hindex
  have holdParent := (h.mem_children_iff parent old).mp hold
  constructor
  intro p c
  rw [h.parent?_swap hnew hindex, children_swap hindex]
  by_cases hp : p = parent
  · subst hp
    rw [if_pos rfl, hset]
    by_cases hc : c = old
    · subst hc
      simp [hbefore, hafter, Ne.symm hne]
    · have hmem := h.mem_children_iff p c
      rw [hchildren, List.mem_append, List.mem_cons] at hmem
      rw [if_neg hc, List.mem_append, List.mem_cons]
      by_cases hc' : c = new
      · simp [hc']
      · rw [if_neg hc', ← hmem]
        simp [hc, hc']
  · rw [if_neg hp, h.mem_children_iff]
    by_cases hc : c = old
    · subst hc
      simp [holdParent, Ne.symm hp]
    · by_cases hc' : c = new
      · subst hc'
        simp [hc, hdetached, Ne.symm hp]
      · simp [hc, hc']

theorem Linked.swap (h : t.Linked) (hnew : t.contains new = true) (hroot : new ≠ t.root)
    (hne : new ≠ old) (hdetached : t.parent? new = none) (hnodup : (t.children parent).Nodup)
    (hindex : t.childIndex? parent old = some index) :
    (((t.setChildren parent (·.set index new)).setParent new (some parent)).setParent old
      none).Linked := by
  have hold := mem_children_of_childIndex? hindex
  refine h.relink (relinks_swap t parent old new index) ?_
    (h.toMirrored.swap hnew hne hdetached hnodup hindex)
  rw [h.parent?_swap hnew hindex, if_neg (Ne.symm (h.ne_root hold)), if_neg (Ne.symm hroot),
    h.parent?_root]

theorem Sound.swap (h : t.Sound single) (hnew : t.contains new = true) (hroot : new ≠ t.root)
    (hne : new ≠ old) (hdetached : t.parent? new = none) (hnodup : (t.children parent).Nodup)
    (hindex : t.childIndex? parent old = some index) :
    (((t.setChildren parent (·.set index new)).setParent new (some parent)).setParent old
      none).Sound single := by
  refine h.relink (relinks_swap t parent old new index)
    (h.toLinked.swap hnew hroot hne hdetached hnodup hindex) ?_
  intro x hx
  rw [children_swap hindex]
  split_ifs with heq
  · exact hnodup.set (h.not_mem_children hdetached)
  · exact hx

theorem Sound.replaceChild (h : t.Sound single) (hnew : t.contains new = true)
    (hroot : new ≠ t.root) (hne : new ≠ old) (hnodup : (t.children parent).Nodup) :
    (t.replaceChild parent old new).Sound single := by
  have hdetach := relinks_detach t new
  cases hindex : (t.detach new).childIndex? parent old with
  | none =>
      rw [replaceChild_of_childIndex?_none hindex]
      exact h.detach new
  | some index =>
      rw [replaceChild_of_childIndex? hindex]
      apply (h.detach new).swap _ _ hne _ _ hindex
      · rwa [hdetach.contains]
      · rwa [hdetach.root]
      · rw [parent?_detach, if_pos rfl]
      · rw [h.children_detach]
        exact hnodup.filter _

theorem Mirrored.parent?_replaceChild (h : t.Mirrored) (hnew : t.contains new = true)
    (hindex : (t.detach new).childIndex? parent old = some index) (x : NodeId) :
    (t.replaceChild parent old new).parent? x =
      if x = old then none else if x = new then some parent else t.parent? x := by
  rw [replaceChild_of_childIndex? hindex,
    (h.detach new).parent?_swap (((relinks_detach t new).contains new).trans hnew) hindex,
    parent?_detach]
  split_ifs <;> rfl

end Swap

theorem create_eq_ok {kind : NodeKind} {location : Location}
    (hs : t.create kind location = .ok (id, s)) :
    id = ⟨t.ids.next⟩ ∧ s.ids = ⟨t.ids.next + 1⟩ ∧ t.ids.next < maxWord ∧ s.root = t.root ∧
      ∀ x, s.get? x = if id = x then some ⟨id, location, none, [], kind⟩ else t.get? x := by
  rw [create, IdSource.take] at hs
  split_ifs at hs with hlt
  · cases hs
    exact ⟨rfl, rfl, hlt, rfl, fun x => get?_insertNode _ _ x⟩
  · cases hs

section Create

variable {kind : NodeKind} {location : Location}

theorem Sound.not_contains_next (h : t.Sound single) : t.contains ⟨t.ids.next⟩ = false := by
  rw [Bool.eq_false_iff]
  intro hcontains
  exact Nat.lt_irrefl _ (h.fresh _ hcontains)

theorem contains_create (hs : t.create kind location = .ok (id, s)) (x : NodeId) :
    s.contains x = (decide (x = id) || t.contains x) := by
  obtain ⟨-, -, -, -, hget⟩ := create_eq_ok hs
  rw [contains, hget]
  by_cases hx : id = x
  · simp [hx]
  · simp [hx, Ne.symm hx, contains]

theorem Sound.parent?_create (h : t.Sound single) (hs : t.create kind location = .ok (id, s))
    (x : NodeId) : s.parent? x = t.parent? x := by
  obtain ⟨rfl, -, -, -, hget⟩ := create_eq_ok hs
  rw [parent?, hget, parent?]
  split_ifs with hx
  · subst hx
    rw [Option.not_isSome_iff_eq_none.mp (Bool.eq_false_iff.mp h.not_contains_next)]
    rfl
  · rfl

theorem Sound.children_create (h : t.Sound single) (hs : t.create kind location = .ok (id, s))
    (x : NodeId) : s.children x = t.children x := by
  obtain ⟨rfl, -, -, -, hget⟩ := create_eq_ok hs
  rw [children, hget, children]
  split_ifs with hx
  · subst hx
    rw [Option.not_isSome_iff_eq_none.mp (Bool.eq_false_iff.mp h.not_contains_next)]
  · rfl

theorem Sound.create (h : t.Sound single) (hs : t.create kind location = .ok (id, s)) :
    s.Sound single := by
  obtain ⟨hid, hids, -, hroot, hget⟩ := create_eq_ok hs
  refine ⟨⟨⟨?_⟩, ?_, ?_⟩, ?_, ?_⟩
  · intro parent child
    rw [h.parent?_create hs, h.children_create hs, h.mem_children_iff]
  · obtain ⟨root, hgetRoot, hparent⟩ := h.root
    refine ⟨root, ?_, hparent⟩
    have hne : id ≠ t.root := by
      rintro rfl
      have hlt := h.fresh _ h.contains_root
      rw [hid] at hlt
      exact Nat.lt_irrefl _ hlt
    rw [hroot, hget, if_neg hne, hgetRoot]
  · intro x n hx
    rw [hget] at hx
    split_ifs at hx with heq
    · rw [← Option.some.inj hx]
      exact heq
    · exact h.id_eq x n hx
  · intro x hx
    rw [hids]
    rw [contains_create hs, Bool.or_eq_true, decide_eq_true_eq] at hx
    rcases hx with rfl | hx
    · rw [hid]
      exact Nat.lt_succ_self _
    · exact Nat.lt_succ_of_lt (h.fresh x hx)
  · intro x n hx hsingle
    rw [hget] at hx
    split_ifs at hx with heq
    · rw [← Option.some.inj hx]
      exact List.nodup_nil
    · exact h.nodup x n hx hsingle

end Create

end TemplateLogging.Tree
