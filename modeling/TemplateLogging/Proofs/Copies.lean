import TemplateLogging.Proofs.Forest

/-!
Copies of subtrees. A copy takes as many ids as the subtree has nodes, its own before those of the
nodes below it. Its nodes are linked as the originals are, except that the first one hangs nowhere,
and all other nodes stay as they are.
-/

namespace TemplateLogging

/-- The ids are given numbers in a row. -/
def NumbersFrom (f : NodeId → NodeId) (next : Nat) (ids : List NodeId) : Prop :=
  ids.map f = (List.range' next ids.length).map NodeId.mk

section NumbersFrom

variable {f : NodeId → NodeId} {next : Nat} {id : NodeId} {ids rest : List NodeId}

theorem numbersFrom_cons_iff :
    NumbersFrom f next (id :: ids) ↔ f id = ⟨next⟩ ∧ NumbersFrom f (next + 1) ids := by
  rw [NumbersFrom, List.length_cons, List.range'_succ, List.map_cons, List.map_cons,
    List.cons.injEq, NumbersFrom]

theorem numbersFrom_append_iff :
    NumbersFrom f next (ids ++ rest) ↔
      NumbersFrom f next ids ∧ NumbersFrom f (next + ids.length) rest := by
  rw [NumbersFrom, List.length_append, ← List.range'_append_1, List.map_append, List.map_append]
  constructor
  · intro h
    exact List.append_inj h (by simp)
  · rintro ⟨hids, hrest⟩
    rw [hids, hrest]

theorem NumbersFrom.index_mem (h : NumbersFrom f next ids) (hid : id ∈ ids) :
    (f id).index ∈ List.range' next ids.length := by
  have hmem := List.mem_map_of_mem hid (f := f)
  rw [h] at hmem
  obtain ⟨i, hi, heq⟩ := List.mem_map.mp hmem
  rwa [← heq]

theorem NumbersFrom.nodup_map (h : NumbersFrom f next ids) : (ids.map f).Nodup := by
  rw [h]
  exact List.Nodup.map (fun _ _ heq => congrArg NodeId.index heq) List.nodup_range'

theorem NumbersFrom.inj (h : NumbersFrom f next ids) {x y : NodeId} (hx : x ∈ ids) (hy : y ∈ ids)
    (heq : f x = f y) : x = y :=
  List.inj_on_of_nodup_map h.nodup_map hx hy heq

/-- The number of an id is its place in the list, counted from the next one. -/
def copyId (next : Nat) (ids : List NodeId) (id : NodeId) : NodeId :=
  ⟨next + ids.idxOf id⟩

theorem numbersFrom_copyId (next : Nat) (h : ids.Nodup) :
    NumbersFrom (copyId next ids) next ids := by
  apply List.ext_getElem
  · simp
  · intro i hi hi'
    rw [List.length_map] at hi
    rw [List.getElem_map, List.getElem_map, copyId, h.idxOf_getElem, List.getElem_range', one_mul]

end NumbersFrom

namespace Tree

variable {t u s r : Tree} {id copy parent child : NodeId} {levels : Nat} {f : NodeId → NodeId}
  {top : Option NodeId} {ids xs ys : List NodeId}

/-- Copies one more child of a node whose copy has the given id. -/
def copyChild (levels : Nat) (copy : NodeId) (copies : List NodeId × Tree) (child : NodeId) :
    Except Fault (List NodeId × Tree) := do
  let (childCopy?, t) ← copyLevels levels copies.2 child
  match childCopy? with
  | none => return (copies.1, t)
  | some childCopy =>
      return (copies.1 ++ [childCopy],
        t.modify childCopy fun node => { node with parent := some copy })

theorem copyLevels_succ {node : Node} (hget : t.get? id = some node) :
    copyLevels (levels + 1) t id = (do
      let (copy, ids) ← t.ids.take
      let (children, t) ← node.children.foldlM (copyChild levels copy) ([], { t with ids })
      return (some copy, t.insertNode { node with id := copy, parent := none, children })) := by
  rw [copyLevels, hget]
  rfl

/-- The other tree has at least the nodes of the one, as they were, and its ids in use are below its
next one. -/
structure Retains (t s : Tree) : Prop where
  get? : ∀ id node, t.get? id = some node → s.get? id = some node
  next : t.ids.next ≤ s.ids.next
  fresh : ∀ id, s.contains id = true → id.index < s.ids.next

namespace Retains

theorem refl (h : ∀ id, t.contains id = true → id.index < t.ids.next) : Retains t t :=
  ⟨fun _ _ hget => hget, Nat.le_refl _, h⟩

theorem trans (h : Retains t s) (h' : Retains s r) : Retains t r :=
  ⟨fun id node hget => h'.get? id node (h.get? id node hget), h.next.trans h'.next, h'.fresh⟩

theorem insertNode {node : Node} (h : Retains t s) (hnew : t.contains node.id = false)
    (hnode : node.id.index < s.ids.next) : Retains t (s.insertNode node) := by
  refine ⟨?_, h.next, ?_⟩
  · intro id n hget
    rw [get?_insertNode, if_neg, h.get? id n hget]
    rintro rfl
    rw [contains_of_get? hget] at hnew
    cases hnew
  · intro id hid
    rw [contains, get?_insertNode] at hid
    split_ifs at hid with heq
    · rw [← heq]
      exact hnode
    · exact h.fresh id hid

theorem modify {f : Node → Node} (h : Retains t s) (hnew : t.contains id = false) :
    Retains t (s.modify id f) := by
  refine ⟨?_, h.next, ?_⟩
  · intro x n hget
    rw [get?_modify, if_neg, h.get? x n hget]
    rintro rfl
    rw [contains_of_get? hget] at hnew
    cases hnew
  · intro x hx
    apply h.fresh x
    rw [contains, get?_modify] at hx
    split_ifs at hx
    · rwa [Option.isSome_map] at hx
    · exact hx

theorem not_contains (h : Retains t t) (hid : t.ids.next ≤ id.index) : t.contains id = false := by
  rw [Bool.eq_false_iff]
  intro hcontains
  exact Nat.not_lt_of_le hid (h.fresh id hcontains)

theorem skip (h : Retains t t) : Retains t { t with ids := ⟨t.ids.next + 1⟩ } :=
  ⟨fun _ _ hget => hget, Nat.le_succ _, fun id hid => Nat.lt_succ_of_lt (h.fresh id hid)⟩

theorem create {kind : NodeKind} {location : Location} (h : Retains t t)
    (hs : t.create kind location = .ok (id, s)) : Retains t s := by
  obtain ⟨⟨copy, ids⟩, htake, hs⟩ := Except.exists_of_bind_eq_ok hs
  cases hs
  rw [IdSource.take] at htake
  split_ifs at htake
  cases htake
  exact h.skip.insertNode (h.not_contains (Nat.le_refl _)) (Nat.lt_succ_self _)

end Retains

/-- Nodes of the first tree have been copied between the second one and the third. The copies have
the ids that `f` gives, and their links lead to copies, but that of `top` hangs nowhere. -/
structure Copied (t u s : Tree) (f : NodeId → NodeId) (top : Option NodeId) (ids : List NodeId) :
    Prop where
  root : s.root = u.root
  next_eq : s.ids.next = u.ids.next + ids.length
  get?_copy : ∀ x ∈ ids, s.get? (f x) = (t.get? x).map fun node =>
    { node with
      id := f x
      parent := if top = some x then none else node.parent.map f
      children := node.children.map f }
  get?_other : ∀ x, x ∉ ids.map f → s.get? x = u.get? x

namespace Copied

theorem nil (t u : Tree) (f : NodeId → NodeId) : Copied t u u f none [] :=
  ⟨rfl, rfl, nofun, fun _ _ => rfl⟩

theorem append (h : Copied t u s f none xs) (h' : Copied t s r f none ys)
    (hapart : ∀ x ∈ xs, f x ∉ ys.map f) : Copied t u r f none (xs ++ ys) where
  root := h'.root.trans h.root
  next_eq := by
    rw [h'.next_eq, h.next_eq, List.length_append, Nat.add_assoc]
  get?_copy x hx := by
    rcases List.mem_append.mp hx with hx | hx
    · rw [h'.get?_other _ (hapart x hx), h.get?_copy x hx]
    · exact h'.get?_copy x hx
  get?_other x hx := by
    rw [List.map_append, List.mem_append, not_or] at hx
    rw [h'.get?_other x hx.2, h.get?_other x hx.1]

theorem hang (h : Copied t u s f (some child) ids) (hparent : t.parent? child = some parent)
    (hinj : ∀ x ∈ ids, f x = f child → x = child) (hchild : child ∈ ids) :
    Copied t u (s.modify (f child) fun node => { node with parent := some (f parent) }) f none
      ids where
  root := h.root
  next_eq := h.next_eq
  get?_copy x hx := by
    rw [get?_modify, h.get?_copy x hx]
    by_cases heq : f child = f x
    · obtain rfl := hinj x hx heq.symm
      obtain ⟨node, hget, hnames⟩ := Option.bind_eq_some_iff.mp hparent
      rw [if_pos rfl, hget, Option.map_some, Option.map_some, Option.map_some, hnames]
      rfl
    · have hne : some child ≠ some x := fun hsame => heq (congrArg f (Option.some.inj hsame))
      simp only [if_neg heq, if_neg hne, reduceCtorEq, if_false]
  get?_other x hx := by
    rw [get?_modify, if_neg, h.get?_other x hx]
    rintro rfl
    exact hx (List.mem_map_of_mem hchild)

/-- The copy of a node comes before those of the nodes below, but is put into the table after. -/
theorem cons {node : Node} (h : Copied t { u with ids := ⟨u.ids.next + 1⟩ } s f none ids)
    (hget : t.get? id = some node) (hid : f id ∉ ids.map f) :
    Copied t u
      (s.insertNode { node with id := f id, parent := none, children := node.children.map f }) f
      (some id) (id :: ids) where
  root := h.root
  next_eq := by
    rw [List.length_cons, Nat.add_comm ids.length 1, ← Nat.add_assoc]
    exact h.next_eq
  get?_copy x hx := by
    rw [get?_insertNode]
    rcases List.mem_cons.mp hx with rfl | hx
    · rw [if_pos rfl, hget, Option.map_some, if_pos rfl]
    · have heq : f id ≠ f x := fun heq => hid (heq ▸ List.mem_map_of_mem hx)
      have hne : some id ≠ some x := fun hsame => heq (congrArg f (Option.some.inj hsame))
      rw [if_neg heq, h.get?_copy x hx]
      simp only [if_neg hne, reduceCtorEq, if_false]
  get?_other x hx := by
    rw [List.map_cons, List.mem_cons, not_or] at hx
    rw [get?_insertNode, if_neg (Ne.symm hx.1), h.get?_other x hx.2]
    rfl

theorem retains (h : Copied t u s f top ids) (hu : Retains t u)
    (hf : NumbersFrom f u.ids.next ids) : Retains t s := by
  have hindex : ∀ x ∈ ids, u.ids.next ≤ (f x).index ∧ (f x).index < u.ids.next + ids.length := by
    intro x hx
    exact List.mem_range'_1.mp (hf.index_mem hx)
  refine ⟨?_, ?_, ?_⟩
  · intro x node hget
    have hget' := hu.get? x node hget
    rw [h.get?_other, hget']
    rintro hcopy
    obtain ⟨y, hy, rfl⟩ := List.mem_map.mp hcopy
    exact Nat.not_lt_of_le (hindex y hy).1 (hu.fresh _ (contains_of_get? hget'))
  · rw [h.next_eq]
    exact hu.next.trans (Nat.le_add_right _ _)
  · intro x hx
    rw [h.next_eq]
    by_cases hcopy : x ∈ ids.map f
    · obtain ⟨y, hy, rfl⟩ := List.mem_map.mp hcopy
      exact (hindex y hy).2
    · rw [contains, h.get?_other x hcopy] at hx
      exact Nat.lt_add_right _ (hu.fresh x hx)

end Copied

theorem Within.mem_preorder (h : t.Within levels id) (hid : t.contains id = true) :
    id ∈ t.preorder levels id := by
  cases levels with
  | zero =>
      rw [Within, hid] at h
      cases h
  | succ levels =>
      rw [preorder_succ hid]
      exact List.mem_cons_self

section CopyChild

variable {start stop : Nat} {copies : List NodeId}

theorem takes_copyChild
    (hcopy : Takes start stop (copyLevels levels u child) fun r =>
      r.1 = some (f child) ∧ Copied t u r.2 f (some child) ids)
    (hparent : t.parent? child = some parent) (hinj : ∀ x ∈ ids, f x = f child → x = child)
    (hchild : child ∈ ids) (hle : start ≤ stop) :
    Takes start stop (copyChild levels (f parent) (copies, u) child) fun r =>
      r.1 = copies ++ [f child] ∧ Copied t u r.2 f none ids := by
  refine Takes.bind hcopy ?_ hle (Nat.le_refl _)
  rintro ⟨_, s⟩ ⟨rfl, hs⟩
  exact Takes.pure ⟨rfl, hs.hang hparent hinj hchild⟩

theorem takes_copyChildren {children : List NodeId}
    (hchildren : ∀ child ∈ children, ∀ (copies : List NodeId) (u : Tree), Retains t u →
      NumbersFrom f u.ids.next (t.preorder levels child) →
        Takes u.ids.next (u.ids.next + (t.preorder levels child).length)
          (copyChild (levels + 1) copy (copies, u) child) fun r =>
            r.1 = copies ++ [f child] ∧ Copied t u r.2 f none (t.preorder levels child))
    (hu : Retains t u) (hf : NumbersFrom f u.ids.next (children.flatMap (t.preorder levels))) :
    Takes u.ids.next (u.ids.next + (children.flatMap (t.preorder levels)).length)
      (children.foldlM (copyChild (levels + 1) copy) (copies, u)) fun r =>
        r.1 = copies ++ children.map f ∧
          Copied t u r.2 f none (children.flatMap (t.preorder levels)) := by
  induction children generalizing u copies with
  | nil => exact Takes.pure ⟨(List.append_nil _).symm, .nil t u f⟩
  | cons child children ih =>
      rw [List.flatMap_cons] at hf ⊢
      have hnodup := hf.nodup_map
      rw [List.map_append, List.nodup_append'] at hnodup
      rw [numbersFrom_append_iff] at hf
      rw [List.foldlM_cons, List.length_append, ← Nat.add_assoc]
      refine Takes.bind (hchildren child List.mem_cons_self copies u hu hf.1) ?_
      rintro ⟨_, s⟩ ⟨rfl, hs⟩
      rw [← hs.next_eq] at hf ⊢
      refine (ih (fun c hc => hchildren c (List.mem_cons_of_mem _ hc)) (hs.retains hu hf.1)
        hf.2).mono ?_
      rintro ⟨_, r⟩ - ⟨rfl, hr⟩
      refine ⟨List.append_assoc _ _ _, hs.append hr ?_⟩
      exact fun x hx => hnodup.2.2 (List.mem_map_of_mem hx)

end CopyChild

/-- The copies get the next ids in the order of the originals, if there are enough of them. -/
theorem Mirrored.takes_copyLevels (h : t.Mirrored) (hid : t.contains id = true)
    (hlevels : t.Within levels id) (hu : Retains t u)
    (hf : NumbersFrom f u.ids.next (t.preorder levels id)) :
    Takes u.ids.next (u.ids.next + (t.preorder levels id).length) (copyLevels (levels + 1) u id)
      fun r => r.1 = some (f id) ∧ Copied t u r.2 f (some id) (t.preorder levels id) := by
  induction levels generalizing id u with
  | zero =>
      rw [Within, hid] at hlevels
      cases hlevels
  | succ levels ih =>
      obtain ⟨node, hget⟩ := Option.isSome_iff_exists.mp hid
      have hnodup := hf.nodup_map
      rw [preorder_succ hid, children_of_get? hget] at hf hnodup ⊢
      rw [List.map_cons, List.nodup_cons] at hnodup
      obtain ⟨hcopy, hrest⟩ := numbersFrom_cons_iff.mp hf
      rw [copyLevels_succ (hu.get? id node hget), List.length_cons, Nat.add_comm _ 1,
        ← Nat.add_assoc]
      -- The id of the copy is taken before those of the copies below it.
      refine Takes.bind (Takes.take u.ids.next) ?_
      rintro _ rfl
      have hskip : Retains t { u with ids := ⟨u.ids.next + 1⟩ } := hu.trans (.skip (.refl hu.fresh))
      refine Takes.bind (m := u.ids.next + 1 + _) (takes_copyChildren ?_ hskip hrest) ?_
      · intro child hchild copies s hs hnumbers
        rw [← children_of_get? hget] at hchild
        have hcontains := h.contains_child hchild
        have hmem := (hlevels child hchild).mem_preorder hcontains
        rw [← hcopy]
        exact takes_copyChild (ih hcontains (hlevels child hchild) hs hnumbers)
          ((h.mem_children_iff id child).mp hchild)
          (fun x hx heq => hnumbers.inj hx hmem heq) hmem (Nat.le_add_right _ _)
      · rintro ⟨children, s⟩ ⟨rfl, hs⟩
        rw [List.nil_append, ← hcopy]
        exact Takes.pure ⟨rfl, hs.cons hget hnodup.1⟩

namespace Copied

section Links

variable {x : NodeId} (h : Copied t u s f top ids)

include h

theorem children_copy (hx : x ∈ ids) : s.children (f x) = (t.children x).map f := by
  rw [children, h.get?_copy x hx, children]
  cases t.get? x <;> rfl

theorem parent?_copy (hx : x ∈ ids) :
    s.parent? (f x) = if top = some x then none else (t.parent? x).map f := by
  rw [parent?, h.get?_copy x hx, parent?]
  cases t.get? x with
  | none => exact (ite_self none).symm
  | some node => rfl

theorem contains_copy (hx : x ∈ ids) : s.contains (f x) = t.contains x := by
  rw [contains, h.get?_copy x hx, Option.isSome_map]
  rfl

theorem children_other (hx : x ∉ ids.map f) : s.children x = u.children x := by
  rw [children, h.get?_other x hx, children]

theorem parent?_other (hx : x ∉ ids.map f) : s.parent? x = u.parent? x := by
  rw [parent?, h.get?_other x hx, parent?]

end Links

theorem parent?_copy_of_ne {x : NodeId} (h : Copied t u s f (some id) ids) (hx : x ∈ ids)
    (hne : x ≠ id) : s.parent? (f x) = (t.parent? x).map f := by
  have htop : some id ≠ some x := fun heq => hne (Option.some.inj heq).symm
  rw [h.parent?_copy hx, if_neg htop]

end Copied

namespace IsForest

variable {x y : NodeId} (h : t.IsForest) (hid : t.contains id = true)

include h hid

theorem mem_descendants_iff : x ∈ t.descendants id ↔ t.Below id x :=
  h.toMirrored.mem_descendants_iff (h.acyclic.below id) hid

theorem mem_descendants_of_child (hx : x ∈ t.descendants id) (hy : y ∈ t.children x) :
    y ∈ t.descendants id ∧ y ≠ id := by
  rw [h.mem_descendants_iff hid] at hx ⊢
  refine ⟨hx.tail hy, ?_⟩
  rintro rfl
  exact h.acyclic y (.tail' hx hy)

theorem mem_descendants_of_parent? (hy : y ∈ t.descendants id) (hne : y ≠ id)
    (hparent : t.parent? y = some x) : x ∈ t.descendants id := by
  rw [h.mem_descendants_iff hid] at hy ⊢
  rcases hy.cases_tail with heq | ⟨z, hz, hlists⟩
  · exact absurd heq hne
  · rwa [h.eq_of_mem_children hlists ((h.mem_children_iff x y).mpr hparent)]

theorem exists_of_parent?_copy (hs : Copied t u s f (some id) (t.descendants id))
    (hy : y ∈ t.descendants id) (hx : s.parent? (f y) = some x) :
    ∃ z ∈ t.descendants id, t.parent? y = some z ∧ f z = x := by
  rw [hs.parent?_copy hy] at hx
  split_ifs at hx with htop
  obtain ⟨z, hz, rfl⟩ := Option.map_eq_some_iff.mp hx
  have hne : y ≠ id := fun heq => htop (congrArg some heq.symm)
  exact ⟨z, h.mem_descendants_of_parent? hid hy hne hz, hz, rfl⟩

end IsForest

theorem AcyclicBelow.copyId_descendants (h : t.AcyclicBelow id) (hid : t.contains id = true)
    (next : Nat) : copyId next (t.descendants id) id = ⟨next⟩ := by
  rw [h.descendants_eq hid, copyId, List.idxOf_cons_self, Nat.add_zero]

theorem IsForest.takes_copySubtree (h : t.IsForest) (ht : Retains t t)
    (hid : t.contains id = true) :
    Takes t.ids.next (t.ids.next + (t.descendants id).length) (t.copySubtree id) fun r =>
      r.1 = some ⟨t.ids.next⟩ ∧ Copied t t r.2 (copyId t.ids.next (t.descendants id)) (some id)
        (t.descendants id) := by
  have hbelow := h.acyclic.below id
  have hpreorder := hbelow.descendants_eq_preorder (Nat.le_refl _)
  have hnumbers := numbersFrom_copyId t.ids.next (h.nodup_descendants id)
  have hfirst := hbelow.copyId_descendants hid t.ids.next
  rw [hpreorder] at hfirst hnumbers ⊢
  have htakes := h.takes_copyLevels hid (hbelow.within (Nat.le_refl _)) ht hnumbers
  rwa [hfirst] at htakes

section Forest

variable (h : t.IsForest) (ht : Retains t t) (hid : t.contains id = true)
  (hs : Copied t t s f (some id) (t.descendants id))
  (hf : NumbersFrom f t.ids.next (t.descendants id))

include ht hf

theorem Retains.not_mem_copies {x : NodeId} (hx : t.contains x = true) :
    x ∉ (t.descendants id).map f := by
  intro hcopy
  obtain ⟨y, hy, rfl⟩ := List.mem_map.mp hcopy
  exact Nat.not_lt_of_le (List.mem_range'_1.mp (hf.index_mem hy)).1 (ht.fresh _ hx)

include h hid hs

/-- The links of the copies go both ways, and no link leads from them to other nodes or back. -/
theorem IsForest.mirrored_copy : s.Mirrored := by
  constructor
  intro p c
  by_cases hp : p ∈ (t.descendants id).map f
  · obtain ⟨x, hx, rfl⟩ := List.mem_map.mp hp
    rw [hs.children_copy hx, List.mem_map]
    constructor
    · rintro ⟨y, hy, rfl⟩
      obtain ⟨hmem, hne⟩ := h.mem_descendants_of_child hid hx hy
      rw [hs.parent?_copy_of_ne hmem hne, (h.mem_children_iff x y).mp hy, Option.map_some]
    · intro hc
      by_cases hcopy : c ∈ (t.descendants id).map f
      · obtain ⟨y, hy, rfl⟩ := List.mem_map.mp hcopy
        obtain ⟨z, hz, hparent, heq⟩ := h.exists_of_parent?_copy hid hs hy hc
        obtain rfl := hf.inj hz hx heq
        exact ⟨y, (h.mem_children_iff z y).mpr hparent, rfl⟩
      · rw [hs.parent?_other hcopy, ← h.mem_children_iff] at hc
        exact absurd hp (ht.not_mem_copies hf (contains_of_mem_children hc))
  · rw [hs.children_other hp]
    by_cases hcopy : c ∈ (t.descendants id).map f
    · obtain ⟨y, hy, rfl⟩ := List.mem_map.mp hcopy
      constructor
      · intro hlists
        exact absurd hcopy (ht.not_mem_copies hf (h.contains_child hlists))
      · intro hc
        obtain ⟨z, hz, -, rfl⟩ := h.exists_of_parent?_copy hid hs hy hc
        exact absurd (List.mem_map_of_mem hz) hp
    · rw [hs.parent?_other hcopy, h.mem_children_iff]

theorem IsForest.ends_copy (x : NodeId) : s.Ends x := by
  by_cases hcopy : x ∈ (t.descendants id).map f
  · obtain ⟨y, hy, rfl⟩ := List.mem_map.mp hcopy
    rw [h.mem_descendants_iff hid] at hy
    induction hy with
    | refl =>
        apply Ends.of_none
        rw [hs.parent?_copy ((h.mem_descendants_iff hid).mpr .refl), if_pos rfl]
    | @tail y z hy hlists ih =>
        have hmem := (h.mem_descendants_iff hid).mpr hy
        have hup := (h.mirrored_copy ht hid hs hf).mem_children_iff (f y) (f z)
        rw [hs.children_copy hmem] at hup
        exact (ih (List.mem_map_of_mem hmem)).of_parent (hup.mp (List.mem_map_of_mem hlists))
  · -- The way up from another node is what it was.
    obtain ⟨path, hpath⟩ := h.ends x
    refine ⟨path, hpath.congr fun y hy => hs.parent?_other ?_⟩
    rcases List.mem_cons.mp hy with rfl | hy
    · exact hcopy
    · cases path with
      | nil => cases hy
      | cons parent path =>
          have hlists := (h.mem_children_iff parent x).mpr hpath.1
          exact ht.not_mem_copies hf
            (h.contains_of_climbs hpath.2 (contains_of_mem_children hlists) y hy)

theorem IsForest.isForest_copy : s.IsForest := by
  refine .of_ends (h.mirrored_copy ht hid hs hf) ?_ (h.ends_copy ht hid hs hf)
  intro x
  by_cases hcopy : x ∈ (t.descendants id).map f
  · obtain ⟨y, hy, rfl⟩ := List.mem_map.mp hcopy
    rw [hs.children_copy hy]
    apply (h.nodup y).map_on
    intro a ha b hb heq
    have hmem := fun z (hz : z ∈ t.children y) => (h.mem_descendants_of_child hid hy hz).1
    exact hf.inj (hmem a ha) (hmem b hb) heq
  · rw [hs.children_other hcopy]
    exact h.nodup x

end Forest

end Tree

end TemplateLogging
