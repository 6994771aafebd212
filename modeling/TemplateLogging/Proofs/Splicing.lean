import TemplateLogging.Proofs.Replacement

namespace TemplateLogging.Tree

variable {t s : Tree} {id parent x : NodeId} {ids before after : List NodeId}

/-- Nodes that are hung next to each other stand there in their order, and all other lists lose
them. -/
theorem Mirrored.children_insertChildren (h : t.Mirrored) (hparent : t.contains parent = true)
    (hids : ∀ id ∈ ids, t.contains id = true) (hnodup : ids.Nodup)
    (hout : ∀ id ∈ ids, id ∉ t.children parent) (hsplit : t.children parent = before ++ after)
    (hs : t.insertChildren parent before.length ids = .ok s) (x : NodeId) :
    s.children x =
      if x = parent then before ++ ids ++ after else (t.children x).filter (· ∉ ids) := by
  induction ids generalizing t before with
  | nil =>
      cases hs
      split_ifs with hx
      · rw [hx, hsplit, List.append_nil]
      · simp
  | cons id ids ih =>
      rw [Tree.insertChildren] at hs
      obtain ⟨u, hinsert, hs⟩ := Except.exists_of_bind_eq_ok hs
      have hid := hids id List.mem_cons_self
      obtain ⟨hidIds, hnodup⟩ := List.nodup_cons.mp hnodup
      have hidOut := hout id List.mem_cons_self
      have hrelinks := relinks_insertChild hinsert
      have hchildren := h.children_insertChild hparent hinsert
      have hkeep : (t.children parent).filter (· ≠ id) = before ++ after := by
        rw [filter_ne_of_not_mem hidOut, hsplit]
      have hlist : u.children parent = before ++ [id] ++ after := by
        rw [hchildren, if_pos rfl, hkeep, Nat.min_eq_left (by simp), insertIdx_length_append,
          List.append_assoc, List.singleton_append]
      have hidsOut : ∀ y ∈ ids, y ∉ u.children parent := by
        intro y hy
        have hyOut := hout y (List.mem_cons_of_mem _ hy)
        have hyid : y ≠ id := ne_of_mem_of_not_mem hy hidIds
        rw [hsplit, List.mem_append] at hyOut
        rw [hlist]
        simpa [hyid] using hyOut
      have hidsIn : ∀ y ∈ ids, u.contains y = true := by
        intro y hy
        rw [hrelinks.contains]
        exact hids y (List.mem_cons_of_mem _ hy)
      -- The first one stands in its place, and the others come behind it.
      have hlength : before.length + 1 = (before ++ [id]).length := by simp
      rw [hlength] at hs
      rw [ih (h.insertChild hparent hid hinsert) ((hrelinks.contains parent).trans hparent)
        hidsIn hnodup hidsOut hlist hs]
      split_ifs with hx
      · simp
      · rw [hchildren, if_neg hx, List.filter_filter]
        apply List.filter_congr
        intro y _
        simp [Bool.and_comm]

theorem removeSubtree_of_childless (hid : t.contains id = true)
    (hchildren : (t.detach id).children id = []) :
    t.removeSubtree id = (t.detach id).eraseNode id := by
  rw [← (relinks_detach t id).contains] at hid
  obtain ⟨node, hget⟩ := Option.isSome_iff_exists.mp hid
  rw [children_of_get? hget] at hchildren
  have hpops : (t.detach id).pops (t.detach id).size id = 1 := by
    cases (t.detach id).size with
    | zero => rfl
    | succ levels => simp [pops, hget, hchildren]
  rw [removeSubtree_eq, descendants, hpops]
  simp [drain, hget]

namespace IsForest

theorem not_mem_children_self (h : t.IsForest) (id : NodeId) : id ∉ t.children id :=
  fun hlists => h.acyclic id (.single hlists)

section Moved

variable (h : t.IsForest) (hsplit : t.children parent = before ++ id :: after)

include h hsplit

theorem parent?_eq_some : t.parent? id = some parent :=
  (h.mem_children_iff parent id).mp (mem_children_of_split hsplit)

theorem ne_parent : id ≠ parent := by
  rintro rfl
  exact h.not_mem_children_self id (mem_children_of_split hsplit)

theorem not_mem_beside : id ∉ before ++ after := by
  have hnodup := h.nodup parent
  rw [hsplit, List.nodup_middle] at hnodup
  exact (List.nodup_cons.mp hnodup).1

theorem nodup_spliced : (before ++ t.children id ++ after).Nodup := by
  have hperm : (before ++ t.children id ++ after).Perm (t.children id ++ (before ++ after)) := by
    rw [← List.append_assoc]
    exact List.perm_append_comm.append_right after
  have hnodup := h.nodup parent
  rw [hsplit, List.nodup_middle] at hnodup
  rw [hperm.nodup_iff, List.nodup_append']
  refine ⟨h.nodup id, (List.nodup_cons.mp hnodup).2, ?_⟩
  intro x hx hbeside
  apply h.ne_parent hsplit
  apply h.eq_of_mem_children _ hx
  rw [hsplit, List.mem_append, List.mem_cons]
  rw [List.mem_append] at hbeside
  exact hbeside.imp_right Or.inr

theorem childIndex?_eq : t.childIndex? parent id = some before.length := by
  have hbefore := fun hmem => h.not_mem_beside hsplit (List.mem_append_left after hmem)
  rw [childIndex?, hsplit, idxOf?_append_cons after hbefore]

theorem exists_moved : ∃ u, t.unwrap id = .ok (u.removeSubtree id) ∧
    Relinks t u ∧ u.Mirrored ∧ (∀ x, u.Ends x) ∧
    (∀ x, u.parent? x = if x ∈ t.children id then some parent else t.parent? x) ∧
    ∀ x, u.children x = if x = parent then before ++ [id] ++ t.children id ++ after
      else if x = id then [] else t.children x := by
  have hparent := h.parent?_eq_some hsplit
  have hcontains := contains_of_mem_children (mem_children_of_split hsplit)
  obtain ⟨path, hpath⟩ := h.ends parent
  have hids : ∀ x ∈ t.children id, t.contains x = true := fun x hx => h.contains_child hx
  obtain ⟨u, hinsert, hpath'⟩ := hpath.insertChildren
    (fun x hx => ⟨hids x hx, h.not_mem_of_child hparent hpath hx⟩) (before.length + 1)
  refine ⟨u, ?_, relinks_insertChildren hinsert,
    h.toMirrored.insertChildren hcontains hids hinsert,
    ends_insertChildren h.ends hids hinsert hpath', parent?_insertChildren hids hinsert, ?_⟩
  · rw [Tree.unwrap, hparent]
    simp only [h.childIndex?_eq hsplit, hinsert]
    rfl
  · intro x
    have hout : ∀ y ∈ t.children id, y ∉ t.children parent := fun y hy hyparent =>
      h.ne_parent hsplit (h.eq_of_mem_children hy hyparent).symm
    have hsplit' : t.children parent = (before ++ [id]) ++ after := by
      rw [hsplit, List.append_assoc, List.singleton_append]
    have hlength : before.length + 1 = (before ++ [id]).length := by simp
    rw [hlength] at hinsert
    rw [h.children_insertChildren hcontains hids (h.nodup id) hout hsplit' hinsert]
    split_ifs with hxparent hx
    · rfl
    · rw [hx]
      simp
    · rw [List.filter_eq_self]
      intro y hy
      rw [decide_eq_true_eq]
      exact fun hyid => hx (h.eq_of_mem_children hyid hy)

end Moved

/-- The node has no parent and no children left, and the children stand where it stood. -/
structure Emptied (t u : Tree) (id parent : NodeId) (before after : List NodeId) : Prop where
  relinks : Relinks t u
  mirrored : u.Mirrored
  ends : ∀ x, u.Ends x
  parent?_eq : ∀ x, u.parent? x =
    if x = id then none else if x ∈ t.children id then some parent else t.parent? x
  children_eq : ∀ x, u.children x =
    if x = id then [] else if x = parent then before ++ t.children id ++ after else t.children x

theorem exists_emptied (h : t.IsForest) (hsplit : t.children parent = before ++ id :: after) :
    ∃ u, t.unwrap id = .ok (u.eraseNode id) ∧ Emptied t u id parent before after := by
  obtain ⟨u, hunwrap, hrelinks, hmirrored, hends, hparent?, hchildren⟩ := h.exists_moved hsplit
  have hchildren' : ∀ x, (u.detach id).children x = if x = id then []
      else if x = parent then before ++ t.children id ++ after else t.children x := by
    intro x
    rw [hmirrored.children_detach, hchildren]
    split_ifs with hxparent hx hx
    · exact absurd (hx.symm.trans hxparent) (h.ne_parent hsplit)
    · have hnodup : (before ++ id :: (t.children id ++ after)).Nodup := by
        have hbeside := h.not_mem_beside hsplit
        rw [List.mem_append] at hbeside
        rw [List.nodup_middle, List.nodup_cons, ← List.append_assoc]
        refine ⟨?_, h.nodup_spliced hsplit⟩
        simpa [h.not_mem_children_self id] using hbeside
      rw [List.append_assoc (before ++ [id]), List.append_assoc before [id], List.singleton_append,
        filter_ne_append_cons hnodup, List.append_assoc]
    · rfl
    · exact filter_ne_of_not_mem fun hid =>
        hxparent (h.eq_of_mem_children (mem_children_of_split hsplit) hid)
  refine ⟨u.detach id, ?_, hrelinks.trans (relinks_detach u id), hmirrored.detach id,
    ends_detach hends id, ?_, hchildren'⟩
  · have hcontains : u.contains id = true :=
      (hrelinks.contains id).trans (contains_of_parent? (h.parent?_eq_some hsplit))
    rw [hunwrap, removeSubtree_of_childless hcontains ((hchildren' id).trans (if_pos rfl))]
  · intro x
    rw [parent?_detach, hparent?]

namespace Emptied

variable {u : Tree} (hu : Emptied t u id parent before after)

include hu

theorem get?_eraseNode (x : NodeId) : (u.eraseNode id).get? x = if x = id then none else
    (t.get? x).map fun node =>
      { node with
        parent := if x ∈ t.children id then some parent else node.parent
        children := if x = parent then before ++ t.children id ++ after else node.children } := by
  rw [Tree.get?_eraseNode, hu.relinks.get?_eq, hu.parent?_eq, hu.children_eq]
  by_cases hx : x = id
  · rw [if_pos hx.symm, if_pos hx]
  · rw [if_neg (Ne.symm hx), if_neg hx, if_neg hx, if_neg hx]
    cases hget : t.get? x with
    | none => rfl
    | some node =>
        rw [parent?_of_get? hget, children_of_get? hget, Option.map_some, Option.map_some]

theorem children_eraseNode (x : NodeId) : (u.eraseNode id).children x = u.children x := by
  have herase := children_foldl_eraseNode [id] u x
  rw [List.foldl_cons, List.foldl_nil] at herase
  rw [herase]
  split_ifs with hx
  · rw [hu.children_eq, if_pos (List.mem_singleton.mp hx)]
  · rfl

theorem isForest_eraseNode (h : t.IsForest) (hsplit : t.children parent = before ++ id :: after) :
    (u.eraseNode id).IsForest := by
  have hmirrored : ([id].foldl eraseNode u).Mirrored := by
    apply hu.mirrored.erase
    intro p c hlists
    have hc := (hu.mirrored.mem_children_iff p c).mp hlists
    rw [hu.children_eq] at hlists
    rw [hu.parent?_eq] at hc
    rw [List.mem_singleton, List.mem_singleton]
    constructor
    · rintro rfl
      rw [if_pos rfl] at hlists
      cases hlists
    · rintro rfl
      rw [if_pos rfl] at hc
      cases hc
  refine .of_ends hmirrored ?_ (ends_foldl_eraseNode hu.ends [id])
  intro x
  show ((u.eraseNode id).children x).Nodup
  rw [hu.children_eraseNode, hu.children_eq]
  split_ifs
  · exact List.nodup_nil
  · exact h.nodup_spliced hsplit
  · exact h.nodup x

end Emptied

end IsForest

/-- What stands for a node in its parent's list when another one is unwrapped. -/
def unwrapped (t : Tree) (id x : NodeId) : List NodeId :=
  if x = id then t.children id else [x]

theorem flatMap_unwrapped_of_not_mem (hids : id ∉ ids) : ids.flatMap (t.unwrapped id) = ids := by
  have heach : ∀ x ∈ ids, t.unwrapped id x = [x] := fun x hx =>
    if_neg (ne_of_mem_of_not_mem hx hids)
  rw [List.flatMap_congr heach, List.flatMap_singleton']

/-- In the second tree all lists have the children of the node in its place. -/
structure Unwraps (t s : Tree) (id : NodeId) : Prop where
  contains : t.contains id = true
  not_mem_children : id ∉ t.children id
  contains_eq : ∀ x, x ≠ id → s.contains x = t.contains x
  children_eq : ∀ x, x ≠ id → s.children x = (t.children x).flatMap (t.unwrapped id)

namespace Unwraps

variable (h : t.Unwraps s id)

include h

/-- The nodes keep their order. The second tree may need more levels at a time, as the children of
the node have come up to the level of the node. -/
theorem flatMap_preorder {levels more : Nat} (hx : t.Within levels x) (hle : levels ≤ more) :
    (t.unwrapped id x).flatMap (s.preorder more) = (t.preorder levels x).filter (· ≠ id) := by
  have hmissing : ∀ x levels more, t.contains x = false →
      (t.unwrapped id x).flatMap (s.preorder more) = (t.preorder levels x).filter (· ≠ id) := by
    intro x levels more hx
    have hne : x ≠ id := by
      rintro rfl
      rw [h.contains] at hx
      cases hx
    rw [unwrapped, if_neg hne, List.flatMap_singleton, preorder_of_not_contains hx,
      preorder_of_not_contains ((h.contains_eq x hne).trans hx), List.filter_nil]
  induction levels generalizing x more with
  | zero => exact hmissing x 0 more hx
  | succ levels ih =>
      cases hcontains : t.contains x with
      | false => exact hmissing x (levels + 1) more hcontains
      | true =>
          rw [preorder_succ hcontains]
          by_cases hid : x = id
          · -- The node goes, and what is left of it is what its children leave.
            subst hid
            rw [List.filter_cons_of_neg (by simp), List.filter_flatMap, unwrapped, if_pos rfl]
            apply List.flatMap_congr
            intro child hchild
            have hne : child ≠ x := ne_of_mem_of_not_mem hchild h.not_mem_children
            rw [← ih (hx child hchild) (Nat.le_of_succ_le hle), unwrapped, if_neg hne,
              List.flatMap_singleton]
          · obtain ⟨more, rfl⟩ := Nat.exists_eq_add_of_le' (Nat.zero_lt_of_lt hle)
            rw [List.filter_cons_of_pos (by simpa using hid), List.filter_flatMap, unwrapped,
              if_neg hid, List.flatMap_singleton,
              preorder_succ ((h.contains_eq x hid).trans hcontains), h.children_eq x hid,
              List.flatMap_assoc]
            congr 1
            exact List.flatMap_congr fun child hchild =>
              ih (hx child hchild) (Nat.le_of_succ_le_succ hle)

theorem descendants_eq (ht : t.IsForest) (hs : s.IsForest) (hne : x ≠ id) :
    s.descendants x = (t.descendants x).erase id := by
  have hbelow := ht.acyclic.below x
  have hflat := h.flatMap_preorder (hbelow.within (Nat.le_refl _)) (Nat.le_max_left t.size s.size)
  rw [unwrapped, if_neg hne, List.flatMap_singleton,
    ← (hs.acyclic.below x).descendants_eq_preorder (Nat.le_max_right t.size s.size),
    ← hbelow.descendants_eq_preorder (Nat.le_refl _)] at hflat
  rw [hflat, (ht.nodup_descendants x).erase_eq_filter]
  apply List.filter_congr
  intro y _
  rw [Bool.eq_iff_iff, decide_eq_true_iff, bne_iff_ne]

end Unwraps

namespace IsForest

namespace Emptied

variable {u : Tree} (hu : Emptied t u id parent before after) (h : t.IsForest)
  (hsplit : t.children parent = before ++ id :: after)

include hu h hsplit

theorem unwraps : t.Unwraps (u.eraseNode id) id where
  contains := h.contains_child (mem_children_of_split hsplit)
  not_mem_children := h.not_mem_children_self id
  contains_eq x hne := by
    rw [Tree.contains, Tree.get?_eraseNode, if_neg hne.symm]
    exact hu.relinks.contains x
  children_eq x hne := by
    have hbeside := h.not_mem_beside hsplit
    rw [List.mem_append, not_or] at hbeside
    rw [hu.children_eraseNode, hu.children_eq, if_neg hne]
    split_ifs with hx
    · rw [hx, hsplit, List.flatMap_append, List.flatMap_cons, unwrapped, if_pos rfl,
        flatMap_unwrapped_of_not_mem hbeside.1, flatMap_unwrapped_of_not_mem hbeside.2,
        List.append_assoc]
    · rw [flatMap_unwrapped_of_not_mem]
      exact fun hid => hx (h.eq_of_mem_children (mem_children_of_split hsplit) hid)

theorem linked_eraseNode (ht : t.Linked) : (u.eraseNode id).Linked := by
  refine ⟨(hu.isForest_eraseNode h hsplit).toMirrored, ?_, ?_⟩
  · obtain ⟨root, hget, hparent⟩ := ht.root
    have hne : t.root ≠ id := (ht.ne_root (mem_children_of_split hsplit)).symm
    have hout : t.root ∉ t.children id := fun hlists => ht.ne_root hlists rfl
    have hroot : (u.eraseNode id).root = t.root := hu.relinks.root
    rw [hroot, hu.get?_eraseNode, if_neg hne, hget, Option.map_some]
    exact ⟨_, rfl, (if_neg hout).trans hparent⟩
  · intro x node hget
    rw [hu.get?_eraseNode, Option.ite_none_left_eq_some] at hget
    obtain ⟨old, hold, rfl⟩ := Option.map_eq_some_iff.mp hget.2
    exact ht.id_eq x old hold

end Emptied

end IsForest

/-- What unwrapping a node does to a forest. A node without a parent stays where it is. Any other
one goes, its children stand in its place in their order and name its parent, and all else is as it
was, also the order of what is below any other node. -/
theorem IsForest.unwrap_outcome (h : t.IsForest) (id : NodeId) :
    (t.parent? id = none → t.unwrap id = .ok t) ∧
    ∀ parent, t.parent? id = some parent → ∃ before after s,
      t.children parent = before ++ id :: after ∧ t.unwrap id = .ok s ∧
      s.root = t.root ∧ s.ids = t.ids ∧
      (∀ x, s.get? x = if x = id then none else (t.get? x).map fun node =>
        { node with
          parent := if x ∈ t.children id then some parent else node.parent
          children := if x = parent then before ++ t.children id ++ after else node.children }) ∧
      s.IsForest ∧ (t.Linked → s.Linked) ∧ (∀ x, (t.descendants x).Nodup) ∧
      ∀ x, x ≠ id → s.descendants x = (t.descendants x).erase id := by
  constructor
  · intro hparent
    rw [Tree.unwrap, hparent]
  · intro parent hparent
    have hlists := (h.mem_children_iff parent id).mpr hparent
    obtain ⟨before, after, hsplit⟩ := List.append_of_mem hlists
    obtain ⟨u, hunwrap, hu⟩ := h.exists_emptied hsplit
    have hforest := hu.isForest_eraseNode h hsplit
    exact ⟨before, after, u.eraseNode id, hsplit, hunwrap, hu.relinks.root, hu.relinks.ids,
      hu.get?_eraseNode, hforest, hu.linked_eraseNode h hsplit, h.nodup_descendants,
      fun x hne => (hu.unwraps h hsplit).descendants_eq h hforest hne⟩

/-- The template is unwrapped, and the file takes the texts. -/
theorem unwrap_outcome_twoTexts : twoTexts.IsForest ∧ twoTexts.unwrap ⟨0⟩ = .ok twoTexts ∧
    ∃ s, twoTexts.unwrap ⟨2⟩ = .ok s ∧ s.contains ⟨2⟩ = false ∧
      s.children ⟨1⟩ = [⟨3⟩, ⟨4⟩] ∧ s.parent? ⟨4⟩ = some ⟨1⟩ ∧
      s.descendants ⟨0⟩ = [⟨0⟩, ⟨1⟩, ⟨3⟩, ⟨4⟩] := by
  obtain ⟨hkept, -⟩ := isForest_twoTexts.unwrap_outcome ⟨0⟩
  obtain ⟨-, hspliced⟩ := isForest_twoTexts.unwrap_outcome ⟨2⟩
  obtain ⟨before, after, s, hsplit, hs, -, -, hget, -, -, -, hdescendants⟩ := hspliced ⟨1⟩ rfl
  have halone : [⟨2⟩] = before ++ ⟨2⟩ :: after := hsplit
  obtain ⟨rfl, rfl⟩ : before = [] ∧ after = [] := by
    simpa [List.singleton_eq_append_iff] using halone
  refine ⟨isForest_twoTexts, hkept rfl, s, hs, ?_, ?_, ?_, ?_⟩
  · rw [contains, hget]
    rfl
  · rw [children, hget]
    rfl
  · rw [parent?, hget]
    rfl
  · rw [hdescendants ⟨0⟩ (by decide)]
    rfl

/-- A file set that hangs in a block. -/
def rootUnderBlock : Tree :=
  ofNodes [
    .numbered 0 (some 1) [2] .fileSet,
    .numbered 1 none [0] .ifBlock,
    .numbered 2 (some 0) [] (.file "page.soy" .source)]

/-- Where the root has a parent and is unwrapped itself, nothing is left below the root. -/
theorem rootUnderBlock_emptied :
    (do
      let (block, t) ← empty.create .ifBlock .unknown
      let t ← t.addChild block ⟨0⟩
      let (_, t) ← t.append ⟨0⟩ (.file "page.soy" .source) .unknown
      return t) = Except.ok (ε := Fault) rootUnderBlock ∧
    rootUnderBlock.IsForest ∧ rootUnderBlock.Reaches ⟨0⟩ ∧
    rootUnderBlock.parent? ⟨0⟩ = some ⟨1⟩ ∧
    (rootUnderBlock.descendants rootUnderBlock.root).erase ⟨0⟩ = [⟨2⟩] ∧
    ∃ s, rootUnderBlock.unwrap ⟨0⟩ = .ok s ∧ s.root = ⟨0⟩ ∧ s.descendants s.root = [] := by
  have hforest : rootUnderBlock.IsForest :=
    Mirrored.isForest (by decide) (fun id => if id = ⟨1⟩ then 0 else id.index + 1) (by decide)
  exact ⟨rfl, hforest, .refl, rfl, rfl, _, rfl, rfl, rfl⟩

end TemplateLogging.Tree
