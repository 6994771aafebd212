import Mathlib.Data.Set.Finite.Basic
import TemplateLogging.Proofs.Preorder
import TemplateLogging.Proofs.Removal

/-!
Ways up, and tables that are a forest. As a table is finite, there is no circle exactly if every way
up ends.
-/

namespace TemplateLogging.Tree

variable {t s : Tree} {id parent child old new : NodeId} {path : List NodeId}

/-- The way up from a node comes to an end. -/
def Ends (t : Tree) (id : NodeId) : Prop :=
  ∃ path, t.Climbs id path

theorem Ends.of_none (h : t.parent? id = none) : t.Ends id :=
  ⟨[], h⟩

theorem Ends.of_parent (hparent : t.Ends parent) (h : t.parent? id = some parent) : t.Ends id := by
  obtain ⟨path, hpath⟩ := hparent
  exact ⟨parent :: path, h, hpath⟩

theorem Climbs.congr (h : t.Climbs id path)
    (hs : ∀ x ∈ id :: path, s.parent? x = t.parent? x) : s.Climbs id path := by
  induction path generalizing id with
  | nil => exact (hs id List.mem_cons_self).trans h
  | cons parent path ih =>
      exact ⟨(hs id List.mem_cons_self).trans h.1,
        ih h.2 fun x hx => hs x (List.mem_cons_of_mem _ hx)⟩

theorem Climbs.ends (h : t.Climbs id path)
    (hs : ∀ x ∈ id :: path, s.parent? x = t.parent? x ∨ s.Ends x) : s.Ends id := by
  induction path generalizing id with
  | nil =>
      rcases hs id List.mem_cons_self with hsame | hends
      · exact .of_none (hsame.trans h)
      · exact hends
  | cons parent path ih =>
      rcases hs id List.mem_cons_self with hsame | hends
      · have hparent := ih h.2 fun x hx => hs x (List.mem_cons_of_mem _ hx)
        exact hparent.of_parent (hsame.trans h.1)
      · exact hends

theorem Climbs.reaches_eq_false (h : t.Climbs id path) {candidate : NodeId}
    (hcandidate : candidate ∉ id :: path) (fuel : Nat) : t.reaches candidate fuel id = false := by
  have hne : id ≠ candidate := (List.ne_of_not_mem_cons hcandidate).symm
  induction fuel generalizing id path with
  | zero => exact decide_eq_false hne
  | succ fuel ih =>
      rw [reaches, if_neg hne]
      cases path with
      | nil => rw [show t.parent? id = none from h]
      | cons parent path =>
          have hparent := List.not_mem_of_not_mem_cons hcandidate
          rw [h.1]
          exact ih h.2 hparent (List.ne_of_not_mem_cons hparent).symm

/-- Every way up still ends if each link that has changed leads to a way up that ends. -/
theorem ends_of_relinked (h : ∀ x, t.Ends x) (hs : ∀ x, s.parent? x = t.parent? x ∨ s.Ends x)
    (x : NodeId) : s.Ends x := by
  obtain ⟨path, hpath⟩ := h x
  exact hpath.ends fun y _ => hs y

theorem ends_of_unhung (h : ∀ x, t.Ends x)
    (hs : ∀ x, s.parent? x = none ∨ s.parent? x = t.parent? x) (x : NodeId) : s.Ends x :=
  ends_of_relinked h (fun y => (hs y).symm.imp_right Ends.of_none) x

theorem ends_of_hung (h : ∀ x, t.Ends x) (hparent : s.Ends parent)
    (hs : ∀ x, s.parent? x = some parent ∨ s.parent? x = t.parent? x) (x : NodeId) : s.Ends x :=
  ends_of_relinked h (fun y => (hs y).symm.imp_right hparent.of_parent) x

theorem ends_detach (h : ∀ x, t.Ends x) (id x : NodeId) : (t.detach id).Ends x := by
  refine ends_of_unhung h ?_ x
  intro y
  rw [parent?_detach]
  exact ite_eq_or_eq _ _ _

theorem ends_foldl_eraseNode (h : ∀ x, t.Ends x) (ids : List NodeId) (x : NodeId) :
    (ids.foldl eraseNode t).Ends x := by
  refine ends_of_unhung h ?_ x
  intro y
  rw [parent?_foldl_eraseNode]
  exact ite_eq_or_eq _ _ _

/-- A node that is not on the way up from another one may be hung below it, and the way up stays
as it is. -/
theorem Climbs.insertChild (hpath : t.Climbs parent path) (hapart : child ∉ parent :: path)
    (hchild : t.contains child = true) (index : Nat) :
    ∃ s, t.insertChild parent index child = .ok s ∧ s.Climbs parent path := by
  have hs : t.insertChild parent index child =
      .ok ((t.detach child).attach parent index child) :=
    insertChild_eq_ok_iff.mpr ⟨hpath.reaches_eq_false hapart _, rfl⟩
  refine ⟨_, hs, hpath.congr ?_⟩
  intro x hx
  rw [parent?_insertChild hchild hs, if_neg (ne_of_mem_of_not_mem hx hapart)]

theorem ends_insertChild (h : ∀ x, t.Ends x) (hchild : t.contains child = true) {index : Nat}
    (hs : t.insertChild parent index child = .ok s) (hpath : s.Climbs parent path) (x : NodeId) :
    s.Ends x := by
  refine ends_of_hung h ⟨path, hpath⟩ ?_ x
  intro y
  rw [parent?_insertChild hchild hs]
  exact ite_eq_or_eq _ _ _

section InsertChildren

variable {ids : List NodeId}

theorem parent?_insertChildren (hids : ∀ id ∈ ids, t.contains id = true) {index : Nat}
    (hs : t.insertChildren parent index ids = .ok s) (x : NodeId) :
    s.parent? x = if x ∈ ids then some parent else t.parent? x := by
  induction ids generalizing t index with
  | nil =>
      cases hs
      rfl
  | cons id ids ih =>
      rw [Tree.insertChildren] at hs
      obtain ⟨u, hinsert, hs⟩ := Except.exists_of_bind_eq_ok hs
      have hrest : ∀ y ∈ ids, u.contains y = true := by
        intro y hy
        rw [(relinks_insertChild hinsert).contains]
        exact hids y (List.mem_cons_of_mem _ hy)
      rw [ih hrest hs, parent?_insertChild (hids id List.mem_cons_self) hinsert]
      by_cases hx : x ∈ ids
      · simp [hx]
      · simp [hx]

theorem Climbs.insertChildren (hpath : t.Climbs parent path)
    (hids : ∀ id ∈ ids, t.contains id = true ∧ id ∉ parent :: path) (index : Nat) :
    ∃ s, t.insertChildren parent index ids = .ok s ∧ s.Climbs parent path := by
  induction ids generalizing t index with
  | nil => exact ⟨t, rfl, hpath⟩
  | cons id ids ih =>
      obtain ⟨hid, hapart⟩ := hids id List.mem_cons_self
      obtain ⟨u, hinsert, hpath'⟩ := hpath.insertChild hapart hid index
      have hrest : ∀ x ∈ ids, u.contains x = true ∧ x ∉ parent :: path := by
        intro x hx
        rw [(relinks_insertChild hinsert).contains]
        exact hids x (List.mem_cons_of_mem _ hx)
      obtain ⟨s, hs, hpath''⟩ := ih hpath' hrest (index + 1)
      refine ⟨s, ?_, hpath''⟩
      rw [Tree.insertChildren, hinsert]
      exact hs

theorem ends_insertChildren (h : ∀ x, t.Ends x) (hids : ∀ id ∈ ids, t.contains id = true)
    {index : Nat} (hs : t.insertChildren parent index ids = .ok s) (hpath : s.Climbs parent path)
    (x : NodeId) : s.Ends x := by
  refine ends_of_hung h ⟨path, hpath⟩ ?_ x
  intro y
  rw [parent?_insertChildren hids hs]
  exact ite_eq_or_eq _ _ _

end InsertChildren

theorem Mirrored.ends_replaceChild (h : t.Mirrored) (hends : ∀ x, t.Ends x)
    (hnew : t.contains new = true) (hne : new ≠ old) (hpath : t.Climbs parent path)
    (hapart : new ∉ parent :: path) {index : Nat}
    (hindex : (t.detach new).childIndex? parent old = some index) (x : NodeId) :
    (t.replaceChild parent old new).Ends x := by
  have hparent? := h.parent?_replaceChild hnew hindex
  have hold : (t.replaceChild parent old new).Ends old := by
    apply Ends.of_none
    rw [hparent?, if_pos rfl]
  have hhung : (t.replaceChild parent old new).Ends new := by
    have hup : (t.replaceChild parent old new).Ends parent := by
      refine hpath.ends ?_
      intro y hy
      by_cases hyold : y = old
      · rw [hyold]
        exact Or.inr hold
      · left
        rw [hparent?, if_neg hyold, if_neg (ne_of_mem_of_not_mem hy hapart)]
    apply hup.of_parent
    rw [hparent?, if_neg hne, if_pos rfl]
  refine ends_of_relinked hends ?_ x
  intro y
  by_cases hynew : y = new
  · rw [hynew]
    exact Or.inr hhung
  · by_cases hyold : y = old
    · rw [hyold]
      exact Or.inr hold
    · left
      rw [hparent?, if_neg hyold, if_neg hynew]

theorem Mirrored.below_iff (h : t.Mirrored) (hpath : t.Climbs id path) (above : NodeId) :
    t.Below above id ↔ above ∈ id :: path := by
  constructor
  · intro hbelow
    induction hbelow generalizing path with
    | refl => exact List.mem_cons_self
    | tail _ hlists ih =>
        have hparent := (h.mem_children_iff _ _).mp hlists
        cases path with
        | nil =>
            rw [show t.parent? _ = none from hpath] at hparent
            cases hparent
        | cons parent path =>
            rw [hpath.1, Option.some.injEq] at hparent
            subst hparent
            exact List.mem_cons_of_mem _ (ih hpath.2)
  · intro habove
    induction path generalizing id with
    | nil =>
        rw [List.mem_singleton] at habove
        rw [habove]
        exact .refl
    | cons parent path ih =>
        rcases List.mem_cons.mp habove with rfl | habove
        · exact .refl
        · exact (ih hpath.2 habove).tail ((h.mem_children_iff parent id).mpr hpath.1)

/-- The way up from a child leads over the node to its parent and does not meet the child again. -/
theorem Mirrored.not_mem_of_child (h : t.Mirrored) (hparent : t.parent? id = some parent)
    (hpath : t.Climbs parent path) (hchild : child ∈ t.children id) : child ∉ parent :: path := by
  have hclimbs : t.Climbs child (id :: parent :: path) :=
    ⟨(h.mem_children_iff id child).mp hchild, hparent, hpath⟩
  exact List.not_mem_of_not_mem_cons (List.nodup_cons.mp hclimbs.nodup).1

theorem Mirrored.not_below (h : t.Mirrored) (path : List NodeId) (hpath : t.Climbs id path)
    {other : NodeId} (hother : other ∉ id :: path) : ¬ t.Below other id :=
  fun hbelow => hother ((h.below_iff hpath other).mp hbelow)

theorem Mirrored.ends_of_below (h : t.Mirrored) (hid : t.Ends id) (hbelow : t.Below id child) :
    t.Ends child := by
  induction hbelow with
  | refl => exact hid
  | tail _ hlists ih => exact ih.of_parent ((h.mem_children_iff _ _).mp hlists)

theorem Mirrored.not_transGen_self (h : t.Mirrored) (hpath : t.Climbs id path) :
    ¬ Relation.TransGen (fun x y => y ∈ t.children x) id id := by
  intro hcircle
  obtain ⟨parent, hbelow, hlists⟩ := Relation.TransGen.tail'_iff.mp hcircle
  have hparent := (h.mem_children_iff parent id).mp hlists
  cases path with
  | nil =>
      rw [show t.parent? id = none from hpath] at hparent
      cases hparent
  | cons above path =>
      rw [hpath.1, Option.some.injEq] at hparent
      subst hparent
      exact (List.nodup_cons.mp hpath.nodup).1 ((h.below_iff hpath.2 id).mp hbelow)

theorem Mirrored.acyclicBelow (h : t.Mirrored) (hid : t.Ends id) : t.AcyclicBelow id := by
  intro x hx
  obtain ⟨path, hpath⟩ := h.ends_of_below hid hx
  exact h.not_transGen_self hpath

theorem Linked.acyclicBelow (h : t.Linked) (hid : t.Reaches id) : t.AcyclicBelow id :=
  h.toMirrored.acyclicBelow (h.ends_of_below (.of_none h.parent?_root) hid)

theorem finite_contains (t : Tree) : Finite {id // t.contains id = true} := by
  refine Set.Finite.subset (List.finite_toSet t.nodes.keys) ?_
  intro id hid
  obtain ⟨node, hget⟩ := Option.isSome_iff_exists.mp hid
  exact List.mem_map.mpr ⟨(id, node), Table.mem_entries_iff.mpr hget, rfl⟩

theorem Mirrored.acyclic_iff (h : t.Mirrored) : t.Acyclic ↔ ∀ id, t.Ends id := by
  constructor
  · intro hacyclic
    -- The nodes of the table are finitely many, so without a circle the way up is well-founded.
    have hwf : WellFounded fun x y : {id // t.contains id = true} =>
        Relation.TransGen (fun x y => y ∈ t.children x) x.1 y.1 := by
      have := t.finite_contains
      have : IsTrans {id // t.contains id = true} fun x y =>
          Relation.TransGen (fun x y => y ∈ t.children x) x.1 y.1 :=
        ⟨fun _ _ _ hxy hyz => hxy.trans hyz⟩
      have : Std.Irrefl fun x y : {id // t.contains id = true} =>
          Relation.TransGen (fun x y => y ∈ t.children x) x.1 y.1 :=
        ⟨fun x hx => hacyclic x.1 hx⟩
      exact Finite.wellFounded_of_trans_of_irrefl _
    have hends : ∀ x : {id // t.contains id = true}, t.Ends x.1 := by
      intro x
      induction x using hwf.induction with
      | h x ih =>
          cases hparent : t.parent? x.1 with
          | none => exact .of_none hparent
          | some parent =>
              have hlists := (h.mem_children_iff parent x.1).mpr hparent
              have hup := ih ⟨parent, contains_of_mem_children hlists⟩ (.single hlists)
              exact hup.of_parent hparent
    intro id
    cases hparent : t.parent? id with
    | none => exact .of_none hparent
    | some parent => exact hends ⟨id, contains_of_parent? hparent⟩
  · intro hends id
    obtain ⟨path, hpath⟩ := hends id
    exact h.not_transGen_self hpath

/-- The links go both ways, no node lists a child twice, and no node is below itself. The root may
be anywhere, or nowhere, and nothing is asked of the kinds of the nodes or of their ids. -/
structure IsForest (t : Tree) : Prop extends t.Mirrored where
  nodup : ∀ id, (t.children id).Nodup
  acyclic : t.Acyclic

namespace IsForest

theorem ends (h : t.IsForest) (id : NodeId) : t.Ends id :=
  h.acyclic_iff.mp h.acyclic id

theorem of_ends (h : t.Mirrored) (hnodup : ∀ id, (t.children id).Nodup) (hends : ∀ id, t.Ends id) :
    t.IsForest :=
  ⟨h, hnodup, h.acyclic_iff.mpr hends⟩

theorem nodup_descendants (h : t.IsForest) (id : NodeId) : (t.descendants id).Nodup := by
  rw [(h.acyclic.below id).descendants_eq_preorder (Nat.le_refl _)]
  exact h.nodup_preorder (h.acyclic.below id) (fun x _ => h.nodup x) t.size

end IsForest

theorem Mirrored.isForest (h : t.Mirrored) (rank : NodeId → Nat)
    (hentries : ∀ e ∈ t.nodes.entries,
      e.2.children.Nodup ∧ ∀ child ∈ e.2.children, rank e.1 < rank child) : t.IsForest := by
  have hlists : ∀ x, (t.children x).Nodup ∧ ∀ y ∈ t.children x, rank x < rank y := by
    intro x
    cases hget : t.get? x with
    | none =>
        rw [children, hget]
        simp
    | some node =>
        rw [children_of_get? hget]
        exact hentries (x, node) (Table.mem_entries_iff.mpr hget)
  refine ⟨h, fun x => (hlists x).1, ?_⟩
  intro id hcircle
  have hup : ∀ x, Relation.TransGen (fun x y => y ∈ t.children x) id x → rank id < rank x := by
    intro x hx
    induction hx with
    | single hy => exact (hlists _).2 _ hy
    | tail _ hy ih => exact ih.trans ((hlists _).2 _ hy)
  exact Nat.lt_irrefl _ (hup id hcircle)

end TemplateLogging.Tree
