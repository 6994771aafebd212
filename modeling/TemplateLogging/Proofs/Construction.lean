import TemplateLogging.Proofs.Copies
import TemplateLogging.Proofs.Forest

/-!
Trees that are built up from the empty one. As long as the caller attaches nothing below itself and
leaves the root where it is, every operation keeps the links sound, lets every way up come to an
end, and never gives out an id that is in use.
-/

namespace TemplateLogging

namespace Tree

variable {t s : Tree} {id parent child old new : NodeId} {path : List NodeId}

/-- The root is a file set without a parent, each node stands under its own id, a node lists exactly
those that name it as their parent, and each of them once, every way up ends, and all ids in use are
below the next one. -/
structure Intact (t : Tree) : Prop extends t.Sound fun _ => True where
  fileSet : t.kind t.root = .ok .fileSet
  ends : ∀ id, t.Ends id

namespace Intact

theorem wellFormed (h : t.Intact) : t.WellFormed where
  links := linked_iff.mp h.toLinked
  nodup id node hget := h.nodup id node hget trivial
  fresh _ _ hget := h.fresh _ (contains_of_get? hget)
  fileSet := h.fileSet

theorem of_wellFormed (h : t.WellFormed) (hends : ∀ id, t.Ends id) : t.Intact where
  toLinked := h.linked
  fresh id hid := by
    obtain ⟨node, hget⟩ := Option.isSome_iff_exists.mp hid
    exact h.fresh id node hget
  nodup id node hget _ := h.nodup id node hget
  fileSet := h.fileSet
  ends := hends

theorem nodup_children (h : t.Intact) (id : NodeId) : (t.children id).Nodup := by
  cases hget : t.get? id with
  | none =>
      rw [children, hget]
      exact List.nodup_nil
  | some node =>
      rw [children_of_get? hget]
      exact h.nodup id node hget trivial

theorem relink (h : t.Intact) (hsound : s.Sound fun _ => True) (hs : Relinks t s)
    (hends : ∀ id, s.Ends id) : s.Intact where
  toSound := hsound
  fileSet := by
    rw [hs.kind, hs.root]
    exact h.fileSet
  ends := hends

theorem empty : Tree.empty.Intact := by
  have hwf : Tree.empty.WellFormed := by decide
  refine of_wellFormed hwf ?_
  intro id
  apply Ends.of_none
  by_contra hparent
  obtain ⟨parent, hparent⟩ := Option.ne_none_iff_exists'.mp hparent
  have hchild := (hwf.linked.mem_children_iff parent id).mpr hparent
  obtain ⟨node, hget⟩ := Option.isSome_iff_exists.mp (contains_of_mem_children hchild)
  have hentry : (parent, node) ∈ Tree.empty.nodes.entries := Table.mem_entries_iff.mpr hget
  have hempty : ∀ e ∈ Tree.empty.nodes.entries, e.2.children = [] := by decide
  rw [children_of_get? hget, hempty _ hentry] at hchild
  cases hchild

theorem create (h : t.Intact) {kind : NodeKind} {location : Location}
    (hs : t.create kind location = .ok (id, s)) : s.Intact where
  toSound := h.toSound.create hs
  fileSet := by
    obtain ⟨rfl, -, -, hroot, hget⟩ := create_eq_ok hs
    have hne : (⟨t.ids.next⟩ : NodeId) ≠ t.root := by
      intro heq
      have hnext := h.toSound.not_contains_next
      rw [heq, h.contains_root] at hnext
      cases hnext
    rw [hroot, Tree.kind, node, hget, if_neg hne]
    exact h.fileSet
  ends x := by
    obtain ⟨path, hpath⟩ := h.ends x
    exact ⟨path, hpath.congr fun y _ => h.toSound.parent?_create hs y⟩

theorem detach (h : t.Intact) (id : NodeId) : (t.detach id).Intact :=
  h.relink (h.toSound.detach id) (relinks_detach t id) (ends_detach h.ends id)

theorem insertChild (h : t.Intact) (hparent : t.contains parent = true)
    (hchild : t.contains child = true) (hroot : child ≠ t.root) (hpath : t.Climbs parent path)
    (hapart : child ∉ parent :: path) (index : Nat) :
    ∃ s, t.insertChild parent index child = .ok s ∧ s.Intact ∧ Relinks t s ∧
      s.Climbs parent path := by
  obtain ⟨s, hs, hpath'⟩ := hpath.insertChild hapart hchild index
  obtain ⟨hsound, hrelinks⟩ := h.toSound.insertChild hparent hchild hroot hs
  exact ⟨s, hs, h.relink hsound hrelinks (ends_insertChild h.ends hchild hs hpath'), hrelinks,
    hpath'⟩

theorem insertChildren {ids : List NodeId} (h : t.Intact) (hparent : t.contains parent = true)
    (hpath : t.Climbs parent path)
    (hids : ∀ id ∈ ids, t.contains id = true ∧ id ≠ t.root ∧ id ∉ parent :: path) (index : Nat) :
    ∃ s, t.insertChildren parent index ids = .ok s ∧ s.Intact ∧ Relinks t s := by
  obtain ⟨s, hs, hpath'⟩ :=
    hpath.insertChildren (fun id hid => ⟨(hids id hid).1, (hids id hid).2.2⟩) index
  have hsound := h.toSound.insertChildren hparent
    (fun id hid => ⟨(hids id hid).1, (hids id hid).2.1⟩) hs
  have hrelinks := relinks_insertChildren hs
  exact ⟨s, hs, h.relink hsound hrelinks
    (ends_insertChildren h.ends (fun id hid => (hids id hid).1) hs hpath'), hrelinks⟩

theorem replaceChild (h : t.Intact) (hnew : t.contains new = true) (hroot : new ≠ t.root)
    (hne : new ≠ old) (hpath : t.Climbs parent path) (hapart : new ∉ parent :: path) :
    (t.replaceChild parent old new).Intact := by
  cases hindex : (t.detach new).childIndex? parent old with
  | none =>
      rw [replaceChild_of_childIndex?_none hindex]
      exact h.detach new
  | some index =>
      exact h.relink (h.toSound.replaceChild hnew hroot hne (h.nodup_children parent))
        (relinks_replaceChild t parent old new)
        (h.ends_replaceChild h.ends hnew hne hpath hapart hindex)

theorem removeSubtree (h : t.Intact) (hne : id ≠ t.root) : (t.removeSubtree id).Intact := by
  have hsound := h.toSound.removeSubtree hne
  have hdetach := h.detach id
  rw [removeSubtree_eq] at hsound ⊢
  refine ⟨hsound, ?_, ?_⟩
  · obtain ⟨root, hget, -⟩ := hsound.root
    have hget' := hget
    rw [get?_foldl_eraseNode] at hget'
    split_ifs at hget'
    have hkind := hdetach.fileSet
    rw [(foldl_eraseNode_root _ _).1] at hget hget' ⊢
    rw [Tree.kind, node, hget'] at hkind
    rw [Tree.kind, node, hget]
    exact hkind
  · exact ends_foldl_eraseNode hdetach.ends _

theorem unwrap (h : t.Intact) (id : NodeId) : ∃ s, t.unwrap id = .ok s ∧ s.Intact := by
  rw [Tree.unwrap]
  cases hparent : t.parent? id with
  | none => exact ⟨t, rfl, h⟩
  | some parent =>
      simp only
      cases hindex : t.childIndex? parent id with
      | none => exact ⟨t, rfl, h⟩
      | some index =>
          have hlists := (h.mem_children_iff parent id).mpr hparent
          obtain ⟨path, hpath⟩ := h.ends parent
          have hids : ∀ x ∈ t.children id,
              t.contains x = true ∧ x ≠ t.root ∧ x ∉ parent :: path := fun x hx =>
            ⟨h.contains_child hx, h.ne_root hx, h.not_mem_of_child hparent hpath hx⟩
          obtain ⟨u, hinsert, hu, hrelinks⟩ :=
            h.insertChildren (contains_of_mem_children hlists) hpath hids (index + 1)
          have hne : id ≠ u.root := by
            rw [hrelinks.root]
            exact h.ne_root hlists
          refine ⟨u.removeSubtree id, ?_, hu.removeSubtree hne⟩
          simp only
          rw [hinsert]
          rfl

theorem takes_create (h : t.Intact) (kind : NodeKind) (location : Location) :
    Takes t.ids.next (t.ids.next + 1) (t.create kind location) fun r =>
      t.create kind location = .ok r := by
  obtain ⟨nodes, hholds, -⟩ := h.wellFormed.linked.holds h.wellFormed.nodup h.wellFormed.fresh
  refine (hholds.create kind location).eq_ok.mono ?_
  intro r _ hr
  exact hr.1

theorem takes_append (h : t.Intact) (hparent : t.contains parent = true) (kind : NodeKind)
    (location : Location) :
    Takes t.ids.next (t.ids.next + 1) (t.append parent kind location) fun r => r.2.Intact := by
  refine Takes.bind (h.takes_create kind location) ?_
  rintro ⟨id, u⟩ hcreate
  obtain ⟨path, hpath⟩ := h.ends parent
  have hu := h.create hcreate
  have hpath' : u.Climbs parent path :=
    hpath.congr fun x _ => h.toSound.parent?_create hcreate x
  have hparent' : u.contains parent = true := by
    rw [contains_create hcreate, hparent, Bool.or_true]
  have hid : u.contains id = true := by
    rw [contains_create hcreate, decide_eq_true rfl, Bool.true_or]
  have hnew : t.contains id = false := by
    rw [(create_eq_ok hcreate).1]
    exact h.toSound.not_contains_next
  have hroot : id ≠ u.root := by
    rintro rfl
    rw [(create_eq_ok hcreate).2.2.2.1, h.contains_root] at hnew
    cases hnew
  have hapart : id ∉ parent :: path := by
    intro hmem
    rw [h.contains_of_climbs hpath hparent id hmem] at hnew
    cases hnew
  obtain ⟨s, hs, hs', -⟩ :=
    hu.insertChild hparent' hid hroot hpath' hapart (u.children parent).length
  exact Takes.bind_ok hs (Takes.pure hs')

theorem isForest (h : t.Intact) : t.IsForest :=
  .of_ends h.toMirrored h.nodup_children h.ends

theorem takes_copySubtree (h : t.Intact) (hid : t.contains id = true) :
    Takes t.ids.next (t.ids.next + (t.descendants id).length) (t.copySubtree id) fun r =>
      r.2.Intact := by
  have ht : Retains t t := .refl h.fresh
  have hf := numbersFrom_copyId t.ids.next (h.isForest.nodup_descendants id)
  refine (h.isForest.takes_copySubtree ht hid).mono ?_
  rintro ⟨_, s⟩ - ⟨-, hs⟩
  have hforest := h.isForest.isForest_copy ht hid hs hf
  have hretains := hs.retains ht hf
  obtain ⟨root, hget, hparent, hkind⟩ := h.wellFormed.exists_root
  have hget' := hretains.get? t.root root hget
  rw [← hs.root] at hget'
  refine ⟨⟨⟨hforest.toMirrored, ⟨root, hget', hparent⟩, ?_⟩, hretains.fresh, ?_⟩, ?_, hforest.ends⟩
  · intro x node hnode
    by_cases hcopy : x ∈ (t.descendants id).map (copyId t.ids.next (t.descendants id))
    · obtain ⟨y, hy, rfl⟩ := List.mem_map.mp hcopy
      rw [hs.get?_copy y hy, Option.map_eq_some_iff] at hnode
      obtain ⟨old, -, rfl⟩ := hnode
      rfl
    · rw [hs.get?_other x hcopy] at hnode
      exact h.id_eq x node hnode
  · intro x node hnode _
    rw [← children_of_get? hnode]
    exact hforest.nodup x
  · rw [kind, node, hget']
    exact congrArg Except.ok hkind

end Intact

/-- The child may be hung below the parent: both are there, the child is not the root, and the
parent is not below it. -/
structure MayHang (t : Tree) (parent child : NodeId) : Prop where
  contains_parent : t.contains parent = true
  contains_child : t.contains child = true
  ne_root : child ≠ t.root
  apart : ¬ t.Below child parent

theorem MayHang.exists_climbs (h : t.MayHang parent child) (ht : t.Intact) :
    ∃ path, t.Climbs parent path ∧ child ∉ parent :: path := by
  obtain ⟨path, hpath⟩ := ht.ends parent
  exact ⟨path, hpath, fun hmem => h.apart ((ht.below_iff hpath child).mpr hmem)⟩

theorem Intact.insertChild_of_mayHang (h : t.Intact) (hhang : t.MayHang parent child)
    (index : Nat) : ∃ s, t.insertChild parent index child = .ok s ∧ s.Intact := by
  obtain ⟨path, hpath, hapart⟩ := hhang.exists_climbs h
  obtain ⟨s, hs, hs', -⟩ := h.insertChild hhang.contains_parent hhang.contains_child hhang.ne_root
    hpath hapart index
  exact ⟨s, hs, hs'⟩

end Tree

/-- A call of one of the operations that change a tree. -/
inductive Edit where
  | create (kind : NodeKind) (location : Location)
  | append (parent : NodeId) (kind : NodeKind) (location : Location)
  | addChild (parent child : NodeId)
  | insertChild (parent : NodeId) (index : Nat) (child : NodeId)
  | detach (id : NodeId)
  | replaceChild (parent old new : NodeId)
  | unwrap (id : NodeId)
  | removeSubtree (id : NodeId)
  | copySubtree (id : NodeId)

namespace Edit

def run (t : Tree) : Edit → Except Fault Tree
  | create kind location => (t.create kind location).map (·.2)
  | append parent kind location => (t.append parent kind location).map (·.2)
  | addChild parent child => t.addChild parent child
  | insertChild parent index child => t.insertChild parent index child
  | detach id => .ok (t.detach id)
  | replaceChild parent old new => .ok (t.replaceChild parent old new)
  | unwrap id => t.unwrap id
  | removeSubtree id => .ok (t.removeSubtree id)
  | copySubtree id => (t.copySubtree id).map (·.2)

/-- What an operation demands of its caller: ids of nodes that are there, no node below itself, the
root left in place, and something other than the replaced node to replace it. -/
def Permitted (t : Tree) : Edit → Prop
  | create _ _ => True
  | append parent _ _ => t.contains parent = true
  | addChild parent child => t.MayHang parent child
  | insertChild parent _ child => t.MayHang parent child
  | detach id => t.contains id = true
  | replaceChild parent old new => t.MayHang parent new ∧ t.contains old = true ∧ new ≠ old
  | unwrap id => t.contains id = true
  | removeSubtree id => t.contains id = true ∧ id ≠ t.root
  | copySubtree id => t.contains id = true

/-- How many ids an operation takes. -/
def needs (t : Tree) : Edit → Nat
  | create _ _ => 1
  | append _ _ _ => 1
  | copySubtree id => (t.descendants id).length
  | _ => 0

end Edit

theorem Tree.Intact.takes_run {t : Tree} (h : t.Intact) {e : Edit} (he : e.Permitted t) :
    Takes t.ids.next (t.ids.next + e.needs t) (e.run t) Intact := by
  cases e with
  | create kind location =>
      refine ((h.takes_create kind location).map (f := Prod.snd)).mono ?_
      rintro _ - ⟨⟨id, s⟩, rfl, hs⟩
      exact h.create hs
  | append parent kind location =>
      refine ((h.takes_append he kind location).map (f := Prod.snd)).mono ?_
      rintro _ - ⟨r, rfl, hr⟩
      exact hr
  | addChild parent child =>
      obtain ⟨s, hs, hs'⟩ := h.insertChild_of_mayHang he (t.children parent).length
      exact Takes.of_eq hs hs'
  | insertChild parent index child =>
      obtain ⟨s, hs, hs'⟩ := h.insertChild_of_mayHang he index
      exact Takes.of_eq hs hs'
  | detach id => exact Takes.pure (h.detach id)
  | replaceChild parent old new =>
      obtain ⟨hhang, -, hne⟩ := he
      obtain ⟨path, hpath, hapart⟩ := hhang.exists_climbs h
      exact Takes.pure (h.replaceChild hhang.contains_child hhang.ne_root hne hpath hapart)
  | unwrap id =>
      obtain ⟨s, hs, hs'⟩ := h.unwrap id
      exact Takes.of_eq hs hs'
  | removeSubtree id => exact Takes.pure (h.removeSubtree he.2)
  | copySubtree id =>
      refine ((h.takes_copySubtree he).map (f := Prod.snd)).mono ?_
      rintro _ - ⟨r, rfl, hr⟩
      exact hr

namespace Tree

/-- The trees that permitted operations make out of the empty one. -/
inductive Built : Tree → Prop where
  | empty : Built empty
  | edit {t s : Tree} {e : Edit} (h : Built t) (he : e.Permitted t) (hs : e.run t = .ok s) : Built s

/-- Whatever is built is intact, and the ids to come are not in use. A further operation that is
permitted fails only for want of ids. -/
theorem Built.intact (h : Built t) : t.Intact ∧ (∀ id, t.ids.next ≤ id.index → t.get? id = none) ∧
    ∀ e : Edit, e.Permitted t → (∃ s, e.run t = .ok s) ∨
      (maxWord < t.ids.next + e.needs t ∧ e.run t = .error .idsExhausted) := by
  have hintact : t.Intact := by
    induction h with
    | empty => exact .empty
    | edit _ he hs ih =>
        obtain ⟨s, hs', hintact⟩ | hfail :=
          (ih.takes_run he).ok_or_exhausted (Nat.le_add_right _ _)
        · rw [hs, Except.ok.injEq] at hs'
          rwa [hs']
        · rw [hs] at hfail
          cases hfail
  refine ⟨hintact, ?_, ?_⟩
  · intro id hle
    rw [← Option.not_isSome_iff_eq_none]
    intro hid
    have hlt := hintact.fresh id hid
    omega
  · intro e he
    have htakes := hintact.takes_run he
    by_cases henough : t.ids.next = t.ids.next + e.needs t ∨ t.ids.next + e.needs t ≤ maxWord
    · obtain ⟨s, hs, -⟩ := htakes.ok henough
      exact Or.inl ⟨s, hs⟩
    · exact Or.inr ⟨by omega, htakes.error (by omega) (by omega)⟩

/-- A template is replaced by its copy, which then makes room for what it holds. -/
theorem Built.intact_unwrapped : ∃ t, Built t ∧ t.Intact ∧ t.children ⟨1⟩ = [⟨5⟩] := by
  have hfile := Built.empty.edit (e := .append ⟨0⟩ (.file "page.soy" .source) .unknown) rfl rfl
  have htemplate := hfile.edit (e := .append ⟨1⟩ (.template "page" .html) .unknown) rfl rfl
  have htext := htemplate.edit (e := .append ⟨2⟩ (.rawText "Hello") .unknown) rfl rfl
  have hcopy := htext.edit (e := .copySubtree ⟨2⟩) rfl rfl
  have hlinked := hcopy.intact.1.toLinked
  have hreplace := hcopy.edit (e := .replaceChild ⟨1⟩ ⟨2⟩ ⟨4⟩)
    ⟨⟨rfl, rfl, nofun, hlinked.not_below [⟨0⟩] ⟨rfl, rfl⟩ (by decide)⟩, rfl, nofun⟩ rfl
  have hunwrap := hreplace.edit (e := .unwrap ⟨4⟩) rfl rfl
  have hremove := hunwrap.edit (e := .removeSubtree ⟨2⟩) ⟨rfl, nofun⟩ rfl
  exact ⟨_, hremove, hremove.intact.1, rfl⟩

end Tree

end TemplateLogging
