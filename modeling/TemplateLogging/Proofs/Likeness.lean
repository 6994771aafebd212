import TemplateLogging.Proofs.Copies
import TemplateLogging.Proofs.Locality

namespace TemplateLogging.Tree

variable {t s : Tree} {id x y : NodeId}

theorem Mirrored.opensBlock_eq_false_iff (h : t.Mirrored) : t.opensBlock id = false ↔
    ∃ parent, t.parent? id = some parent ∧ t.child? parent 0 ≠ some id := by
  rw [opensBlock]
  cases hparent : t.parent? id with
  | none => simp
  | some parent =>
      have hlists := (h.mem_children_iff parent id).mpr hparent
      rw [Option.bind_some]
      cases hfirst : t.child? parent 0 with
      | none =>
          rw [child?, List.getElem?_eq_none_iff, Nat.le_zero, List.length_eq_zero_iff] at hfirst
          rw [hfirst] at hlists
          cases hlists
      | some first => simp [hfirst]

/-- The second tree is the first one with a copy of what is below a node. The copies have the ids
from the next one on, in the order of the originals; no other id means anything else than before. -/
structure HasCopy (t s : Tree) (id : NodeId) (f : NodeId → NodeId) : Prop where
  root : s.root = t.root
  ids : s.ids = ⟨t.ids.next + (t.descendants id).length⟩
  copies : (t.descendants id).map f =
    (List.range' t.ids.next (t.descendants id).length).map NodeId.mk
  descendants_eq : s.descendants (f id) = (t.descendants id).map f
  get?_copy : ∀ x ∈ t.descendants id, s.get? (f x) = (t.get? x).map fun node =>
    { node with
      id := f x
      parent := if x = id then none else node.parent.map f
      children := node.children.map f }
  /-- Only the first copy hangs nowhere, and the others hang below copies. -/
  parent?_copy : ∀ x ∈ t.descendants id, x ≠ id →
    ∃ parent ∈ t.descendants id, s.parent? (f x) = some (f parent)
  get?_other : ∀ x, x ∉ (t.descendants id).map f → s.get? x = t.get? x

section Copied

variable {f : NodeId → NodeId} (h : t.IsForest) (hid : t.contains id = true)
  (hs : Copied t t s f (some id) (t.descendants id))
  (hf : NumbersFrom f t.ids.next (t.descendants id))

include h hid hs hf

theorem IsForest.resembles_copy : t.Resembles s id f := by
  have hmem : ∀ x, t.Below id x → x ∈ t.descendants id := fun x hx =>
    (h.mem_descendants_iff hid).mpr hx
  refine ⟨⟨fun x hx => hs.contains_copy (hmem x hx), fun x hx => hs.children_copy (hmem x hx),
    fun x y hx hy => hf.inj (hmem x hx) (hmem y hy)⟩, ?_, ?_⟩
  · intro x hx
    rw [hs.get?_copy x (hmem x hx), Option.map_map]
    rfl
  · intro x hx child hchild
    obtain ⟨hcopied, hne⟩ := h.mem_descendants_of_child hid (hmem x hx) hchild
    have hparent := (h.mem_children_iff x child).mp hchild
    apply opensBlock_renumber (hs.parent?_copy_of_ne hcopied hne)
    · intro parent heq
      rw [hparent, Option.some.injEq] at heq
      rw [← heq, hs.children_copy (hmem x hx)]
    · intro parent first heq hfirst
      rw [hparent, Option.some.injEq] at heq
      rw [← heq] at hfirst
      have hlists := List.mem_of_getElem? hfirst
      exact hf.inj (h.mem_descendants_of_child hid (hmem x hx) hlists).1 hcopied

theorem IsForest.hasCopy : HasCopy t s id f where
  root := hs.root
  ids := congrArg IdSource.mk hs.next_eq
  copies := hf
  descendants_eq :=
    (h.resembles_copy hid hs hf).descendants_eq (h.acyclic.below id)
  get?_copy x hx := by
    rw [hs.get?_copy x hx]
    simp only [Option.some.injEq, eq_comm]
  parent?_copy x hx hne := by
    obtain heq | ⟨parent, -, hlists⟩ := ((h.mem_descendants_iff hid).mp hx).cases_tail
    · exact absurd heq hne
    · have hparent := (h.mem_children_iff parent x).mp hlists
      refine ⟨parent, h.mem_descendants_of_parent? hid hx hne hparent, ?_⟩
      rw [hs.parent?_copy_of_ne hx hne, hparent, Option.map_some]
  get?_other := hs.get?_other

/-- The first node of a copy hangs nowhere, so it opens a block. -/
theorem IsForest.source_copy_eq_iff : s.source (f id) = t.source id ↔
    ¬ ∃ condition parent, t.kind id = .ok (.ifCond condition) ∧ t.parent? id = some parent ∧
      t.child? parent 0 ≠ some id := by
  obtain ⟨node, hget⟩ := Option.isSome_iff_exists.mp hid
  have hresembles := h.resembles_copy hid hs hf
  have hbelow := h.acyclic.below id
  have hbelow' := hresembles.acyclicBelow hbelow
  have hopens : s.opensBlock (f id) = true := by
    rw [opensBlock, hs.parent?_copy ((h.mem_descendants_iff hid).mpr .refl), if_pos rfl]
    rfl
  have hkind : t.kind id = .ok node.kind := by
    rw [kind, Tree.node, hget]
    rfl
  rw [← hbelow.source_eq (Nat.le_succ_of_le (Nat.le_max_left t.size s.size)),
    ← hbelow'.source_eq (Nat.le_succ_of_le (Nat.le_max_right t.size s.size)),
    hresembles.sourceLevels_succ_eq_iff hget, hopens, hkind]
  constructor
  · rintro hsame ⟨condition, parent, hcondition, hplace⟩
    have hfalse := h.opensBlock_eq_false_iff.mpr ⟨parent, hplace⟩
    rw [← hsame condition (Except.ok.inj hcondition)] at hfalse
    cases hfalse
  · intro hnot condition hcondition
    rw [eq_comm, ← Bool.not_eq_false, h.opensBlock_eq_false_iff]
    rintro ⟨parent, hplace⟩
    exact hnot ⟨condition, parent, congrArg Except.ok hcondition, hplace⟩

end Copied

/-- What copying a node of a forest does if there are enough ids. The copies get the next ones in
the order of the originals. The copy reads like the node itself, unless that is a condition which
does not come first in its block. -/
theorem IsForest.copySubtree_outcome (h : t.IsForest)
    (hfresh : ∀ x, t.contains x = true → x.index < t.ids.next) (hid : t.contains id = true)
    (hroom : t.ids.next + (t.descendants id).length ≤ maxWord) :
    t.descendants id = t.preorder t.size id ∧ (t.descendants id).Nodup ∧
    ∃ s, t.copySubtree id = .ok (some ⟨t.ids.next⟩, s) ∧
      HasCopy t s id (copyId t.ids.next (t.descendants id)) ∧ s.IsForest ∧
      (s.source ⟨t.ids.next⟩ = t.source id ↔
        ¬ ∃ condition parent, t.kind id = .ok (.ifCond condition) ∧ t.parent? id = some parent ∧
          t.child? parent 0 ≠ some id) := by
  have ht : Retains t t := .refl hfresh
  have hnodup := h.nodup_descendants id
  have hf := numbersFrom_copyId t.ids.next hnodup
  obtain ⟨⟨_, s⟩, hcopy, rfl, hs⟩ := (h.takes_copySubtree ht hid).ok (Or.inr hroom)
  have hsource := h.source_copy_eq_iff hid hs hf
  rw [(h.acyclic.below id).copyId_descendants hid] at hsource
  exact ⟨(h.acyclic.below id).descendants_eq_preorder (Nat.le_refl _), hnodup, s, hcopy,
    h.hasCopy hid hs hf, h.isForest_copy ht hid hs hf, hsource⟩

/-- A page with a block of two conditions. -/
def twoConditions : Tree :=
  ofNodes [
    .numbered 0 none [1] .fileSet,
    .numbered 1 (some 0) [2] (.file "page.soy" .source),
    .numbered 2 (some 1) [3] (.template "page" .html),
    .numbered 3 (some 2) [4, 6] .ifBlock,
    .numbered 4 (some 3) [5] (.ifCond (.varRef "morning")),
    .numbered 5 (some 4) [] (.rawText "Good morning"),
    .numbered 6 (some 3) [7] (.ifCond (.varRef "evening")),
    .numbered 7 (some 6) [] (.rawText "Good evening")]

/-- The copy of the block reads like the block. The copy of its second condition does not: it opens
a block. -/
theorem copySubtree_outcome_twoConditions : ∃ s,
    twoConditions.copySubtree ⟨3⟩ = .ok (some ⟨8⟩, s) ∧
    s.descendants ⟨8⟩ = [⟨8⟩, ⟨9⟩, ⟨10⟩, ⟨11⟩, ⟨12⟩] ∧ s.children ⟨8⟩ = [⟨9⟩, ⟨11⟩] ∧
    s.parent? ⟨8⟩ = none ∧ s.source ⟨8⟩ = twoConditions.source ⟨3⟩ ∧
    ∃ r, twoConditions.copySubtree ⟨6⟩ = .ok (some ⟨8⟩, r) ∧
      r.source ⟨8⟩ ≠ twoConditions.source ⟨6⟩ := by
  have hwf : twoConditions.WellFormed := by decide
  have hforest : twoConditions.IsForest := hwf.linked.isForest NodeId.index (by decide)
  have hfresh : ∀ x, twoConditions.contains x = true → x.index < twoConditions.ids.next := by
    intro x hx
    obtain ⟨node, hget⟩ := Option.isSome_iff_exists.mp hx
    exact hwf.fresh x node hget
  have hblock : twoConditions.contains ⟨3⟩ = true := rfl
  have hcondition : twoConditions.contains ⟨6⟩ = true := rfl
  obtain ⟨-, -, s, hs, hcopy, -, hsource⟩ := hforest.copySubtree_outcome hfresh hblock (by decide)
  obtain ⟨-, -, r, hr, -, -, hsource'⟩ := hforest.copySubtree_outcome hfresh hcondition (by decide)
  have htop := hcopy.get?_copy ⟨3⟩ (by decide)
  refine ⟨s, hs, ?_, ?_, ?_, hsource.mpr ?_, r, hr, ?_⟩
  · exact hcopy.descendants_eq
  · exact children_of_get? htop
  · exact parent?_of_get? htop
  · rintro ⟨condition, parent, hkind, -⟩
    cases hkind
  · intro heq
    refine hsource'.mp heq ⟨.varRef "evening", ⟨3⟩, rfl, rfl, ?_⟩
    decide

end TemplateLogging.Tree
