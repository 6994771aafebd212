import TemplateLogging.Proofs.Loading
import TemplateLogging.Proofs.Replacement

namespace TemplateLogging.Tree

variable {t : Tree} {id : NodeId}

/-- The loop of `descendants` comes to an end wherever no circle is below, however the tree came
about, and leaves the pre-order: the node and after it what its children leave, in their order and
as often as they are listed, and nothing for an id that is not in the table. In a tree whose links
mirror each other, and whose lists repeat no child, each node is met once. What can be reached from
the root of a loaded tree is free of circles. -/
theorem descendants_outcome (t : Tree) :
    (∀ id, t.AcyclicBelow id →
      t.Drains (t.pops t.size id) [id] (t.descendants id) ∧
      (∀ fuel, t.pops t.size id ≤ fuel → t.drain fuel [id] = t.descendants id) ∧
      (∀ levels, t.size ≤ levels → t.preorder levels id = t.descendants id) ∧
      (∀ x, t.Below id x → t.descendants x =
        if t.contains x then x :: (t.children x).flatMap t.descendants else []) ∧
      (∀ x, x ∈ t.descendants id ↔ t.Below id x ∧ t.contains x = true) ∧
      (t.Mirrored → (∀ x, t.Below id x → (t.children x).Nodup) →
        ∀ x, t.Below id x → t.contains x = true → (t.descendants id).count x = 1)) ∧
    ∀ text, load text = .ok t → t.Mirrored ∧ ∀ id, t.Reaches id → t.AcyclicBelow id := by
  constructor
  · intro id h
    have hpreorder := h.descendants_eq_preorder (Nat.le_refl _)
    have hdrains := h.drains
    rw [← hpreorder] at hdrains
    refine ⟨hdrains, fun fuel hfuel => hdrains.drain_eq hfuel,
      fun levels hlevels => (h.descendants_eq_preorder hlevels).symm, ?_, ?_, ?_⟩
    · intro x hx
      split_ifs with hcontains
      · exact (h.of_below hx).descendants_eq hcontains
      · exact descendants_of_not_contains (Bool.eq_false_iff.mpr hcontains)
    · intro x
      constructor
      · intro hmem
        rw [hpreorder] at hmem
        exact below_of_mem_preorder hmem
      · rintro ⟨hx, hcontains⟩
        exact h.mem_descendants_of_below hx hcontains
    · intro hmirrored hnodup x hx hcontains
      apply List.count_eq_one_of_mem
      · rw [hpreorder]
        exact hmirrored.nodup_preorder h hnodup t.size
      · exact h.mem_descendants_of_below hx hcontains
  · intro text hload
    have hlinked := linked_of_load hload
    exact ⟨hlinked.toMirrored, fun id hid => hlinked.acyclicBelow hid⟩

/-- The page beside a circle is loaded, and the text that it lists twice comes twice. The loop takes
four ids off. Of two texts that are listed once each comes once. -/
theorem descendants_outcome_besideCircle :
    (∃ t, load besideCircle.store = .ok t ∧ ¬ t.Acyclic ∧ t.AcyclicBelow t.root ∧
      t.Drains 4 [t.root] [⟨0⟩, ⟨1⟩, ⟨2⟩, ⟨2⟩] ∧ t.descendants t.root = [⟨0⟩, ⟨1⟩, ⟨2⟩, ⟨2⟩]) ∧
    (twoTexts.descendants ⟨0⟩).count ⟨4⟩ = 1 := by
  have hlinks : besideCircle.linkProblem? = none := by decide
  have hload : load besideCircle.store = .ok { besideCircle with ids := ⟨5⟩ } := by
    rw [writable_besideCircle.load_store_eq_checked (by decide), checked, hlinks]
    rfl
  constructor
  · obtain ⟨hdescendants, hloaded⟩ := descendants_outcome { besideCircle with ids := ⟨5⟩ }
    obtain ⟨-, hreached⟩ := hloaded _ hload
    have hacyclic := hreached ⟨0⟩ .refl
    obtain ⟨hdrains, -⟩ := hdescendants ⟨0⟩ hacyclic
    refine ⟨_, hload, ?_, hacyclic, hdrains, rfl⟩
    intro h
    have hdown : (⟨4⟩ : NodeId) ∈ besideCircle.children ⟨3⟩ := by decide
    have hback : (⟨3⟩ : NodeId) ∈ besideCircle.children ⟨4⟩ := by decide
    exact h ⟨3⟩ (.tail (.single hdown) hback)
  · obtain ⟨hdescendants, -⟩ := descendants_outcome twoTexts
    obtain ⟨-, -, -, -, -, honce⟩ := hdescendants ⟨0⟩ (isForest_twoTexts.acyclic.below ⟨0⟩)
    have hfile : (⟨1⟩ : NodeId) ∈ twoTexts.children ⟨0⟩ := by decide
    have htemplate : (⟨2⟩ : NodeId) ∈ twoTexts.children ⟨1⟩ := by decide
    have htext : (⟨4⟩ : NodeId) ∈ twoTexts.children ⟨2⟩ := by decide
    exact honce isForest_twoTexts.toMirrored (fun x _ => isForest_twoTexts.nodup x) ⟨4⟩
      (((Relation.ReflTransGen.single hfile).tail htemplate).tail htext) rfl

end TemplateLogging.Tree
