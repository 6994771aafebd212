import TemplateLogging.Proofs.Replacement

namespace TemplateLogging.Tree

variable {t s : Tree} {id parent child candidate x y : NodeId} {index fuel : Nat}

theorem Mirrored.below_of_reaches (h : t.Mirrored) (hreaches : t.reaches candidate fuel id = true) :
    t.Below candidate id := by
  induction fuel generalizing id with
  | zero =>
      rw [of_decide_eq_true hreaches]
      exact .refl
  | succ fuel ih =>
      rw [reaches] at hreaches
      split_ifs at hreaches with heq
      · rw [heq]
        exact .refl
      · cases hparent : t.parent? id with
        | none =>
            rw [hparent] at hreaches
            cases hreaches
        | some parent =>
            rw [hparent] at hreaches
            exact (ih hreaches).tail ((h.mem_children_iff parent id).mpr hparent)

theorem Mirrored.exists_insertChild (h : t.Mirrored) (hup : ¬ t.Below child parent) (index : Nat) :
    ∃ s, t.insertChild parent index child = .ok s := by
  refine ⟨_, insertChild_eq_ok_iff.mpr ⟨?_, rfl⟩⟩
  rw [Bool.eq_false_iff]
  exact fun hreaches => hup (h.below_of_reaches hreaches)

/-- The second tree is the first one with a child moved under a parent, whose list is then the given
one. The old parent has lost the child, and no other node has changed. -/
structure Moves (t s : Tree) (parent child : NodeId) (list : List NodeId) : Prop where
  root : s.root = t.root
  ids : s.ids = t.ids
  get?_eq : ∀ x, s.get? x = (t.get? x).map fun node =>
    { node with
      parent := if x = child then some parent else node.parent
      children := if x = parent then list
        else if t.parent? child = some x then node.children.filter (· ≠ child)
        else node.children }
  mirrored : s.Mirrored
  acyclic : s.Acyclic
  linked : t.Linked → child ≠ t.root → s.Linked
  /-- The subtree of the child is what it was. -/
  below_iff : ∀ x, s.Below child x ↔ t.Below child x
  children_eq : ∀ x, t.Below child x → s.children x = t.children x
  descendants_eq : s.descendants child = t.descendants child

theorem Below.of_links (hx : t.Below id x)
    (hlinks : ∀ x y, y ≠ id → y ∈ t.children x → y ∈ s.children x) : s.Below id x := by
  induction hx with
  | refl => exact .refl
  | @tail x y _ hy ih =>
      by_cases heq : y = id
      · rw [heq]
        exact .refl
      · exact ih.tail (hlinks x y heq hy)

section InsertChild

variable (h : t.Mirrored) (hparent : t.contains parent = true) (hchild : t.contains child = true)
  (hs : t.insertChild parent index child = .ok s)

include h hparent hchild hs

theorem Mirrored.mem_children_insertChild_iff :
    y ∈ s.children x ↔ if y = child then parent = x else y ∈ t.children x := by
  rw [(h.insertChild hparent hchild hs).mem_children_iff, parent?_insertChild hchild hs]
  split_ifs with hy
  · rw [Option.some.injEq]
  · rw [h.mem_children_iff]

theorem Mirrored.below_insertChild_iff : s.Below child x ↔ t.Below child x := by
  have hmem := fun x y => h.mem_children_insertChild_iff hparent hchild hs (x := x) (y := y)
  constructor
  · intro hx
    apply hx.of_links
    intro x y hne hy
    rwa [hmem, if_neg hne] at hy
  · intro hx
    apply hx.of_links
    intro x y hne hy
    rwa [hmem, if_neg hne]

/-- A way down that is new leads over the parent to the child. -/
theorem Mirrored.transGen_insertChild
    (hxy : Relation.TransGen (fun x y => y ∈ s.children x) x y) :
    Relation.TransGen (fun x y => y ∈ t.children x) x y ∨ s.Below x parent ∧ s.Below child y := by
  have hmem := fun x y => h.mem_children_insertChild_iff hparent hchild hs (x := x) (y := y)
  induction hxy with
  | @single y hy =>
      by_cases heq : y = child
      · rw [hmem, if_pos heq] at hy
        rw [heq, hy]
        exact Or.inr ⟨.refl, .refl⟩
      · rw [hmem, if_neg heq] at hy
        exact Or.inl (.single hy)
  | @tail y z hxy hz ih =>
      by_cases heq : z = child
      · rw [hmem, if_pos heq] at hz
        rw [heq, hz]
        exact Or.inr ⟨hxy.to_reflTransGen, .refl⟩
      · rcases ih with hold | ⟨hx, hy⟩
        · rw [hmem, if_neg heq] at hz
          exact Or.inl (hold.tail hz)
        · exact Or.inr ⟨hx, hy.tail hz⟩

variable (hacyclic : t.Acyclic) (hup : ¬ t.Below child parent)

include hacyclic hup

theorem Mirrored.acyclic_insertChild : s.Acyclic := by
  intro x hx
  rcases h.transGen_insertChild hparent hchild hs hx with hold | ⟨hdown, hchildBelow⟩
  · exact hacyclic x hold
  · exact hup ((h.below_insertChild_iff hparent hchild hs).mp (hchildBelow.trans hdown))

omit hchild in
theorem Mirrored.children_insertChild_of_below (hx : t.Below child x) :
    s.children x = t.children x := by
  rw [h.children_insertChild hparent hs, if_neg, filter_ne_of_not_mem]
  · exact fun hlists => hacyclic child (.tail' hx hlists)
  · rintro rfl
    exact hup hx

theorem Mirrored.moves_insertChild :
    t.Moves s parent child (((t.children parent).filter (· ≠ child)).insertIdx
      (min index ((t.children parent).filter (· ≠ child)).length) child) := by
  have hrelinks := relinks_insertChild hs
  have hsAcyclic := h.acyclic_insertChild hparent hchild hs hacyclic hup
  have hchildren := fun x (hx : t.Below child x) =>
    h.children_insertChild_of_below hparent hs hacyclic hup hx
  refine ⟨hrelinks.root, hrelinks.ids, ?_, h.insertChild hparent hchild hs, hsAcyclic,
    fun hlinked hne => hlinked.insertChild hparent hchild hne hs,
    fun x => h.below_insertChild_iff hparent hchild hs, hchildren,
    (hacyclic.below child).descendants_congr (fun x _ => hrelinks.contains x) hchildren⟩
  intro x
  rw [hrelinks.get?_eq, parent?_insertChild hchild hs, h.children_insertChild hparent hs]
  cases hget : t.get? x with
  | none => rfl
  | some node =>
      rw [parent?_of_get? hget, children_of_get? hget, Option.map_some, Option.map_some]
      congr 2
      split_ifs with hx hold
      · rfl
      · rfl
      · apply filter_ne_of_not_mem
        rwa [← children_of_get? hget, h.mem_children_iff]

end InsertChild

/-- A node that is not above the parent, and not the parent itself, can be put at each place under
it. The place counts in the list that is left without the node, and is the last one if there are
not that many. So a node that is added comes last, also when it stood in the list before. -/
theorem Mirrored.insertChild_outcome (h : t.Mirrored) (hacyclic : t.Acyclic)
    (hparent : t.contains parent = true) (hchild : t.contains child = true)
    (hup : ¬ t.Below child parent) :
    (∀ index, ∃ s, t.insertChild parent index child = .ok s ∧
      t.Moves s parent child (((t.children parent).filter (· ≠ child)).insertIdx
        (min index ((t.children parent).filter (· ≠ child)).length) child)) ∧
    ∃ s, t.addChild parent child = .ok s ∧
      t.Moves s parent child ((t.children parent).filter (· ≠ child) ++ [child]) := by
  constructor
  · intro index
    obtain ⟨s, hs⟩ := h.exists_insertChild hup index
    exact ⟨s, hs, h.moves_insertChild hparent hchild hs hacyclic hup⟩
  · obtain ⟨s, hs⟩ := h.exists_insertChild hup (t.children parent).length
    have hmoves := h.moves_insertChild hparent hchild hs hacyclic hup
    rw [Nat.min_eq_right (List.length_filter_le _ _), List.insertIdx_length_self] at hmoves
    exact ⟨s, hs, hmoves⟩

/-- The first text goes behind the second when it is put there, however far, and when it is added
again, and the second one goes before the template. -/
theorem insertChild_outcome_twoTexts :
    (∃ s, twoTexts.insertChild ⟨2⟩ 7 ⟨3⟩ = .ok s ∧ s.children ⟨2⟩ = [⟨4⟩, ⟨3⟩]) ∧
    (∃ s, twoTexts.addChild ⟨2⟩ ⟨3⟩ = .ok s ∧ s.children ⟨2⟩ = [⟨4⟩, ⟨3⟩]) ∧
    ∃ s, twoTexts.insertChild ⟨1⟩ 0 ⟨4⟩ = .ok s ∧ s.children ⟨1⟩ = [⟨4⟩, ⟨2⟩] ∧
      s.children ⟨2⟩ = [⟨3⟩] ∧ s.parent? ⟨4⟩ = some ⟨1⟩ ∧ s.Linked ∧
      s.descendants ⟨4⟩ = [⟨4⟩] := by
  have hmirrored := isForest_twoTexts.toMirrored
  have hacyclic := isForest_twoTexts.acyclic
  have hchildless : ∀ id parent, twoTexts.children id = [] → id ≠ parent →
      ¬ twoTexts.Below id parent := by
    intro id parent hid hne hbelow
    rcases hbelow.cases_head with heq | ⟨child, hchild, -⟩
    · exact hne heq
    · rw [hid] at hchild
      cases hchild
  have hfile : twoTexts.contains ⟨1⟩ = true := rfl
  have htemplate : twoTexts.contains ⟨2⟩ = true := rfl
  have hfirst : twoTexts.contains ⟨3⟩ = true := rfl
  have hsecond : twoTexts.contains ⟨4⟩ = true := rfl
  obtain ⟨hplaced, s, hadd, hs⟩ :=
    hmirrored.insertChild_outcome hacyclic htemplate hfirst (hchildless _ _ rfl nofun)
  obtain ⟨s', hinsert, hs'⟩ := hplaced 7
  obtain ⟨hmoved, -⟩ :=
    hmirrored.insertChild_outcome hacyclic hfile hsecond (hchildless _ _ rfl nofun)
  obtain ⟨s'', hmove, hs''⟩ := hmoved 0
  refine ⟨⟨s', hinsert, ?_⟩, ⟨s, hadd, ?_⟩, s'', hmove, ?_, ?_, ?_,
    hs''.linked linked_twoTexts nofun, hs''.descendants_eq⟩
  · rw [children, hs'.get?_eq]
    rfl
  · rw [children, hs.get?_eq]
    rfl
  · rw [children, hs''.get?_eq]
    rfl
  · rw [children, hs''.get?_eq]
    rfl
  · rw [parent?, hs''.get?_eq]
    rfl

end TemplateLogging.Tree
