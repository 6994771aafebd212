import TemplateLogging.Proofs.Places

namespace TemplateLogging

namespace Rose

variable {α : Type} {x y : Rose α} {path : List α} {bs cs : List (Rose α)}

mutual

/-- A branch and all branches in it, a branch before those in it. -/
def subtrees : Rose α → List (Rose α)
  | node a cs => node a cs :: subtreesAll cs

def subtreesAll : List (Rose α) → List (Rose α)
  | [] => []
  | b :: bs => b.subtrees ++ subtreesAll bs

end

theorem subtreesAll_eq_flatMap (bs : List (Rose α)) : subtreesAll bs = bs.flatMap subtrees := by
  induction bs with
  | nil => rfl
  | cons b bs ih => rw [subtreesAll, ih, List.flatMap_cons]

theorem subtreesAll_append (bs cs : List (Rose α)) :
    subtreesAll (bs ++ cs) = subtreesAll bs ++ subtreesAll cs := by
  simp only [subtreesAll_eq_flatMap, List.flatMap_append]

theorem subtreesAll_singleton (a : α) (cs : List (Rose α)) :
    subtreesAll [node a cs] = node a cs :: subtreesAll cs := by
  rw [subtreesAll, subtreesAll, subtrees, List.append_nil]

mutual

theorem map_label_subtrees : ∀ b : Rose α, b.subtrees.map label = b.labels
  | node a cs => by
      rw [subtrees, List.map_cons, labels, map_label_subtreesAll cs, label_node]

theorem map_label_subtreesAll : ∀ bs : List (Rose α), (subtreesAll bs).map label = labelsAll bs
  | [] => rfl
  | b :: bs => by
      rw [subtreesAll, List.map_append, map_label_subtrees b, map_label_subtreesAll bs, labelsAll]

end

theorem Occurs.mem_subtreesAll (h : Occurs y path bs) : y ∈ subtreesAll bs := by
  induction h with
  | here hy =>
      rw [subtreesAll_eq_flatMap, List.mem_flatMap]
      refine ⟨y, hy, ?_⟩
      cases y with
      | node a cs => exact List.mem_cons_self
  | inside hb _ ih =>
      rw [subtreesAll_eq_flatMap, List.mem_flatMap]
      exact ⟨_, hb, List.mem_cons_of_mem _ ih⟩

mutual

theorem exists_occurs_of_mem_subtrees : ∀ {b : Rose α}, y ∈ b.subtrees → ∃ path, Occurs y path [b]
  | node a cs, h => by
      rw [subtrees, List.mem_cons] at h
      rcases h with rfl | h
      · exact ⟨[], .here (List.mem_singleton_self _)⟩
      · obtain ⟨path, hy⟩ := exists_occurs_of_mem_subtreesAll h
        exact ⟨path ++ [a], hy.under a⟩

theorem exists_occurs_of_mem_subtreesAll : ∀ {bs : List (Rose α)}, y ∈ subtreesAll bs →
    ∃ path, Occurs y path bs
  | [], h => by cases h
  | b :: bs, h => by
      rw [subtreesAll, List.mem_append] at h
      rcases h with h | h
      · obtain ⟨path, hy⟩ := exists_occurs_of_mem_subtrees h
        exact ⟨path, hy.mono (List.cons_subset_cons b (List.nil_subset bs))⟩
      · obtain ⟨path, hy⟩ := exists_occurs_of_mem_subtreesAll h
        exact ⟨path, hy.mono (List.subset_cons_self b bs)⟩

end

theorem Occurs.of_append (h : Occurs x path (bs ++ cs)) : Occurs x path bs ∨ Occurs x path cs := by
  cases h with
  | here hx => exact (List.mem_append.mp hx).imp .here .here
  | inside hb hx => exact (List.mem_append.mp hb).imp (.inside · hx) (.inside · hx)

theorem Occurs.of_node {a : α} (h : Occurs x path [node a cs]) :
    x = node a cs ∨ ∃ path, Occurs x path cs := by
  cases h with
  | here hx => exact Or.inl (List.mem_singleton.mp hx)
  | inside hb hx =>
      cases List.mem_singleton.mp hb
      exact Or.inr ⟨_, hx⟩

theorem Occurs.trans {path' : List α} (hy : Occurs y path bs) (hx : Occurs x path' y.children) :
    ∃ path, Occurs x path bs := by
  induction hy with
  | @here bs hy =>
      cases y with
      | node a cs => exact ⟨_, .inside hy hx⟩
  | inside hb _ ih =>
      obtain ⟨path, hx⟩ := ih
      exact ⟨_, .inside hb hx⟩

end Rose

namespace Growth

open Rose

variable {x : Branch} {path : List Item} {g h : Growth Item} {inTag : Bool} {a : Item}

theorem mem_whole_append {α : Type} {g h : Growth α} {b : Rose α} (hb : b ∈ (g ++ h).whole) :
    b ∈ g.whole ∨ b ∈ h.whole := by
  simp only [whole, bindings_append, forest_append, attributes_append, List.mem_append] at hb ⊢
  tauto

theorem occurs_of_append (hx : Occurs x path (g ++ h).whole) :
    Occurs x path g.whole ∨ Occurs x path h.whole := by
  cases hx with
  | here hx => exact (mem_whole_append hx).imp .here .here
  | inside hb hx => exact (mem_whole_append hb).imp (.inside · hx) (.inside · hx)

theorem occurs_of_wrap (hx : Occurs x path (g.wrap inTag a).whole) :
    x = .node a g.forest ∨ x = .node a (g.forest ++ g.attributes) ∨
      ∃ path, Occurs x path g.whole := by
  have hcases : ∀ b ∈ (g.wrap inTag a).whole, b ∈ g.whole ∨
      b = .node a g.forest ∨ b = .node a (g.forest ++ g.attributes) := by
    intro b hb
    rw [whole, List.mem_append, List.mem_append] at hb ⊢
    rw [wrap] at hb
    split at hb
    · simp only [underTag, List.mem_append, List.mem_singleton, List.not_mem_nil, or_false] at hb
      tauto
    · split at hb
      · simp only [underTemplate, List.mem_singleton, List.not_mem_nil, or_false] at hb
        tauto
      · simp only [under, List.mem_singleton] at hb
        tauto
  have hforest : g.forest ⊆ g.whole :=
    List.subset_append_of_subset_left _ (List.subset_append_right _ _)
  have hattributes : g.attributes ⊆ g.whole := List.subset_append_right _ _
  cases hx with
  | here hx =>
      rcases hcases x hx with hx | rfl | rfl
      · exact Or.inr (Or.inr ⟨_, .here hx⟩)
      · exact Or.inl rfl
      · exact Or.inr (Or.inl rfl)
  | inside hb hx =>
      rcases hcases _ hb with hb | hb | hb
      · exact Or.inr (Or.inr ⟨_, .inside hb hx⟩)
      · cases hb
        exact Or.inr (Or.inr ⟨_, hx.mono hforest⟩)
      · cases hb
        exact Or.inr (Or.inr ⟨_, hx.mono (List.append_subset.mpr ⟨hforest, hattributes⟩)⟩)

end Growth

end TemplateLogging
