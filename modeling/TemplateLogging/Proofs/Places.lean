import TemplateLogging.Proofs.Growth

namespace TemplateLogging

namespace Rose

variable {α : Type}

/-- The branch is one of some branches or in one of them. The labels on the way to it come from it
outwards. -/
inductive Occurs (x : Rose α) : List α → List (Rose α) → Prop where
  | here {bs} (h : x ∈ bs) : Occurs x [] bs
  | inside {bs a cs path} (hb : .node a cs ∈ bs) (h : Occurs x path cs) : Occurs x (path ++ [a]) bs

/-- Among the branches or in one of them, a branch with the one label is before a branch that has
the other. -/
inductive Precedes (a b : α) : List (Rose α) → Prop where
  | here {before cs after} (h : b ∈ labelsAll after) :
      Precedes a b (before ++ .node a cs :: after)
  | inside {bs c cs} (hc : .node c cs ∈ bs) (h : Precedes a b cs) : Precedes a b bs

variable {x y : Rose α} {a b : α} {path : List α} {bs cs ds : List (Rose α)}

theorem mem_labelsAll {c : Rose α} (hc : c ∈ bs) (hb : b ∈ c.labels) : b ∈ labelsAll bs := by
  rw [labelsAll_eq_flatMap]
  exact List.mem_flatMap.mpr ⟨c, hc, hb⟩

theorem labelsAll_subset (h : bs ⊆ cs) : labelsAll bs ⊆ labelsAll cs := by
  intro b hb
  rw [labelsAll_eq_flatMap, List.mem_flatMap] at hb ⊢
  obtain ⟨c, hc, hb⟩ := hb
  exact ⟨c, h hc, hb⟩

namespace Occurs

theorem mono (h : Occurs x path bs) (hsub : bs ⊆ cs) : Occurs x path cs := by
  cases h with
  | here h => exact .here (hsub h)
  | inside hb h => exact .inside (hsub hb) h

theorem under (h : Occurs x path cs) (a : α) : Occurs x (path ++ [a]) [.node a cs] :=
  .inside (List.mem_singleton_self _) h

theorem labels_sublist (h : Occurs x path bs) : x.labels.Sublist (labelsAll bs) := by
  have hmem : ∀ {y : Rose α} {cs : List (Rose α)}, y ∈ cs → y.labels.Sublist (labelsAll cs) := by
    intro y cs hy
    obtain ⟨before, after, rfl⟩ := List.append_of_mem hy
    rw [labelsAll_append, labelsAll]
    exact (List.sublist_append_left _ _).trans (List.sublist_append_right _ _)
  induction h with
  | here hx => exact hmem hx
  | inside hb _ ih => exact (ih.cons _).trans (hmem hb)

theorem label_mem (h : Occurs x path bs) : x.label ∈ labelsAll bs :=
  h.labels_sublist.subset x.label_mem_labels

theorem mem (h : Occurs x [] bs) : x ∈ bs := by
  generalize hpath : [] = path at h
  cases h with
  | here hx => exact hx
  | @inside _ a cs inner hb hx => exact absurd hpath (by simp)

theorem outer (h : Occurs x (a :: path) bs) : ∃ cs, x ∈ cs ∧ Occurs (.node a cs) path bs := by
  generalize hpath : a :: path = whole at h
  induction h generalizing path with
  | here _ => cases hpath
  | @inside bs c cs inner hb hx ih =>
      cases inner with
      | nil =>
          rw [List.nil_append, List.cons.injEq] at hpath
          obtain ⟨rfl, rfl⟩ := hpath
          exact ⟨cs, hx.mem, .here hb⟩
      | cons d inner =>
          rw [List.cons_append, List.cons.injEq] at hpath
          obtain ⟨rfl, rfl⟩ := hpath
          obtain ⟨ds, hmem, hocc⟩ := ih rfl
          exact ⟨ds, hmem, .inside hb hocc⟩

end Occurs

namespace Precedes

theorem head (h : b ∈ labelsAll bs) (cs : List (Rose α)) : Precedes a b (.node a cs :: bs) := by
  rw [← List.nil_append (_ :: _)]
  exact .here h

theorem mono (h : Precedes a b bs) (hsub : bs.Sublist cs) : Precedes a b cs := by
  cases h with
  | @here before ds after hb =>
      obtain ⟨before', rest, rfl, -, hrest⟩ := List.append_sublist_iff.mp hsub
      obtain ⟨left, after', rfl, ha, hafter⟩ := List.cons_sublist_iff.mp hrest
      obtain ⟨left, right, rfl⟩ := List.append_of_mem ha
      have hb' : b ∈ labelsAll (right ++ after') :=
        labelsAll_subset (List.subset_append_of_subset_right _ hafter.subset) hb
      have hhere : Precedes a b ((before' ++ left) ++ .node a ds :: (right ++ after')) := .here hb'
      simpa only [List.append_assoc, List.cons_append] using hhere
  | inside hc h => exact .inside (hsub.subset hc) h

/-- What precedes a node also precedes it when the last of the branches stand under a node. -/
theorem nest (h : Precedes a b (bs ++ cs)) (c : α) : Precedes a b (bs ++ [.node c cs]) := by
  generalize hall : bs ++ cs = all at h
  cases h with
  | @here before ds after hb =>
      rcases List.append_eq_append_iff.mp hall with ⟨rest, hbefore, rfl⟩ | ⟨rest, rfl, hrest⟩
      · exact .inside (List.mem_append_right _ (List.mem_singleton_self _)) (.here hb)
      · cases rest with
        | nil =>
            rw [List.nil_append] at hrest
            subst hrest
            exact .inside (List.mem_append_right _ (List.mem_singleton_self _)) (.head hb ds)
        | cons d rest =>
            rw [List.cons_append, List.cons.injEq] at hrest
            obtain ⟨rfl, rfl⟩ := hrest
            rw [List.append_assoc, List.cons_append]
            refine .here ?_
            simp only [labelsAll_append, labelsAll, labels, List.append_nil, List.mem_append,
              List.mem_cons] at hb ⊢
            exact hb.imp_right Or.inr
  | inside hd h =>
      subst hall
      rcases List.mem_append.mp hd with hd | hd
      · exact .inside (List.mem_append_left _ hd) h
      · exact .inside (List.mem_append_right _ (List.mem_singleton_self _)) (.inside hd h)

end Precedes

end Rose

namespace Growth

variable {α : Type} {x : Rose α} {path : List α}

/-- All parts of a growth, in the order in which an open tag brings them into a tree. -/
def whole (g : Growth α) : List (Rose α) :=
  g.bindings ++ g.forest ++ g.attributes

theorem whole_forest (bs : List (Rose α)) : (Growth.mk bs [] []).whole = bs := by
  rw [whole, List.append_nil, List.nil_append]

theorem whole_subset_left (g h : Growth α) : g.whole ⊆ (g ++ h).whole := by
  intro b hb
  simp only [whole, bindings_append, forest_append, attributes_append, List.mem_append] at hb ⊢
  tauto

theorem whole_subset_right (g h : Growth α) : h.whole ⊆ (g ++ h).whole := by
  intro b hb
  simp only [whole, bindings_append, forest_append, attributes_append, List.mem_append] at hb ⊢
  tauto

theorem occurs_wrap {x : Branch} {path : List Item} {g : Growth Item}
    (h : Rose.Occurs x path g.whole) (inTag : Bool) (a : Item) :
    ∃ path, Rose.Occurs x path (g.wrap inTag a).whole := by
  have hcases : ∀ b ∈ g.whole, b ∈ (g.wrap inTag a).whole ∨
      ∃ cs, Rose.node a cs ∈ (g.wrap inTag a).whole ∧ b ∈ cs := by
    intro b hb
    rw [whole, List.mem_append, List.mem_append] at hb
    rw [wrap]
    split
    · rw [underTag, whole_forest]
      rcases hb with (hb | hb) | hb
      · exact Or.inl (List.mem_append_left _ hb)
      · exact Or.inr ⟨_, List.mem_append_right _ (List.mem_singleton_self _),
          List.mem_append_left _ hb⟩
      · exact Or.inr ⟨_, List.mem_append_right _ (List.mem_singleton_self _),
          List.mem_append_right _ hb⟩
    · split
      · rw [underTemplate, whole, List.append_nil]
        rcases hb with (hb | hb) | hb
        · exact Or.inl (List.mem_append_left _ hb)
        · exact Or.inr ⟨_, List.mem_append_right _ (List.mem_singleton_self _),
            List.mem_append_left _ hb⟩
        · exact Or.inr ⟨_, List.mem_append_right _ (List.mem_singleton_self _),
            List.mem_append_right _ hb⟩
      · rw [under, whole]
        rcases hb with (hb | hb) | hb
        · exact Or.inl (List.mem_append_left _ (List.mem_append_left _ hb))
        · exact Or.inr ⟨_, List.mem_append_left _ (List.mem_append_right _
            (List.mem_singleton_self _)), hb⟩
        · exact Or.inl (List.mem_append_right _ hb)
  cases h with
  | here hx =>
      rcases hcases x hx with hx | ⟨cs, ha, hx⟩
      · exact ⟨_, .here hx⟩
      · exact ⟨_, .inside ha (.here hx)⟩
  | inside hb h =>
      rcases hcases _ hb with hb | ⟨cs, ha, hb⟩
      · exact ⟨_, .inside hb h⟩
      · exact ⟨_, .inside ha (.inside hb h)⟩

end Growth

theorem Rose.Occurs.exists_context {x : Branch} {path : List Item} {bs : List Branch}
    (h : Occurs x path bs) (outer : Context) (houter : outer ≠ .top) :
    ∃ ctx : Context, ctx.plug [x] = outer.plug bs ∧ ctx.items = path ++ outer.items := by
  induction h generalizing outer with
  | here hx =>
      obtain ⟨before, after, rfl⟩ := List.append_of_mem hx
      refine ⟨outer.widen before after, ?_, outer.items_widen before after⟩
      rw [Context.plug_widen_of_ne_top _ _ _ _ houter, List.append_assoc, List.singleton_append]
  | @inside bs a cs path hb _ ih =>
      obtain ⟨before, after, rfl⟩ := List.append_of_mem hb
      obtain ⟨ctx, hplug, hitems⟩ := ih (.within (outer.widen before after) a [] []) (by simp)
      refine ⟨ctx, ?_, ?_⟩
      · rw [hplug, Context.plug, Context.plug_widen_of_ne_top _ _ _ _ houter, List.nil_append,
          List.append_nil, List.append_assoc, List.singleton_append]
      · rw [hitems, Context.items, Context.items_widen, List.append_assoc, List.singleton_append]

namespace Tree

variable {t : Tree}

theorem kind_of_get? {id : NodeId} {node : Node} (h : t.get? id = some node) :
    t.kind id = .ok node.kind := by
  rw [Tree.kind, Tree.node, h]
  rfl

theorem exists_get?_of_kind {id : NodeId} {kind : NodeKind} (h : t.kind id = .ok kind) :
    ∃ node, t.get? id = some node ∧ node.kind = kind := by
  rw [Tree.kind, node] at h
  cases hget : t.get? id with
  | none =>
      rw [hget] at h
      cases h
  | some n =>
      rw [hget] at h
      exact ⟨n, rfl, Except.ok.inj h⟩

theorem exists_get?_of_mem_children {id child : NodeId} (h : child ∈ t.children id) :
    ∃ node, t.get? id = some node ∧ child ∈ node.children := by
  rw [children] at h
  cases hget : t.get? id with
  | none =>
      rw [hget] at h
      cases h
  | some n =>
      rw [hget] at h
      exact ⟨n, rfl, h⟩

theorem Shows.kind_of_mem {parent : Option NodeId} {b : Branch} {x : Item} (h : t.Shows parent b)
    (hx : x ∈ b.labels) : t.kind x.id = .ok x.kind := by
  obtain ⟨n, hn, rfl⟩ := Rose.exists_node_of_mem_labels parent hx
  have hget : t.get? n.item.id = some n := h n hn
  rw [Tree.kind, node, hget]
  rfl

theorem ShowsAll.of_occurs {x : Branch} {path : List Item} {parent : Option NodeId}
    {bs : List Branch} (h : t.ShowsAll parent bs) (hx : Rose.Occurs x path bs) :
    t.Shows ((path.head?.map (·.id)).or parent) x := by
  induction hx generalizing parent with
  | here hx => exact h.of_mem hx
  | @inside bs a cs path hb hx ih =>
      have hcs := ih (h.of_mem hb).children
      cases path with
      | nil => exact hcs
      | cons c path => exact hcs

end Tree

end TemplateLogging
