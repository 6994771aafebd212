import TemplateLogging.Proofs.Lookup

namespace TemplateLogging

theorem insertIdx_length_append {α : Type} (l r : List α) (x : α) :
    (l ++ r).insertIdx l.length x = l ++ x :: r := by
  induction l with
  | nil => rfl
  | cons y l ih =>
      rw [List.cons_append, List.length_cons, List.insertIdx_succ_cons, ih, List.cons_append]

theorem idxOf?_append_cons {α : Type} [BEq α] [LawfulBEq α] {l : List α} {x : α} (r : List α)
    (h : x ∉ l) : (l ++ x :: r).idxOf? x = some l.length := by
  induction l with
  | nil => simp [List.idxOf?_cons]
  | cons y l ih =>
      rw [List.mem_cons, not_or] at h
      have hne : (y == x) = false := beq_eq_false_iff_ne.mpr (Ne.symm h.1)
      rw [List.cons_append, List.idxOf?_cons, hne, ih h.2]
      rfl

theorem filter_ne_of_not_mem {α : Type} [DecidableEq α] {l : List α} {x : α} (h : x ∉ l) :
    l.filter (· ≠ x) = l := by
  rw [List.filter_eq_self]
  intro y hy
  rw [decide_eq_true_eq]
  exact ne_of_mem_of_not_mem hy h

theorem filter_ne_append_cons {α : Type} [DecidableEq α] {l r : List α} {x : α}
    (h : (l ++ x :: r).Nodup) : (l ++ x :: r).filter (· ≠ x) = l ++ r := by
  have hkeep := filter_ne_of_not_mem (List.nodup_cons.mp (List.nodup_middle.mp h)).1
  rw [List.filter_append, List.filter_cons] at *
  simpa using hkeep

namespace Rose

theorem map_id_sublist_idsAll (bs : List Branch) : (bs.map id).Sublist (idsAll bs) := by
  induction bs with
  | nil => exact List.Sublist.slnil
  | cons b bs ih =>
      obtain ⟨a, cs⟩ := b
      rw [List.map_cons, idsAll_cons, ids_node, List.cons_append]
      exact List.Sublist.cons_cons _ (ih.trans (List.sublist_append_right _ _))

end Rose

namespace Tree.Holds

variable {t : Tree} {root : NodeId} {next : Nat} {others : Multiset Node} {ctx outer : Context}
  {a x : Item} {b c : Branch} {before after cs : List Branch}

theorem modify_two {m n : Node} (h : t.Holds root next ({m} + ({n} + others))) {f g : Node → Node}
    (hf : (f m).id = m.id) (hg : (g n).id = n.id) :
    ((t.modify m.id f).modify n.id g).Holds root next ({f m} + ({g n} + others)) := by
  have hm := h.modify hf
  have hn : ((t.modify m.id f).modify n.id g).Holds root next ({g n} + ({f m} + others)) :=
    (hm.congr (add_left_comm _ _ _)).modify hg
  exact hn.congr (add_left_comm _ _ _)

theorem nodup_children
    (h : t.Holds root next
      (Rose.nodesAll none ((Context.within outer a before after).plug [b]) + others)) :
    (before.map Rose.id ++ b.id :: after.map Rose.id).Nodup := by
  rw [Context.plug, Context.nodesAll_plug_singleton, Rose.nodes, add_comm {_}, add_assoc,
    add_assoc] at h
  have hnodup := h.nodup_idsAll.sublist (Rose.map_id_sublist_idsAll _)
  rwa [List.append_assoc, List.map_append, List.singleton_append, List.map_cons] at hnodup

theorem childIndex?_eq
    (h : t.Holds root next
      (Rose.nodesAll none ((Context.within outer a before after).plug [b]) + others)) :
    t.childIndex? a.id b.id = some before.length := by
  have hchildren := h.shows_within.children_eq
  rw [Rose.id_node, Rose.children_node, List.append_assoc, List.map_append, List.singleton_append,
    List.map_cons] at hchildren
  have hmem : b.id ∉ before.map Rose.id := by
    intro hmem
    exact List.disjoint_of_nodup_append h.nodup_children hmem List.mem_cons_self
  rw [childIndex?, hchildren, idxOf?_append_cons _ hmem, List.length_map]

theorem nodes_detached :
    (Rose.node x cs).nodes none +
        Rose.nodesAll none ((Context.within outer a before after).plug []) + others =
      {a.toNode outer.parent? (before.map Rose.id ++ after.map Rose.id)} +
        ({x.toNode none (cs.map Rose.id)} + (Rose.nodesAll (some x.id) cs +
          (Context.within outer a before after).around + others)) := by
  rw [Context.nodesAll_plug_within, Rose.nodes, Rose.nodesAll_nil, List.map_nil, List.append_nil]
  abel

theorem nodes_attached :
    Rose.nodesAll none ((Context.within outer a before after).plug [.node x cs]) + others =
      {a.toNode outer.parent? (before.map Rose.id ++ x.id :: after.map Rose.id)} +
        ({x.toNode (some a.id) (cs.map Rose.id)} + (Rose.nodesAll (some x.id) cs +
          (Context.within outer a before after).around + others)) := by
  rw [Context.nodesAll_plug_within, Rose.nodesAll_singleton, Rose.nodes, List.map_singleton,
    Rose.id_node, List.append_assoc, List.singleton_append]
  abel

theorem attach
    (h : t.Holds root next
      (c.nodes none + Rose.nodesAll none ((Context.within outer a before after).plug []) +
        others)) :
    (t.attach a.id before.length c.id).Holds root next
      (Rose.nodesAll none ((Context.within outer a before after).plug [c]) + others) := by
  obtain ⟨x, cs⟩ := c
  have hchildren : (before.map Rose.id ++ after.map Rose.id).insertIdx
      (min before.length (before.map Rose.id ++ after.map Rose.id).length) x.id =
      before.map Rose.id ++ x.id :: after.map Rose.id := by
    have hmin : min before.length (before.map Rose.id ++ after.map Rose.id).length =
        (before.map Rose.id).length := by
      simp
    rw [hmin, insertIdx_length_append]
  have hattach : (t.attach a.id before.length x.id).Holds root next
      ({a.toNode outer.parent? ((before.map Rose.id ++ after.map Rose.id).insertIdx
          (min before.length (before.map Rose.id ++ after.map Rose.id).length) x.id)} +
        ({x.toNode (some a.id) (cs.map Rose.id)} + (Rose.nodesAll (some x.id) cs +
          (Context.within outer a before after).around + others))) :=
    (h.congr nodes_detached).modify_two rfl rfl
  rw [hchildren] at hattach
  exact hattach.congr nodes_attached.symm

theorem detach
    (h : t.Holds root next
      (Rose.nodesAll none ((Context.within outer a before after).plug [c]) + others)) :
    (t.detach c.id).Holds root next
      (c.nodes none + Rose.nodesAll none ((Context.within outer a before after).plug []) +
        others) := by
  have hparent : t.parent? c.id = some a.id := h.shows_plug.parent?_eq
  have hnodup := h.nodup_children
  rw [Tree.detach, hparent]
  obtain ⟨x, cs⟩ := c
  rw [Rose.id_node] at hnodup
  have hdetach : ((t.modify a.id fun node =>
      { node with children := node.children.filter (· ≠ x.id) }).modify x.id fun node =>
        { node with parent := none }).Holds root next
      ({a.toNode outer.parent?
          ((before.map Rose.id ++ x.id :: after.map Rose.id).filter (· ≠ x.id))} +
        ({x.toNode none (cs.map Rose.id)} + (Rose.nodesAll (some x.id) cs +
          (Context.within outer a before after).around + others))) :=
    (h.congr nodes_attached).modify_two rfl rfl
  rw [filter_ne_append_cons hnodup] at hdetach
  exact hdetach.congr nodes_detached.symm

theorem detach_eq_self {b : Branch} (h : t.Shows none b) : t.detach b.id = t := by
  rw [Tree.detach, h.parent?_eq]

theorem not_mem_items {k : Context}
    (h : t.Holds root next (b.nodes none + Rose.nodesAll none (k.plug [c]) + others)) :
    c.id ≠ b.id ∧ ∀ a ∈ k.items, a.id ≠ b.id := by
  rw [add_assoc] at h
  have hb : (b.label.toNode none (b.children.map Rose.id)) ∈ b.nodes none := by
    obtain ⟨x, cs⟩ := b
    exact Multiset.mem_add.mpr (Or.inl (Multiset.mem_singleton_self _))
  rw [Context.nodesAll_plug_singleton] at h
  constructor
  · obtain ⟨x, cs⟩ := c
    refine (h.id_ne_of_mem (n := x.toNode k.parent? (cs.map Rose.id)) hb ?_).symm
    rw [Rose.nodes]
    simp
  · intro a ha
    obtain ⟨n, hn, hid⟩ := Context.exists_node_of_mem_items c.id ha
    rw [← hid]
    refine (h.id_ne_of_mem hb ?_).symm
    rw [Multiset.mem_add, Multiset.mem_add]
    exact Or.inl (Or.inr hn)

theorem insertChild_of_detach
    (hcycle : t.isAncestorOrSelf c.id a.id = false)
    (h : (t.detach c.id).Holds root next
      (c.nodes none + Rose.nodesAll none ((Context.within outer a before after).plug []) +
        others)) :
    ∃ t', t.insertChild a.id before.length c.id = .ok t' ∧ t'.Holds root next
      (Rose.nodesAll none ((Context.within outer a before after).plug [c]) + others) := by
  refine ⟨(t.detach c.id).attach a.id before.length c.id, ?_, h.attach⟩
  rw [Tree.insertChild, hcycle]
  rfl

theorem insertChild
    (h : t.Holds root next
      (c.nodes none + Rose.nodesAll none ((Context.within outer a before after).plug []) +
        others)) :
    ∃ t', t.insertChild a.id before.length c.id = .ok t' ∧ t'.Holds root next
      (Rose.nodesAll none ((Context.within outer a before after).plug [c]) + others) := by
  have hplug : t.Holds root next (Rose.nodesAll none
      (outer.plug [.node a (before ++ [] ++ after)]) + (c.nodes none + others)) := by
    refine h.congr ?_
    rw [Context.plug]
    abel
  obtain ⟨hne, hitems⟩ := h.not_mem_items (k := outer)
  have hcycle : t.isAncestorOrSelf c.id a.id = false :=
    Context.reaches_eq_false outer _ hplug hne hitems
  have hshows : t.Shows none c := (h.congr (add_assoc _ _ _)).shows
  apply insertChild_of_detach hcycle
  rwa [detach_eq_self hshows]

theorem addChild
    (h : t.Holds root next
      (c.nodes none + Rose.nodesAll none ((Context.within outer a before []).plug []) + others)) :
    ∃ t', t.addChild a.id c.id = .ok t' ∧ t'.Holds root next
      (Rose.nodesAll none ((Context.within outer a before []).plug [c]) + others) := by
  have hplug : t.Holds root next (Rose.nodesAll none
      (outer.plug [.node a (before ++ [] ++ [])]) + (c.nodes none + others)) := by
    refine h.congr ?_
    rw [Context.plug]
    abel
  have hchildren := hplug.shows_plug.children_eq
  rw [Rose.id_node, Rose.children_node, List.append_nil, List.append_nil] at hchildren
  rw [Tree.addChild, hchildren, List.length_map]
  exact h.insertChild

theorem createNode (h : t.Holds root next others) (kind : NodeKind) (location : Location) :
    Takes next (next + 1) (t.create kind location) fun r =>
      r.1 = ⟨next⟩ ∧ r.2.Holds root (next + 1)
        ((Rose.node ⟨⟨next⟩, kind, location⟩ []).nodes none + others) := by
  refine (h.create kind location).mono ?_
  rintro r - ⟨hid, ht⟩
  refine ⟨hid, ht.congr ?_⟩
  rw [Rose.nodes, Rose.nodesAll_nil, add_zero]
  rfl

theorem append
    (h : t.Holds root next
      (Rose.nodesAll none ((Context.within outer a before []).plug []) + others))
    (kind : NodeKind) (location : Location) :
    Takes next (next + 1) (t.append a.id kind location) fun r =>
      r.1 = ⟨next⟩ ∧ r.2.Holds root (next + 1)
        (Rose.nodesAll none ((Context.within outer a before []).plug
          [.node ⟨⟨next⟩, kind, location⟩ []]) + others) := by
  rw [Tree.append]
  refine Takes.bind (h.createNode kind location) ?_
  rintro ⟨id, t'⟩ ⟨rfl, ht'⟩
  obtain ⟨t'', hadd, ht''⟩ := (ht'.congr (add_assoc _ _ _).symm).addChild
  exact Takes.bind_ok hadd (Takes.pure ⟨rfl, ht''⟩)

theorem replaceChild
    (h : t.Holds root next
      (b.nodes none + Rose.nodesAll none ((Context.within outer a before after).plug [c]) +
        others)) :
    (t.replaceChild a.id c.id b.id).Holds root next
      (c.nodes none + Rose.nodesAll none ((Context.within outer a before after).plug [b]) +
        others) := by
  have hplug : t.Holds root next
      (Rose.nodesAll none ((Context.within outer a before after).plug [c]) +
        (b.nodes none + others)) := by
    refine h.congr ?_
    abel
  have hshows : t.Shows none b := (h.congr (add_assoc _ _ _)).shows
  have hindex := hplug.childIndex?_eq
  have hset : (before.map Rose.id ++ c.id :: after.map Rose.id).set before.length b.id =
      before.map Rose.id ++ b.id :: after.map Rose.id := by
    rw [List.set_append_right _ _ (by simp)]
    simp
  rw [Tree.replaceChild, detach_eq_self hshows]
  simp only [hindex]
  obtain ⟨y, bs⟩ := b
  obtain ⟨x, cs⟩ := c
  have hparts : t.Holds root next
      ({a.toNode outer.parent? (before.map Rose.id ++ x.id :: after.map Rose.id)} +
        ({y.toNode none (bs.map Rose.id)} + ({x.toNode (some a.id) (cs.map Rose.id)} +
          (Rose.nodesAll (some x.id) cs + (Context.within outer a before after).around +
            (Rose.nodesAll (some y.id) bs + others))))) := by
    refine hplug.congr ?_
    rw [nodes_attached, Rose.nodes]
    abel
  have hfirst : (t.modify a.id fun node =>
      { node with children := node.children.set before.length y.id }).Holds root next
      ({a.toNode outer.parent?
          ((before.map Rose.id ++ x.id :: after.map Rose.id).set before.length y.id)} +
        ({y.toNode none (bs.map Rose.id)} + ({x.toNode (some a.id) (cs.map Rose.id)} +
          (Rose.nodesAll (some x.id) cs + (Context.within outer a before after).around +
            (Rose.nodesAll (some y.id) bs + others))))) :=
    hparts.modify rfl
  rw [Rose.id_node, Rose.id_node] at hset
  rw [hset] at hfirst
  -- The two that change places are the summands to modify, so the parent goes behind them.
  have hlast : (((t.modify a.id fun node =>
      { node with children := node.children.set before.length y.id }).modify y.id fun node =>
        { node with parent := some a.id }).modify x.id fun node =>
          { node with parent := none }).Holds root next
      ({y.toNode (some a.id) (bs.map Rose.id)} + ({x.toNode none (cs.map Rose.id)} +
        ({a.toNode outer.parent? (before.map Rose.id ++ y.id :: after.map Rose.id)} +
          (Rose.nodesAll (some x.id) cs + (Context.within outer a before after).around +
            (Rose.nodesAll (some y.id) bs + others))))) :=
    (hfirst.congr (by abel)).modify_two (m := y.toNode none (bs.map Rose.id))
      (n := x.toNode (some a.id) (cs.map Rose.id)) rfl rfl
  refine hlast.congr ?_
  rw [add_assoc (Rose.nodes none _), nodes_attached, Rose.nodes]
  abel

theorem removeSubtree (h : (t.detach b.id).Holds root next (b.nodes none + others)) :
    (t.removeSubtree b.id).Holds root next others := by
  have hdescendants := h.shows.descendants_eq h.height_le_size
  show ((t.detach b.id).descendants b.id |>.foldl Tree.eraseNode (t.detach b.id)).Holds root next _
  rw [hdescendants]
  exact h.foldl_eraseNode (Rose.map_id_nodes none b)

theorem insertChildren {moved : List Branch}
    (h : t.Holds root next
      (Rose.nodesAll none ((Context.within outer a before after).plug (.node x cs :: moved)) +
        others)) :
    ∃ t', t.insertChildren a.id (before.length + 1 + moved.length) (cs.map Rose.id) = .ok t' ∧
      t'.Holds root next
        (Rose.nodesAll none ((Context.within outer a before after).plug
          (.node x [] :: (moved ++ cs))) + others) := by
  induction cs generalizing t moved with
  | nil =>
      refine ⟨t, rfl, ?_⟩
      rwa [List.append_nil]
  | cons c cs ih =>
      -- The next child is still in the wrapper, behind which the moved ones stand.
      have hwrapped : t.Holds root next
          (Rose.nodesAll none
            ((Context.within (.within outer a before (moved ++ after)) x [] cs).plug [c]) +
              others) := by
        refine h.congr ?_
        simp only [Context.plug, List.append_assoc, List.nil_append, List.cons_append]
      have hdetached : (t.detach c.id).Holds root next
          (c.nodes none + Rose.nodesAll none ((Context.within outer a
            (before ++ .node x cs :: moved) after).plug []) + others) := by
        refine hwrapped.detach.congr ?_
        simp only [Context.plug, List.append_assoc, List.nil_append, List.cons_append]
      obtain ⟨hne, hitems⟩ := hdetached.not_mem_items (k := outer)
      have hcycle : t.isAncestorOrSelf c.id a.id = false :=
        Context.reaches_eq_false outer _ h hne hitems
      obtain ⟨t₁, hinsert, ht₁⟩ := insertChild_of_detach hcycle hdetached
      have hlength : (before ++ Rose.node x cs :: moved).length =
          before.length + 1 + moved.length := by
        rw [List.length_append, List.length_cons]
        omega
      have hmoved : t₁.Holds root next
          (Rose.nodesAll none ((Context.within outer a before after).plug
            (.node x cs :: (moved ++ [c]))) + others) := by
        refine ht₁.congr ?_
        simp only [Context.plug, List.append_assoc, List.cons_append]
      obtain ⟨t₂, hrest, ht₂⟩ := ih hmoved
      rw [List.length_append, List.length_singleton, ← Nat.add_assoc] at hrest
      refine ⟨t₂, ?_, ?_⟩
      · rw [List.map_cons, Tree.insertChildren, ← hlength, hinsert]
        rw [← hlength] at hrest
        exact hrest
      · refine ht₂.congr ?_
        rw [List.append_assoc, List.singleton_append]

theorem unwrap (hctx : ctx ≠ .top)
    (h : t.Holds root next (Rose.nodesAll none (ctx.plug [.node x cs]) + others)) :
    ∃ t', t.unwrap x.id = .ok t' ∧
      t'.Holds root next (Rose.nodesAll none (ctx.plug cs) + others) := by
  cases ctx with
  | top => exact absurd rfl hctx
  | within outer a before after =>
      have hparent : t.parent? x.id = some a.id := h.shows_plug.parent?_eq
      have hindex : t.childIndex? a.id x.id = some before.length := h.childIndex?_eq
      have hchildren : t.children x.id = cs.map Rose.id := h.shows_plug.children_eq
      obtain ⟨t₁, hinsert, ht₁⟩ := h.insertChildren
      have hremove : (t₁.removeSubtree x.id).Holds root next
          (Rose.nodesAll none ((Context.within outer a before after).plug cs) + others) := by
        have hwrapper : t₁.Holds root next
            (Rose.nodesAll none ((Context.within outer a before (cs ++ after)).plug [.node x []]) +
              others) := by
          refine ht₁.congr ?_
          simp only [Context.plug, List.append_assoc, List.nil_append, List.cons_append]
        refine (hwrapper.detach.congr (add_assoc _ _ _)).removeSubtree.congr ?_
        simp only [Context.plug, List.append_assoc, List.nil_append]
      refine ⟨_, ?_, hremove⟩
      rw [Tree.unwrap, hparent]
      simp only [hindex, hchildren]
      show (t.insertChildren a.id (before.length + 1) (cs.map Rose.id) >>= _) = _
      rw [List.length_nil, Nat.add_zero] at hinsert
      rw [hinsert]
      rfl

end Tree.Holds

end TemplateLogging
