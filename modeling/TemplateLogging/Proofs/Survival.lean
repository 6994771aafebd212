import TemplateLogging.Proofs.Census
import TemplateLogging.Proofs.Places
import TemplateLogging.Proofs.Refusal

namespace TemplateLogging

open Instrument Rose

/-- Outside of open tags no variables are sent out, and where there is no template either, no
conditional attributes. -/
def Contained (covered : Bool) (f : Work Item Tally) : Prop :=
  ∀ s, (f s).1.bindings = [] ∧ (covered = false → (f s).1.attributes = [])

namespace Contained

variable {covered : Bool} {f g : Work Item Tally} {a : Item}

theorem still (bs : List Branch) : Contained covered (.still bs) := by
  intro s
  exact ⟨rfl, fun _ => rfl⟩

theorem andThen (h : Contained covered f) (h' : Contained covered g) :
    Contained covered (f.andThen g) := by
  intro s
  obtain ⟨hbindings, hattributes⟩ := h s
  obtain ⟨hbindings', hattributes'⟩ := h' (f s).2
  constructor
  · rw [Work.andThen, Growth.bindings_append, hbindings, hbindings', List.append_nil]
  · intro hcov
    rw [Work.andThen, Growth.attributes_append, hattributes hcov, hattributes' hcov,
      List.append_nil]

theorem underTag (f : Work Item Tally) (htag : a.kind.isOpenTag = true) :
    Contained covered (f.under false a) := by
  intro s
  rw [Work.under, Growth.wrap, if_pos htag]
  exact ⟨rfl, fun _ => rfl⟩

theorem under {below : Bool} (h : Contained below f)
    (hbelow : (a.kind.isTemplate || covered) = below) : Contained covered (f.under false a) := by
  subst hbelow
  intro s
  obtain ⟨hbindings, hattributes⟩ := h s
  rw [Work.under, Growth.wrap]
  split
  · exact ⟨rfl, fun _ => rfl⟩
  · split
    · exact ⟨hbindings, fun _ => rfl⟩
    · rename_i htemplate
      rw [Bool.not_false, Bool.and_true, Bool.not_eq_true] at htemplate
      rw [htemplate, Bool.false_or] at hattributes
      exact ⟨hbindings, hattributes⟩

theorem enter (h : Contained covered f) (next : Tally → Tally) :
    Contained covered fun s => f (next s) := by
  intro s
  exact h (next s)

end Contained

theorem contained_tag {o : InstrumentOptions} {covered : Bool} {a : Item} {cs : List Branch}
    (mark : Option Mark) (htag : a.kind.isOpenTag = true) :
    Contained covered (rewrite o false mark (.node a cs)) := by
  rw [rewrite_openTag htag]
  exact .underTag _ htag

theorem hereditary_contained (o : InstrumentOptions) : Hereditary
    (fun inTag covered b => inTag = false → Contained covered (rewrite o inTag none b))
    (fun inTag covered bs => inTag = false → Contained covered (rewriteAll o inTag bs)) where
  nil _ := by
    rw [rewriteAll_nil]
    exact .still []
  cons hb hbs hin := by
    rw [rewriteAll_cons]
    exact (hb hin).andThen (hbs hin)
  dependency hkind _ := by
    rw [rewrite_dependency hkind]
    exact .still _
  source hkind hcs hin := by
    subst hin
    rw [rewrite_source hkind]
    refine .enter ((hcs rfl).under ?_) _
    rw [hkind]
    rfl
  template hkind hcs hin := by
    subst hin
    rw [rewrite_template hkind]
    refine .enter ((hcs rfl).under ?_) _
    rw [hkind]
    rfl
  openTag htag _ hin := by
    subst hin
    exact contained_tag none htag
  block {_ covered _ block tag attrs _} hkind _ htag _ hrest hin := by
    subst hin
    rw [rewrite_logBlock hkind]
    intro s
    have hmarked : Contained covered
        (rewrite o false (some (block.mark (.node tag attrs) s.next)) (.node tag attrs)) :=
      contained_tag _ htag
    exact hmarked.andThen (hrest rfl) s.markBlock
  unmoved hkind hcalls hcs hin := by
    subst hin
    rw [rewrite_attribute hkind hcalls]
    refine (hcs rfl).under ?_
    rw [NodeKind.isTemplate_of_attribute hkind]
    rfl
  moved {_ a name value rest call} hkind hcalls hname hrest hin := by
    subst hin
    rw [rewrite_move hkind hcalls]
    intro s
    have hkept : Contained true (if name.isLiteral then rewrite o false none name
        else .still [(moveOut o a name call s).name]) := by
      split
      · exact hname rfl
      · exact .still _
    have hcs := (hkept.andThen (.still [(moveOut o a name call s).value])).andThen (hrest rfl)
    refine ⟨(hcs.under (Bool.or_true a.kind.isTemplate) (moveOut o a name call s).tally).1, ?_⟩
    intro hcov
    cases hcov
  plain hplain hcs hin := by
    subst hin
    rw [rewrite_plain hplain]
    refine (hcs rfl).under ?_
    rw [NodeKind.isTemplate_of_isPlain hplain]
    rfl

theorem whole_files {o : InstrumentOptions} {bs : List Branch} (hready : ∀ b ∈ bs, b.FileReady)
    (s : Tally) : (rewriteAll o false bs s).1.whole = (rewriteAll o false bs s).1.forest := by
  obtain ⟨hbindings, hattributes⟩ := (hereditary_contained o).of_files hready rfl s
  rw [Growth.whole, hbindings, hattributes rfl, List.append_nil, List.nil_append]

theorem labels_files {o : InstrumentOptions} {bs : List Branch} (hready : ∀ b ∈ bs, b.FileReady)
    (s : Tally) :
    (rewriteAll o false bs s).1.labels = labelsAll (rewriteAll o false bs s).1.forest := by
  obtain ⟨hbindings, hattributes⟩ := (hereditary_contained o).of_files hready rfl s
  rw [Growth.labels, hbindings, hattributes rfl, List.append_nil, List.append_nil]

namespace Tree

variable {t t' : Tree} {o : InstrumentOptions} {parent : Option NodeId} {b : Branch}

/-- The nodes that an instrumentation may remove: logging blocks, and what is in the value of an
attribute with a logging call. -/
def Removable (t : Tree) (id : NodeId) : Prop :=
  (∃ block, t.kind id = .ok (.logBlock block)) ∨
    ∃ attr value, t.kind attr = .ok .htmlAttribute ∧ t.child? attr 1 = some value ∧
      t.callsInValue attr ≠ [] ∧ t.Below value id

/-- The second tree is sound and has what the first one has, without some nodes that may be removed,
and with new nodes that hang in it. -/
structure Continues (t t' : Tree) : Prop where
  wellFormed : t'.WellFormed
  root_eq : t'.root = t.root
  next_le : t.ids.next ≤ t'.ids.next
  kept : ∀ id, t.contains id → t.Removable id ∨ t'.contains id
  same : ∀ id node node', t.get? id = some node → t'.get? id = some node' →
    node'.kind = node.kind ∧ node'.location = node.location
  fresh : ∀ id, t'.contains id → ¬ t.contains id →
    t.ids.next ≤ id.index ∧ id.index < t'.ids.next
  reaches_iff : ∀ id, t.contains id → t'.contains id → (t'.Reaches id ↔ t.Reaches id)
  reaches : ∀ id, t'.contains id → ¬ t.contains id → t'.Reaches id

theorem Shows.removable {x : Item} (h : Drops x b) (hshows : t.Shows parent b)
    (hsize : b.height ≤ t.size) : t.Removable x.id := by
  induction h generalizing parent with
  | @value a name value rest hkind hcalls hx =>
      right
      have hkindEq := hshows.kind_eq
      have hchild := hshows.child?_eq 1
      have hcallsEq := hshows.callsInValue_eq hsize
      have hvalue : t.Shows (some a.id) value := hshows.children.of_mem (by simp)
      refine ⟨a.id, value.id, ?_, hchild, ?_, ?_⟩
      · rw [← hkind]
        exact hkindEq
      · rw [id_node] at hcallsEq
        rw [hcallsEq]
        exact hcalls
      · exact hvalue.below_of_mem x.id (List.mem_map_of_mem hx)
  | @under a c cs hc hdrops ih =>
      apply ih (hshows.children.of_mem hc)
      have hle := height_le_heightAll hc
      rw [height] at hsize
      omega

section

variable {root : NodeId} {next next' : Nat} {a : Item} {cs forest : List Branch}
  {others : Multiset Node}

theorem Holds.old_or_new (h : t.Holds root next ((Rose.node a cs).nodes none + others))
    (h' : t'.Holds root next' ((Rose.node a forest).nodes none + others))
    (hknown : ∀ x ∈ labelsAll forest, x ∈ labelsAll cs ∨ next ≤ x.id.index ∧ x.id.index < next')
    {id : NodeId} {node' : Node} (hget : t'.get? id = some node') :
    (∃ node, t.get? id = some node ∧ node.item = node'.item) ∨
      (next ≤ id.index ∧ id.index < next') ∧ id ∈ (Rose.node a forest).ids := by
  obtain rfl := h'.id_eq hget
  rcases Multiset.mem_add.mp (h'.mem hget) with hmem | hmem
  · have hitem := item_mem_labels hmem
    have hold : node'.item ∈ (Rose.node a cs).labels ∨
        next ≤ node'.id.index ∧ node'.id.index < next' := by
      rw [labels, List.mem_cons] at hitem ⊢
      rcases hitem with heq | hitem
      · exact Or.inl (Or.inl heq)
      · exact (hknown _ hitem).imp_left Or.inr
    rcases hold with hold | hnew
    · obtain ⟨node, hnode, heq⟩ := exists_node_of_mem_labels none hold
      have hid : node.id = node'.id := congrArg Item.id heq
      rw [← hid]
      exact Or.inl ⟨node, h.get? (Multiset.mem_add.mpr (Or.inl hnode)), heq⟩
    · exact Or.inr ⟨hnew, List.mem_map_of_mem hitem⟩
  · exact Or.inl ⟨node', h.get? (Multiset.mem_add.mpr (Or.inr hmem)), rfl⟩

theorem Holds.removable_or_kept (h : t.Holds root next ((Rose.node a cs).nodes none + others))
    (h' : t'.Holds root next' ((Rose.node a forest).nodes none + others))
    (hkept : ∀ x ∈ labelsAll cs, x ∈ labelsAll forest ∨ Loses x cs) {id : NodeId}
    (hid : t.contains id = true) : t.Removable id ∨ t'.contains id = true := by
  obtain ⟨node, hget⟩ := Option.isSome_iff_exists.mp hid
  obtain rfl := h.id_eq hget
  rw [h'.contains_iff, Multiset.map_add, Multiset.mem_add, map_id_nodes]
  rcases Multiset.mem_add.mp (h.mem hget) with hmem | hmem
  · have hitem := item_mem_labels hmem
    rw [labels, List.mem_cons] at hitem
    rcases hitem with heq | hitem
    · refine Or.inr (Or.inl ?_)
      rw [ids_node, Multiset.mem_coe, ← heq]
      exact List.mem_cons_self
    · rcases hkept _ hitem with hitem | ⟨block, hblock⟩ | ⟨b, hb, hdrops⟩
      · refine Or.inr (Or.inl ?_)
        rw [ids_node, Multiset.mem_coe]
        exact List.mem_cons_of_mem _ (List.mem_map_of_mem hitem)
      · refine Or.inl (Or.inl ⟨block, ?_⟩)
        rw [kind, Tree.node, hget, ← hblock]
        rfl
      · exact Or.inl (h.shows.removable (.under hb hdrops) h.height_le_size)
  · exact Or.inr (Or.inr (Multiset.mem_map_of_mem _ hmem))

theorem Holds.index_lt (h : t.Holds root next ((Rose.node a cs).nodes none + others)) {id : NodeId}
    (hid : t.contains id = true) : id.index < next := by
  obtain ⟨node, hget⟩ := Option.isSome_iff_exists.mp hid
  have hlt := h.below node (h.mem hget)
  rwa [h.id_eq hget] at hlt

theorem Holds.mem_ids_iff (h : t.Holds root next ((Rose.node a cs).nodes none + others))
    (h' : t'.Holds root next' ((Rose.node a forest).nodes none + others))
    (hknown : ∀ x ∈ labelsAll forest, x ∈ labelsAll cs ∨ next ≤ x.id.index ∧ x.id.index < next')
    {id : NodeId} (hid : t.contains id = true) (hid' : t'.contains id = true) :
    id ∈ (Rose.node a forest).ids ↔ id ∈ (Rose.node a cs).ids := by
  constructor
  · intro hmem
    rw [ids_node] at hmem ⊢
    rcases List.mem_cons.mp hmem with heq | hmem
    · rw [heq]
      exact List.mem_cons_self
    · obtain ⟨x, hx, rfl⟩ := List.mem_map.mp hmem
      rcases hknown x hx with hold | hnew
      · exact List.mem_cons_of_mem _ (List.mem_map_of_mem hold)
      · have hlt := h.index_lt hid
        omega
  · intro hmem
    rw [h'.contains_iff, Multiset.map_add, Multiset.mem_add, map_id_nodes, Multiset.mem_coe] at hid'
    refine hid'.resolve_right ?_
    have hnodup := h.nodup
    rw [Multiset.map_add, Multiset.nodup_add, map_id_nodes] at hnodup
    exact Multiset.disjoint_left.mp hnodup.2.2 hmem

end

/-- An instrumentation loses no node and changes none, apart from what it is there to remove. -/
theorem instrument_continues (hwf : t.WellFormed) {report : InstrumentReport}
    (hrun : t.instrument o = .ok (.ok report, t')) : t.Continues t' := by
  obtain ⟨a, cs, others, hroot, hkind, hclosed, hready, h, -, h'⟩ := hwf.exists_run hrun
  have haccounts := (hereditary_accounts o).of_files hready (.start t.ids.next)
  have hlabels := labels_files (o := o) hready (.start t.ids.next)
  generalize rewriteAll o false cs (.start t.ids.next) = r at h' haccounts hlabels
  have hknown : ∀ x ∈ labelsAll r.1.forest,
      x ∈ labelsAll cs ∨ t.ids.next ≤ x.id.index ∧ x.id.index < r.2.next := by
    intro x hx
    rw [← hlabels] at hx
    rcases haccounts.known x hx with hold | hnone | hnew
    · exact Or.inl hold
    · cases hnone
    · exact Or.inr hnew
  have hkept : ∀ x ∈ labelsAll cs, x ∈ labelsAll r.1.forest ∨ Loses x cs := by
    intro x hx
    rw [← hlabels]
    exact haccounts.kept x hx
  have hnew : ∀ id, t'.contains id → ¬ t.contains id →
      (t.ids.next ≤ id.index ∧ id.index < r.2.next) ∧ id ∈ (Rose.node a r.1.forest).ids := by
    intro id hid hnot
    obtain ⟨node', hget⟩ := Option.isSome_iff_exists.mp hid
    refine (h.old_or_new h' hknown hget).resolve_left ?_
    rintro ⟨node, hold, -⟩
    rw [contains, hold] at hnot
    exact hnot rfl
  refine ⟨h'.wellFormed_of_branch hroot hkind hclosed, h'.root_eq, ?_, ?_, ?_, ?_, ?_, ?_⟩
  · rw [h'.next_eq]
    exact haccounts.le
  · intro id hid
    exact h.removable_or_kept h' hkept hid
  · intro id node node' hget hget'
    have hid : t.contains id = true := by
      rw [contains, hget]
      rfl
    rcases h.old_or_new h' hknown hget' with ⟨n, hn, heq⟩ | ⟨hrange, -⟩
    · rw [hget, Option.some.injEq] at hn
      rw [← hn] at heq
      exact ⟨congrArg Item.kind heq.symm, congrArg Item.location heq.symm⟩
    · have hlt := h.index_lt hid
      omega
  · intro id hid hnot
    rw [h'.next_eq]
    exact (hnew id hid hnot).1
  · intro id hid hid'
    rw [h'.reaches_iff hroot, h.reaches_iff hroot]
    exact h.mem_ids_iff h' hknown hid hid'
  · intro id hid hnot
    exact (h'.reaches_iff hroot id).mpr (hnew id hid hnot).2

theorem instrument_continues_page :
    ∃ report t', (page (some 7)).instrument {} = .ok (.ok report, t') ∧
      (page (some 7)).Continues t' := by
  have hwf : (page (some 7)).WellFormed := by
    decide
  obtain ⟨report, t', hrun⟩ := instrument_page
  exact ⟨report, t', hrun, instrument_continues hwf hrun⟩

end Tree

end TemplateLogging
