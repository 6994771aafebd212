import TemplateLogging.Proofs.Binding
import TemplateLogging.Proofs.Survival

namespace TemplateLogging

open Instrument Rose

namespace Tree

/-- The reference is in the scope of the variable: the variable is before it, or before a node
around it, among the children of one node. -/
def InScope (t : Tree) (binding reference : NodeId) : Prop :=
  ∃ parent before after anchor, t.children parent = before ++ binding :: after ∧ anchor ∈ after ∧
    t.Below anchor reference

variable {t t' : Tree} {o : InstrumentOptions} {report : InstrumentReport}

theorem Shows.inScope {parent : Option NodeId} {a y c : Item} {bs : List Branch}
    (h : t.Shows parent (.node c bs)) (hp : Precedes a y bs) : t.InScope a.id y.id := by
  induction hp generalizing parent c with
  | @here before cs after hy =>
      rw [labelsAll_eq_flatMap, List.mem_flatMap] at hy
      obtain ⟨d, hd, hy⟩ := hy
      have hshows := h.children.of_mem (List.mem_append_right before (List.mem_cons_of_mem _ hd))
      refine ⟨c.id, before.map Rose.id, after.map Rose.id, d.id, ?_, List.mem_map_of_mem hd,
        hshows.below_of_mem y.id (List.mem_map_of_mem hy)⟩
      have hchildren := h.children_eq
      rwa [children_node, List.map_append, List.map_cons] at hchildren
  | inside hc _ ih => exact ih (h.children.of_mem hc)

theorem WellFormed.parent?_eq (hwf : t.WellFormed) {id child : NodeId}
    (h : child ∈ t.children id) : t.parent? child = some id := by
  obtain ⟨n, hget, hchild⟩ := exists_get?_of_mem_children h
  obtain ⟨m, hm, hparent⟩ := hwf.parent_eq hget hchild
  rw [parent?, hm, Option.bind_some, hparent]

section

variable {root : NodeId} {next : Nat} {others : Multiset Node} {a x y : Item} {path : List Item}
  {cs : List Branch}

theorem Holds.mem_forest_of_fresh {next' : Nat} {forest : List Branch} {n : Node}
    (h : t.Holds root next ((Rose.node a cs).nodes none + others))
    (h' : t'.Holds root next' ((Rose.node a forest).nodes none + others))
    (hget : t'.get? n.id = some n) (hfresh : next ≤ n.id.index) :
    n.item ∈ labelsAll forest ∧ n.item ∉ labelsAll cs := by
  have hold : n.item ∉ (Rose.node a cs).labels := by
    intro hmem
    obtain ⟨m, hm, hitem⟩ := exists_node_of_mem_labels none hmem
    have hid : m.id = n.id := congrArg Item.id hitem
    have hlt := h.below m (Multiset.mem_add.mpr (Or.inl hm))
    rw [hid] at hlt
    exact Nat.not_lt_of_le hfresh hlt
  rw [labels, List.mem_cons, not_or] at hold
  refine ⟨?_, hold.2⟩
  rcases Multiset.mem_add.mp (h'.mem hget) with hmem | hmem
  · exact (List.mem_cons.mp (item_mem_labels hmem)).resolve_left hold.1
  · exact absurd (h.below n (Multiset.mem_add.mpr (Or.inr hmem))) (Nat.not_lt_of_le hfresh)

/-- The node around the variable is not around the reference. -/
theorem Holds.not_inScope (h : t.Holds root next ((Rose.node a cs).nodes none + others))
    (hwf : t.WellFormed) (hapart : Apart x y cs) : ¬ t.InScope x.id y.id := by
  obtain ⟨c, ds, es, path, hocc, ⟨d, path', l, hd, hl, rfl⟩, hy⟩ := hapart
  rintro ⟨parent, before, after, anchor, hchildren, hanchor, hbelow⟩
  have hshows := h.shows.children.of_occurs hocc
  have hdshows := hshows.children.of_occurs (hd.mono (List.subset_append_left ds es))
  have hparent : t.parent? l.label.id = some d.id := (hdshows.children.of_mem hl).parent?_eq
  have hmem : l.label.id ∈ t.children parent := by
    rw [hchildren]
    exact List.mem_append_right _ List.mem_cons_self
  rw [hwf.parent?_eq hmem, Option.some.injEq] at hparent
  subst hparent
  have hbelow : t.Below d.id y.id := by
    refine .head ?_ hbelow
    rw [hchildren]
    exact List.mem_append_right _ (List.mem_cons_of_mem _ hanchor)
  have hleft : y.id ∈ idsAll ds :=
    (hd.labels_sublist.map Item.id).subset ((hdshows.below_iff y.id).mp hbelow)
  have hright : y.id ∈ idsAll es := List.mem_map_of_mem hy
  rw [← nodesAll_singleton] at h
  have hnodup : (Rose.node c (ds ++ es)).ids.Nodup :=
    ((hocc.under a).labels_sublist.map Item.id).nodup h.nodup_idsAll
  rw [ids_node, List.nodup_cons, idsAll, labelsAll_append, List.map_append] at hnodup
  exact List.disjoint_of_nodup_append hnodup.2 hleft hright

theorem Holds.exists_attribute (h : t.Holds root next ((Rose.node a cs).nodes none + others))
    (hsite : Site x path cs) : ∃ attr parent rest, path ++ [a] = parent :: rest ∧
      t.parent? ⟨x.id.index + 1⟩ = some attr ∧ t.kind attr = .ok .htmlAttribute ∧
        t.parent? attr = some parent.id ∧ t.kind parent.id = .ok parent.kind ∧
          t.nearestAncestor? attr (·.isOpenTag) =
            .ok (((path ++ [a]).find? (·.kind.isOpenTag)).map (·.id)) := by
  obtain ⟨y, attr, hy, hid, hattr⟩ := hsite
  have hall : t.ShowsAll none [.node a cs] := showsAll_cons_iff.mpr ⟨h.shows, showsAll_nil⟩
  have hy' := hy.under a
  obtain ⟨parent, rest, hpath⟩ : ∃ parent rest, path ++ [a] = parent :: rest := by
    cases path with
    | nil => exact ⟨a, [], rfl⟩
    | cons parent rest => exact ⟨parent, rest ++ [a], rfl⟩
  rw [List.cons_append, hpath] at hy'
  obtain ⟨ds, -, hocc⟩ := hy'.outer
  obtain ⟨es, -, hocc'⟩ := hocc.outer
  obtain ⟨fs, -, hbelow⟩ := hy.outer
  obtain ⟨ctx, hplug, hitems⟩ := hbelow.exists_context (.within .top a [] []) (by simp)
  refine ⟨attr.id, parent, rest, hpath, ?_, ?_, (hall.of_occurs hocc).parent?_eq,
    (hall.of_occurs hocc').kind_eq, ?_⟩
  · rw [← hid]
    exact (hall.of_occurs hy').parent?_eq
  · rw [← hattr]
    exact (hall.of_occurs hocc).kind_eq
  · rw [Context.plug, Context.plug, List.nil_append, List.append_nil] at hplug
    rw [← nodesAll_singleton, ← hplug] at h
    have hnearest := h.nearestAncestor?_eq (·.isOpenTag)
    rwa [hitems] at hnearest

end

/-- Every reference that an instrumentation puts in has its variable, five ids before it if it is in
a deferred call and one id before it if it is the name of an attribute. The name is always in scope.
The deferred call is in scope only if the attribute is in an open tag or right under a template. -/
theorem instrument_scopes (hwf : t.WellFormed) (hrun : t.instrument o = .ok (.ok report, t'))
    {id : NodeId} {kind : NodeKind} {name : String} {deferred : Bool}
    (hfresh : t.ids.next ≤ id.index) (hkind : t'.kind id = .ok kind)
    (hrefers : kind.reference? = some (name, deferred)) :
    ∃ binding attr parent parentKind, t.ids.next ≤ binding.index ∧
      t'.kind binding = .ok (.letContent name) ∧
        id.index = binding.index + referenceGap deferred ∧
          t'.parent? ⟨binding.index + 1⟩ = some attr ∧ t'.kind attr = .ok .htmlAttribute ∧
            t'.parent? attr = some parent ∧ t'.kind parent = .ok parentKind ∧
              (t'.InScope binding id ↔ deferred = false ∨ parentKind.isTemplate = true ∨
                ∃ tag, t'.nearestAncestor? attr (·.isOpenTag) = .ok (some tag)) := by
  obtain ⟨a, cs, others, hroot, hfileSet, hclosed, hready, h, -, h'⟩ := hwf.exists_run hrun
  have hwf' : t'.WellFormed := h'.wellFormed_of_branch hroot hfileSet hclosed
  have hbinds : Binds false cs (rewriteAll o false cs) := (hereditary_binds o).of_files hready
  obtain ⟨hbindings, hattributes⟩ :=
    (hereditary_contained o).of_files hready rfl (.start t.ids.next)
  have hattributes := hattributes rfl
  have hlabels := labels_files (o := o) hready (.start t.ids.next)
  obtain ⟨n, hget, rfl⟩ := exists_get?_of_kind hkind
  obtain rfl := h'.id_eq hget
  obtain ⟨hnew, hold⟩ := h.mem_forest_of_fresh h' hget hfresh
  rw [← hlabels] at hnew
  obtain ⟨b, hb, hnext, hbinding, hgap, path, hsite, hscope⟩ :=
    hbinds.bound _ n.item hnew hold name deferred hrefers
  rw [hlabels] at hb
  obtain ⟨attr, parent, rest, hpath, hname, hattr, hparent, hparentKind, hnearest⟩ :=
    h'.exists_attribute hsite
  refine ⟨b.id, attr, parent.id, parent.kind, hnext, ?_, hgap, hname, hattr, hparent, hparentKind,
    ?_⟩
  · rw [← hbinding]
    exact h'.shows.kind_of_mem (List.mem_cons_of_mem a hb)
  · simp only [hnearest, Except.ok.injEq, ← sheltered_iff hfileSet hpath]
    cases deferred with
    | false =>
        have hp : Precedes b n.item _ := hscope
        rw [hbindings, List.nil_append] at hp
        exact iff_of_true (h'.shows.inScope hp) (Or.inl rfl)
    | true =>
        have hdef : Deferred false b n.item path _ := hscope
        rcases hdef.settled_or_lost hbindings hattributes with ⟨hp, hshelter⟩ | ⟨hapart, hshelter⟩
        · exact iff_of_true (h'.shows.inScope hp) (Or.inr hshelter)
        · refine iff_of_false (h'.not_inScope hwf' hapart) ?_
          rintro (hfalse | hshelter')
          · cases hfalse
          · exact hshelter hshelter'

/-- A page with an attribute under a condition and in no open tag. Its name is computed, and its
value is what a logging function gives. -/
def conditionalPage : Tree :=
  ofNodes [
    .numbered 0 none [1] .fileSet,
    .numbered 1 (some 0) [2] (.file "page.soy" .source),
    .numbered 2 (some 1) [3] (.template "page" .attributes),
    .numbered 3 (some 2) [4] .ifBlock,
    .numbered 4 (some 3) [5] (.ifCond (.varRef "shown")),
    .numbered 5 (some 4) [6, 7] .htmlAttribute,
    .numbered 6 (some 5) [] (.print (.varRef "name") false),
    .numbered 7 (some 5) [8] (.attributeValue .double),
    .numbered 8 (some 7) [] (.print (.call (.logging ⟨"address", "#"⟩) []) false)]

/-- The deferred call of the page after its instrumentation, and all nodes around that call. -/
def aroundCall : List NodeId :=
  [⟨14⟩, ⟨13⟩, ⟨11⟩, ⟨16⟩, ⟨15⟩, ⟨2⟩, ⟨1⟩, ⟨0⟩]

/-- Whether the call refers to the first variable and is cut off from all variables: there are no
other nodes around the call, and no variable is beside one of them. -/
def callCutOff (t : Tree) : Bool :=
  (t.get? ⟨14⟩).any (·.kind.reference? = some (variableName {} 0, true)) &&
    t.nodes.entries.all fun entry =>
      !entry.2.children.any (· ∈ aroundCall) || entry.1 ∈ aroundCall &&
        !entry.2.children.any fun child => (t.get? child).any (·.kind matches .letContent _)

theorem conditionalPage_cutOff : conditionalPage.WellFormed ∧
    ∃ report t', conditionalPage.instrument {} = .ok (.ok report, t') ∧ t'.callCutOff = true := by
  have hwf : conditionalPage.WellFormed := by
    decide
  obtain ⟨report, t', hrun⟩ := instrument_ok_of_le (o := {}) hwf rfl (by decide)
  have hcheck : (match conditionalPage.instrument {} with
      | .ok (.ok _, t') => t'.callCutOff
      | _ => false) = true := by
    decide +kernel
  rw [hrun] at hcheck
  exact ⟨hwf, report, t', hrun, hcheck⟩

theorem exists_call_of_callCutOff (h : t.callCutOff = true) : ∃ kind, t.kind ⟨14⟩ = .ok kind ∧
    kind.reference? = some (variableName {} 0, true) := by
  rw [callCutOff, Bool.and_eq_true, Option.any_eq_true] at h
  obtain ⟨⟨n, hn, hrefers⟩, -⟩ := h
  refine ⟨n.kind, ?_, of_decide_eq_true hrefers⟩
  rw [kind, node, hn]
  rfl

theorem instrument_scopes_conditionalPage : ∃ report t' kind,
    conditionalPage.instrument {} = .ok (.ok report, t') ∧ t'.kind ⟨14⟩ = .ok kind ∧
      ∃ binding attr parent parentKind, 9 ≤ binding.index ∧
        t'.kind binding = .ok (.letContent (variableName {} 0)) ∧ 14 = binding.index + 5 ∧
          t'.parent? ⟨binding.index + 1⟩ = some attr ∧ t'.kind attr = .ok .htmlAttribute ∧
            t'.parent? attr = some parent ∧ t'.kind parent = .ok parentKind ∧
              (t'.InScope binding ⟨14⟩ ↔ true = false ∨ parentKind.isTemplate = true ∨
                ∃ tag, t'.nearestAncestor? attr (·.isOpenTag) = .ok (some tag)) := by
  obtain ⟨hwf, report, t', hrun, hcut⟩ := conditionalPage_cutOff
  obtain ⟨kind, hkind, hrefers⟩ := exists_call_of_callCutOff hcut
  exact ⟨report, t', kind, hrun, hkind, instrument_scopes hwf hrun (by decide) hkind hrefers⟩

theorem not_inScope_of_callCutOff (h : t.callCutOff = true) {binding : NodeId} {name : String}
    (hbinding : t.kind binding = .ok (.letContent name)) : ¬ t.InScope binding ⟨14⟩ := by
  obtain ⟨node, hget, hkind⟩ := exists_get?_of_kind hbinding
  have hcut : ∀ {parent child : NodeId}, child ∈ t.children parent → child ∈ aroundCall →
      parent ∈ aroundCall ∧ binding ∉ t.children parent := by
    intro parent child hchild haround
    obtain ⟨n, hn, hchild⟩ := exists_get?_of_mem_children hchild
    rw [callCutOff, Bool.and_eq_true, List.all_eq_true] at h
    have hentry := h.2 (parent, n) (Table.mem_entries_iff.mpr hn)
    have hany : n.children.any (· ∈ aroundCall) = true :=
      List.any_eq_true.mpr ⟨child, hchild, decide_eq_true haround⟩
    rw [hany, Bool.not_true, Bool.false_or, Bool.and_eq_true, decide_eq_true_eq,
      Bool.not_eq_true', List.any_eq_false] at hentry
    refine ⟨hentry.1, ?_⟩
    intro hmem
    rw [children, hn] at hmem
    have hnone := hentry.2 binding hmem
    rw [hget, Option.any_some, hkind] at hnone
    exact hnone rfl
  have habove : ∀ {id : NodeId}, t.Below id ⟨14⟩ → id ∈ aroundCall := by
    intro id hbelow
    induction hbelow using Relation.ReflTransGen.head_induction_on with
    | refl => decide
    | head hchild _ ih => exact (hcut hchild ih).1
  rintro ⟨parent, before, after, anchor, hchildren, hanchor, hbelow⟩
  have hchild : anchor ∈ t.children parent := by
    rw [hchildren]
    exact List.mem_append_right _ (List.mem_cons_of_mem _ hanchor)
  refine (hcut hchild (habove hbelow)).2 ?_
  rw [hchildren]
  exact List.mem_append_right _ List.mem_cons_self

/-- The page keeps its variable under the condition, and the call that refers to it is outside. -/
theorem conditionalPage_unscoped : conditionalPage.WellFormed ∧
    ∃ report t' kind, conditionalPage.instrument {} = .ok (.ok report, t') ∧
      t'.kind ⟨14⟩ = .ok kind ∧ kind.reference? = some (variableName {} 0, true) ∧
        ∀ binding name, t'.kind binding = .ok (.letContent name) → ¬ t'.InScope binding ⟨14⟩ := by
  obtain ⟨hwf, report, t', hrun, hcut⟩ := conditionalPage_cutOff
  obtain ⟨kind, hkind, hrefers⟩ := exists_call_of_callCutOff hcut
  exact ⟨hwf, report, t', kind, hrun, hkind, hrefers,
    fun binding name hbinding => not_inScope_of_callCutOff hcut hbinding⟩

end Tree

end TemplateLogging
