import TemplateLogging.Proofs.Census
import TemplateLogging.Proofs.Places

namespace TemplateLogging

open Instrument Rose

/-- The variable that a print refers to, as the name of an attribute or as the name that a deferred
call gets. The second part tells whether it is a deferred call. -/
def NodeKind.reference? : NodeKind → Option (String × Bool)
  | .print (.varRef name) _ => some (name, false)
  | .print (.call (.builtin .renderLoggingAttribute) [_, _, .varRef name]) _ => some (name, true)
  | _ => none

/-- How far the id of a reference is behind that of the variable. -/
def referenceGap (deferred : Bool) : Nat :=
  if deferred then 5 else 1

theorem reference?_marker (id : Int64) (block : LogBlock) :
    (NodeKind.print (marker id block) true).reference? = none :=
  rfl

theorem reference?_renderCall (call : LoggingCall) (name : Expr) :
    (NodeKind.print (renderCall call name) true).reference? =
      match name with
      | .varRef varName => some (varName, true)
      | _ => none := by
  cases name <;> rfl

/-- The print of a variable as the name of an attribute, with the nodes on the way to the attribute.
Its id comes right after that of the variable. -/
def Site (a : Item) (path : List Item) (bs : List Branch) : Prop :=
  ∃ x attr, Occurs x (attr :: path) bs ∧ x.id = ⟨a.id.index + 1⟩ ∧ attr.kind = .htmlAttribute

/-- There is an open tag on the way to an attribute, or a template right around it. -/
def Sheltered (path : List Item) : Prop :=
  (∃ c ∈ path, c.kind.isOpenTag = true) ∨ ∃ c ∈ path.head?, c.kind.isTemplate = true

/-- The variable is in the branches, but is not the first node of one of them. -/
def Inside (a : Item) (bs : List Branch) : Prop :=
  ∃ b path l, Occurs b path bs ∧ l ∈ b.children ∧ l.label = a

/-- The variable and the reference are in different children of a node, the variable not as the
first node of one. -/
def Apart (a y : Item) (bs : List Branch) : Prop :=
  ∃ c ds es path, Occurs (.node c (ds ++ es)) path bs ∧ Inside a ds ∧ y ∈ labelsAll es

/-- Where a variable and a deferred call are that refers to it. -/
inductive Deferred (inTag : Bool) (a y : Item) (path : List Item) (g : Growth Item) : Prop where
  | settled (h : Precedes a y (g.bindings ++ g.forest)) (hpath : Sheltered path)
  /-- Both are on their way to the open tag. -/
  | sent (hin : inTag = true) (h : Precedes a y (g.bindings ++ g.attributes))
  /-- The variable is beside the attribute, and the call is on its way to a template. -/
  | beside {l : Branch} (hin : inTag = false) (hpath : path = []) (hl : l ∈ g.forest)
      (hlabel : l.label = a) (hy : y ∈ labelsAll g.attributes)
  /-- The call has left a node behind that has the variable. -/
  | astray (hin : inTag = false) (hpath : path ≠ []) (hshelter : ¬ Sheltered path)
      (h : Inside a g.forest) (hy : y ∈ labelsAll g.attributes)
  | lost (hin : inTag = false) (hpath : path ≠ []) (hshelter : ¬ Sheltered path)
      (h : Apart a y g.forest)

/-- The growth has a variable with the name for the reference, newer than the id. The reference is
in scope, or it is a deferred call. -/
def Bound (next : Nat) (inTag : Bool) (y : Item) (name : String) (deferred : Bool)
    (g : Growth Item) : Prop :=
  ∃ a ∈ g.labels, next ≤ a.id.index ∧ a.kind = .letContent name ∧
    y.id.index = a.id.index + referenceGap deferred ∧
      ∃ path, Site a path g.forest ∧
        if deferred then Deferred inTag a y path g else Precedes a y (g.bindings ++ g.forest)

section

variable {next : Nat} {inTag deferred : Bool} {a c y : Item} {name : String} {path : List Item}
  {bs cs ds : List Branch} {g h : Growth Item}

theorem Site.mono (h : Site a path bs) (hsub : bs ⊆ cs) : Site a path cs := by
  obtain ⟨x, attr, hx, hrest⟩ := h
  exact ⟨x, attr, hx.mono hsub, hrest⟩

theorem Site.inside (h : Site a path cs) (hc : .node c cs ∈ bs) : Site a (path ++ [c]) bs := by
  obtain ⟨x, attr, hx, hrest⟩ := h
  exact ⟨x, attr, .inside hc hx, hrest⟩

theorem Inside.mono (h : Inside a bs) (hsub : bs ⊆ cs) : Inside a cs := by
  obtain ⟨b, path, l, hb, hl⟩ := h
  exact ⟨b, path, l, hb.mono hsub, hl⟩

theorem Inside.under (h : Inside a cs) (c : Item) : Inside a [.node c cs] := by
  obtain ⟨b, path, l, hb, hl⟩ := h
  exact ⟨b, _, l, hb.under c, hl⟩

theorem Apart.mono (h : Apart a y bs) (hsub : bs ⊆ cs) : Apart a y cs := by
  obtain ⟨c, ds, es, path, hocc, hrest⟩ := h
  exact ⟨c, ds, es, path, hocc.mono hsub, hrest⟩

theorem Apart.inside (h : Apart a y cs) (hc : .node c cs ∈ bs) : Apart a y bs := by
  obtain ⟨d, ds, es, path, hocc, hrest⟩ := h
  exact ⟨d, ds, es, _, .inside hc hocc, hrest⟩

theorem Sheltered.append (h : Sheltered path) (c : Item) : Sheltered (path ++ [c]) := by
  refine h.imp ?_ ?_
  · rintro ⟨d, hd, htag⟩
    exact ⟨d, List.mem_append_left _ hd, htag⟩
  · rintro ⟨d, hd, htemplate⟩
    refine ⟨d, ?_, htemplate⟩
    rw [List.head?_append, Option.mem_def.mp hd]
    rfl

theorem sheltered_tag (htag : c.kind.isOpenTag = true) (path : List Item) :
    Sheltered (path ++ [c]) :=
  Or.inl ⟨c, List.mem_append_right _ (List.mem_singleton_self c), htag⟩

theorem not_sheltered_append (h : ¬ Sheltered path) (hpath : path ≠ [])
    (htag : c.kind.isOpenTag = false) : ¬ Sheltered (path ++ [c]) := by
  rintro (⟨d, hd, hkind⟩ | ⟨d, hd, hkind⟩)
  · rcases List.mem_append.mp hd with hd | hd
    · exact h (Or.inl ⟨d, hd, hkind⟩)
    · rw [List.mem_singleton.mp hd, htag] at hkind
      cases hkind
  · rw [List.head?_append_of_ne_nil _ hpath] at hd
    exact h (Or.inr ⟨d, hd, hkind⟩)

theorem precedes_of_mem {l : Branch} (hl : l ∈ bs) (hlabel : l.label = a) (hy : y ∈ labelsAll cs) :
    Precedes a y (bs ++ cs) := by
  obtain ⟨before, after, rfl⟩ := List.append_of_mem hl
  obtain ⟨b, es⟩ := l
  rw [label_node] at hlabel
  subst hlabel
  rw [List.append_assoc, List.cons_append]
  refine .here ?_
  rw [labelsAll_append]
  exact List.mem_append_right _ hy

theorem Deferred.mono (hg : Deferred inTag a y path g) (hbindings : g.bindings.Sublist h.bindings)
    (hforest : g.forest.Sublist h.forest) (hattributes : g.attributes.Sublist h.attributes) :
    Deferred inTag a y path h := by
  have hcalls := labelsAll_subset hattributes.subset
  cases hg with
  | settled hp hpath => exact .settled (hp.mono (hbindings.append hforest)) hpath
  | sent hin hp => exact .sent hin (hp.mono (hbindings.append hattributes))
  | beside hin hpath hl hlabel hy =>
      exact .beside hin hpath (hforest.subset hl) hlabel (hcalls hy)
  | astray hin hpath hshelter hinside hy =>
      exact .astray hin hpath hshelter (hinside.mono hforest.subset) (hcalls hy)
  | lost hin hpath hshelter hapart => exact .lost hin hpath hshelter (hapart.mono hforest.subset)

theorem Bound.mono {next' : Nat} (hg : Bound next' inTag y name deferred g) (hnext : next ≤ next')
    (hbindings : g.bindings.Sublist h.bindings) (hforest : g.forest.Sublist h.forest)
    (hattributes : g.attributes.Sublist h.attributes) : Bound next inTag y name deferred h := by
  obtain ⟨a, ha, hnew, hkind, hid, path, hsite, hscope⟩ := hg
  have hmem : a ∈ h.labels := by
    rw [Growth.mem_labels] at ha ⊢
    exact ha.imp (labelsAll_subset hforest.subset ·)
      (Or.imp (labelsAll_subset hbindings.subset ·) (labelsAll_subset hattributes.subset ·))
  refine ⟨a, hmem, Nat.le_trans hnext hnew, hkind, hid, path, hsite.mono hforest.subset, ?_⟩
  cases deferred with
  | false => exact hscope.mono (hbindings.append hforest)
  | true => exact hscope.mono hbindings hforest hattributes

theorem Bound.earlier {next' : Nat} (hg : Bound next' inTag y name deferred g)
    (hnext : next ≤ next') : Bound next inTag y name deferred g :=
  hg.mono hnext (List.Sublist.refl _) (List.Sublist.refl _) (List.Sublist.refl _)

theorem Bound.append_left (hg : Bound next inTag y name deferred g) (h : Growth Item) :
    Bound next inTag y name deferred (g ++ h) :=
  hg.mono (Nat.le_refl _) (List.sublist_append_left _ _) (List.sublist_append_left _ _)
    (List.sublist_append_left _ _)

theorem Bound.append_right (hh : Bound next inTag y name deferred h) (g : Growth Item) :
    Bound next inTag y name deferred (g ++ h) :=
  hh.mono (Nat.le_refl _) (List.sublist_append_right _ _) (List.sublist_append_right _ _)
    (List.sublist_append_right _ _)

theorem exists_node_wrap (g : Growth Item) (inTag : Bool) (c : Item) :
    ∃ es, .node c (g.forest ++ es) ∈ (g.wrap inTag c).forest := by
  rw [Growth.wrap]
  split
  · exact ⟨g.attributes, List.mem_append_right _ (List.mem_singleton_self _)⟩
  · split
    · exact ⟨g.attributes, List.mem_singleton_self _⟩
    · refine ⟨[], ?_⟩
      rw [List.append_nil]
      exact List.mem_singleton_self _

theorem wrap_of_no_tag (g : Growth Item) (htag : c.kind.isOpenTag = false) :
    g.wrap false c = if c.kind.isTemplate = true then g.underTemplate c else g.under c := by
  rw [Growth.wrap, htag, if_neg Bool.false_ne_true, Bool.not_false, Bool.and_true]

theorem precedes_wrap (hg : Precedes a y (g.bindings ++ g.forest)) (inTag : Bool) (c : Item) :
    Precedes a y ((g.wrap inTag c).bindings ++ (g.wrap inTag c).forest) := by
  have hall : Precedes a y (g.bindings ++ (g.forest ++ g.attributes)) :=
    hg.mono ((List.Sublist.refl _).append (List.sublist_append_left _ _))
  rw [Growth.wrap]
  split
  · exact hall.nest c
  · split
    · exact hall.nest c
    · exact hg.nest c

theorem Deferred.wrap (hg : Deferred (c.kind.isOpenTag || inTag) a y path g) :
    Deferred inTag a y (path ++ [c]) (g.wrap inTag c) := by
  obtain ⟨es, hc⟩ := exists_node_wrap g inTag c
  cases hg with
  | settled hp hpath => exact .settled (precedes_wrap hp inTag c) (hpath.append c)
  | sent hin hp =>
      rw [Growth.wrap]
      split
      · rename_i htag
        have hall : Precedes a y (g.bindings ++ (g.forest ++ g.attributes)) :=
          hp.mono ((List.Sublist.refl _).append (List.sublist_append_right _ _))
        exact .settled (hall.nest c) (sheltered_tag htag path)
      · rename_i htag
        obtain rfl : inTag = true := (Bool.or_eq_true_iff.mp hin).resolve_left htag
        rw [Bool.not_true, Bool.and_false, if_neg Bool.false_ne_true]
        exact .sent rfl hp
  | beside hin hpath hl hlabel hy =>
      obtain ⟨htag, rfl⟩ := Bool.or_eq_false_iff.mp hin
      subst hpath
      rw [wrap_of_no_tag g htag, List.nil_append]
      split
      · rename_i htemplate
        exact .settled (.inside (List.mem_append_right _ (List.mem_singleton_self _))
          (precedes_of_mem hl hlabel hy)) (Or.inr ⟨c, rfl, htemplate⟩)
      · rename_i htemplate
        refine .astray rfl (List.cons_ne_nil c []) ?_
          ⟨.node c g.forest, [], _, .here (List.mem_singleton_self _), hl, hlabel⟩ hy
        rintro (⟨d, hd, hkind⟩ | ⟨d, hd, hkind⟩)
        · rw [List.mem_singleton.mp hd, htag] at hkind
          cases hkind
        · cases hd
          exact htemplate hkind
  | astray hin hpath hshelter hinside hy =>
      obtain ⟨htag, rfl⟩ := Bool.or_eq_false_iff.mp hin
      have hpath' : path ++ [c] ≠ [] := List.append_ne_nil_of_left_ne_nil hpath _
      have hshelter' := not_sheltered_append hshelter hpath htag
      rw [wrap_of_no_tag g htag]
      split
      · exact .lost rfl hpath' hshelter' ⟨c, g.forest, g.attributes, [],
          .here (List.mem_singleton_self _), hinside, hy⟩
      · exact .astray rfl hpath' hshelter' (hinside.under c) hy
  | lost hin hpath hshelter hapart =>
      obtain ⟨htag, rfl⟩ := Bool.or_eq_false_iff.mp hin
      exact .lost rfl (List.append_ne_nil_of_left_ne_nil hpath _)
        (not_sheltered_append hshelter hpath htag)
        ((hapart.mono (List.subset_append_left _ es)).inside hc)

/-- Nothing is on its way any more at the end. -/
theorem Deferred.settled_or_lost (hg : Deferred false a y path g) (hbindings : g.bindings = [])
    (hattributes : g.attributes = []) :
    Precedes a y g.forest ∧ Sheltered path ∨ Apart a y g.forest ∧ ¬ Sheltered path := by
  cases hg with
  | settled hp hpath =>
      rw [hbindings, List.nil_append] at hp
      exact Or.inl ⟨hp, hpath⟩
  | sent hin _ => cases hin
  | beside _ _ _ _ hy | astray _ _ _ _ hy =>
      rw [hattributes] at hy
      cases hy
  | lost _ _ hshelter hapart => exact Or.inr ⟨hapart, hshelter⟩

theorem sheltered_iff {parent : Item} {rest : List Item} (hc : c.kind = .fileSet)
    (hpath : path ++ [c] = parent :: rest) : Sheltered path ↔ parent.kind.isTemplate = true ∨
      ∃ tag, ((path ++ [c]).find? (·.kind.isOpenTag)).map (·.id) = some tag := by
  have htag : (∃ tag, ((path ++ [c]).find? (·.kind.isOpenTag)).map (·.id) = some tag) ↔
      ∃ d ∈ path, d.kind.isOpenTag = true := by
    rw [← Option.isSome_iff_exists, Option.isSome_map, List.find?_isSome]
    simp [hc, NodeKind.isOpenTag]
  have htemplate : (∃ d ∈ path.head?, d.kind.isTemplate = true) ↔
      parent.kind.isTemplate = true := by
    cases path with
    | nil =>
        cases hpath
        simp [hc, NodeKind.isTemplate]
    | cons d path =>
        cases hpath
        simp
  rw [Sheltered, htag, htemplate, or_comm]

theorem Bound.wrap (hg : Bound next (c.kind.isOpenTag || inTag) y name deferred g) :
    Bound next inTag y name deferred (g.wrap inTag c) := by
  obtain ⟨a, ha, hnew, hkind, hid, path, hsite, hscope⟩ := hg
  obtain ⟨es, hc⟩ := exists_node_wrap g inTag c
  refine ⟨a, Growth.mem_labels_wrap.mpr (Or.inr ha), hnew, hkind, hid, path ++ [c],
    (hsite.mono (List.subset_append_left _ es)).inside hc, ?_⟩
  cases deferred with
  | false => exact precedes_wrap hscope inTag c
  | true => exact hscope.wrap

end

end TemplateLogging
