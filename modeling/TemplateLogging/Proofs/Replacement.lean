import TemplateLogging.Proofs.Forest

namespace TemplateLogging.Tree

variable {t : Tree} {id parent old new : NodeId}

theorem mem_children_of_split {before after : List NodeId}
    (h : t.children parent = before ++ id :: after) : id ∈ t.children parent := by
  rw [h]
  exact List.mem_append_right before List.mem_cons_self

theorem childIndex?_eq_none_iff : t.childIndex? parent old = none ↔ old ∉ t.children parent :=
  List.idxOf?_eq_none_iff

theorem detach_eq_self_iff : t.detach id = t ↔ t.parent? id = none := by
  refine ⟨?_, detach_of_parent?_none⟩
  intro hself
  have hparent := parent?_detach t id id
  rwa [hself, if_pos rfl] at hparent

namespace Mirrored

variable (h : t.Mirrored)

include h

theorem mem_children_detach_iff :
    old ∈ (t.detach new).children parent ↔ old ∈ t.children parent ∧ old ≠ new := by
  rw [h.children_detach, List.mem_filter, decide_eq_true_eq]

theorem replaceChild_eq_detach (hold : old ∉ t.children parent ∨ old = new) :
    t.replaceChild parent old new = t.detach new := by
  apply replaceChild_of_childIndex?_none
  rw [childIndex?_eq_none_iff, h.mem_children_detach_iff]
  rintro ⟨hlists, hne⟩
  exact hold.elim (· hlists) hne

theorem exists_childIndex?_detach (hold : old ∈ t.children parent) (hne : old ≠ new) :
    ∃ index, (t.detach new).childIndex? parent old = some index := by
  rw [← Option.ne_none_iff_exists', ne_eq, childIndex?_eq_none_iff, not_not,
    h.mem_children_detach_iff]
  exact ⟨hold, hne⟩

/-- The new node takes a place, or it is detached and nothing else happens. -/
theorem replaceChild_cases (parent old new : NodeId) :
    (old ∈ t.children parent ∧ old ≠ new ∧
      ∃ index, (t.detach new).childIndex? parent old = some index) ∨
    (old ∉ t.children parent ∨ old = new) ∧ t.replaceChild parent old new = t.detach new := by
  by_cases hold : old ∈ t.children parent ∧ old ≠ new
  · exact Or.inl ⟨hold.1, hold.2, h.exists_childIndex?_detach hold.1 hold.2⟩
  · rw [not_and_or, not_not] at hold
    exact Or.inr ⟨hold, h.replaceChild_eq_detach hold⟩

end Mirrored

namespace IsForest

variable (h : t.IsForest)

include h

theorem detach (id : NodeId) : (t.detach id).IsForest := by
  refine .of_ends (h.toMirrored.detach id) ?_ (ends_detach h.ends id)
  intro x
  rw [h.children_detach]
  exact (h.nodup x).filter _

theorem children_replaceChild {before after : List NodeId}
    (hchildren : t.children parent = before ++ old :: after) (hne : old ≠ new) (x : NodeId) :
    (t.replaceChild parent old new).children x =
      if x = parent then before.filter (· ≠ new) ++ new :: after.filter (· ≠ new)
      else (t.children x).filter (· ≠ new) := by
  obtain ⟨index, hindex⟩ := h.exists_childIndex?_detach (mem_children_of_split hchildren) hne
  obtain ⟨before', after', hsplit, hbefore, hafter, hset⟩ :=
    exists_set_eq ((h.detach new).nodup parent) hindex
  have hfilter : (t.detach new).children parent =
      before.filter (· ≠ new) ++ old :: after.filter (· ≠ new) := by
    rw [h.children_detach, hchildren, List.filter_append,
      List.filter_cons_of_pos (by simpa using hne)]
  rw [hfilter] at hsplit
  obtain ⟨hbefore', -, hafter'⟩ := (List.append_cons_inj_of_notMem hbefore hafter).mp hsplit.symm
  rw [replaceChild_of_childIndex? hindex, children_swap hindex, hset, hbefore', hafter',
    h.children_detach]

theorem nodup_children_replaceChild (x : NodeId) :
    ((t.replaceChild parent old new).children x).Nodup := by
  rcases h.replaceChild_cases parent old new with ⟨hold, hne, -⟩ | ⟨-, heq⟩
  · obtain ⟨before, after, hchildren⟩ := List.append_of_mem hold
    have hnodup := h.nodup parent
    rw [hchildren] at hnodup
    have hfilter := (List.nodup_cons.mp (List.nodup_middle.mp hnodup)).2.filter (· ≠ new)
    rw [h.children_replaceChild hchildren hne]
    split_ifs
    · rw [List.nodup_middle, List.nodup_cons, ← List.filter_append]
      exact ⟨by simp, hfilter⟩
    · exact (h.nodup x).filter _
  · rw [heq]
    exact (h.detach new).nodup x

variable (hnew : t.contains new = true)

include hnew

theorem mirrored_replaceChild : (t.replaceChild parent old new).Mirrored := by
  rcases h.replaceChild_cases parent old new with ⟨-, hne, index, hindex⟩ | ⟨-, heq⟩
  · rw [replaceChild_of_childIndex? hindex]
    apply (h.toMirrored.detach new).swap _ (Ne.symm hne) _ _ hindex
    · rwa [(relinks_detach t new).contains]
    · rw [parent?_detach, if_pos rfl]
    · exact (h.detach new).nodup parent
  · rw [heq]
    exact h.toMirrored.detach new

theorem linked_replaceChild (hlinked : t.Linked) (hroot : new ≠ t.root) :
    (t.replaceChild parent old new).Linked := by
  refine hlinked.relink (relinks_replaceChild t parent old new) ?_ (h.mirrored_replaceChild hnew)
  rcases h.replaceChild_cases parent old new with ⟨-, -, index, hindex⟩ | ⟨-, heq⟩
  · rw [h.parent?_replaceChild hnew hindex, if_neg (Ne.symm hroot), hlinked.parent?_root, ite_self]
  · rw [heq, parent?_detach, hlinked.parent?_root, ite_self]

/-- A node that is put below itself is on a circle. The way from it down to its new parent leads
over neither of the nodes that change places. -/
theorem not_acyclic_replaceChild (hold : old ∈ t.children parent) (hne : old ≠ new)
    (hbelow : t.Below new parent) : ¬ (t.replaceChild parent old new).Acyclic := by
  have hmirrored : (t.replaceChild parent old new).Mirrored := h.mirrored_replaceChild hnew
  obtain ⟨index, hindex⟩ := h.exists_childIndex?_detach hold hne
  have hparent? := h.parent?_replaceChild hnew hindex
  have hway : ∀ x, t.Below new x → t.Below x parent →
      (t.replaceChild parent old new).Below new x := by
    intro x hx
    induction hx with
    | refl => exact fun _ => .refl
    | @tail x y hx hy ih =>
        intro hyparent
        refine (ih (.head hy hyparent)).tail ?_
        rw [hmirrored.mem_children_iff, hparent?, if_neg, if_neg, (h.mem_children_iff x y).mp hy]
        · rintro rfl
          exact h.acyclic y (.tail' hx hy)
        · rintro rfl
          exact h.acyclic y (.tail' hyparent hold)
  intro hacyclic
  apply hacyclic new
  refine .tail' (hway parent hbelow .refl) ?_
  rw [hmirrored.mem_children_iff, hparent?, if_neg (Ne.symm hne), if_pos rfl]

theorem acyclic_replaceChild_iff : (t.replaceChild parent old new).Acyclic ↔
    ¬ (old ∈ t.children parent ∧ old ≠ new ∧ t.Below new parent) := by
  constructor
  · rintro hacyclic ⟨hold, hne, hbelow⟩
    exact h.not_acyclic_replaceChild hnew hold hne hbelow hacyclic
  · intro hapart
    rcases h.replaceChild_cases parent old new with ⟨hold, hne, index, hindex⟩ | ⟨-, heq⟩
    · obtain ⟨path, hpath⟩ := h.ends parent
      have hout : new ∉ parent :: path := by
        rw [← h.below_iff hpath]
        exact fun hbelow => hapart ⟨hold, hne, hbelow⟩
      rw [(h.mirrored_replaceChild hnew).acyclic_iff]
      exact h.ends_replaceChild h.ends hnew (Ne.symm hne) hpath hout hindex
    · rw [heq]
      exact (h.detach new).acyclic

end IsForest

/-- What a replacement does to a forest. Only links change, and they go both ways as before. Where
the old node is another child of the parent, the new one takes its place and is gone from all other
lists, and the old one is left detached. Otherwise nothing takes the new node's place, and the new
node is detached all the same. The result is a forest unless the new node is hung below itself. -/
theorem IsForest.replaceChild_outcome (h : t.IsForest) (parent old : NodeId)
    (hnew : t.contains new = true) :
    Relinks t (t.replaceChild parent old new) ∧ (t.replaceChild parent old new).Mirrored ∧
    (t.Linked → new ≠ t.root → (t.replaceChild parent old new).Linked) ∧
    (∀ x, ((t.replaceChild parent old new).children x).Nodup) ∧
    ((t.replaceChild parent old new).Acyclic ↔
      ¬ (old ∈ t.children parent ∧ old ≠ new ∧ t.Below new parent)) ∧
    (∀ before after, t.children parent = before ++ old :: after → old ≠ new →
      (∀ x, (t.replaceChild parent old new).children x =
        if x = parent then before.filter (· ≠ new) ++ new :: after.filter (· ≠ new)
        else (t.children x).filter (· ≠ new)) ∧
      ∀ x, (t.replaceChild parent old new).parent? x =
        if x = old then none else if x = new then some parent else t.parent? x) ∧
    (old ∉ t.children parent ∨ old = new → t.replaceChild parent old new = t.detach new ∧
      (t.replaceChild parent old new = t ↔ t.parent? new = none)) := by
  refine ⟨relinks_replaceChild t parent old new, h.mirrored_replaceChild hnew,
    h.linked_replaceChild hnew, h.nodup_children_replaceChild, h.acyclic_replaceChild_iff hnew,
    ?_, ?_⟩
  · intro before after hchildren hne
    obtain ⟨index, hindex⟩ := h.exists_childIndex?_detach (mem_children_of_split hchildren) hne
    exact ⟨h.children_replaceChild hchildren hne, h.parent?_replaceChild hnew hindex⟩
  · intro hold
    rw [h.replaceChild_eq_detach hold]
    exact ⟨rfl, detach_eq_self_iff⟩

/-- A page with two texts. -/
def twoTexts : Tree :=
  ofNodes [
    .numbered 0 none [1] .fileSet,
    .numbered 1 (some 0) [2] (.file "page.soy" .source),
    .numbered 2 (some 1) [3, 4] (.template "page" .html),
    .numbered 3 (some 2) [] (.rawText "Hello"),
    .numbered 4 (some 2) [] (.rawText "World")]

theorem isForest_twoTexts : twoTexts.IsForest :=
  Mirrored.isForest (by decide) NodeId.index (by decide)

theorem linked_twoTexts : twoTexts.Linked :=
  linked_iff.mpr (by decide)

/-- The second text takes the place of the first. If the file is put there instead, it is below the
template and above it. -/
theorem replaceChild_outcome_twoTexts : twoTexts.IsForest ∧
    (twoTexts.replaceChild ⟨2⟩ ⟨3⟩ ⟨4⟩).children ⟨2⟩ = [⟨4⟩] ∧
    (twoTexts.replaceChild ⟨2⟩ ⟨3⟩ ⟨4⟩).parent? ⟨3⟩ = none ∧
    (twoTexts.replaceChild ⟨2⟩ ⟨3⟩ ⟨1⟩).Linked ∧
    ¬ (twoTexts.replaceChild ⟨2⟩ ⟨3⟩ ⟨1⟩).Acyclic := by
  have htext : twoTexts.contains ⟨4⟩ = true := rfl
  have hfile : twoTexts.contains ⟨1⟩ = true := rfl
  have hbelow : twoTexts.Below ⟨1⟩ ⟨2⟩ := .single (by decide)
  obtain ⟨-, -, -, -, -, hplaced, -⟩ := isForest_twoTexts.replaceChild_outcome ⟨2⟩ ⟨3⟩ htext
  obtain ⟨hchildren, hparent⟩ := hplaced [] [⟨4⟩] rfl nofun
  obtain ⟨-, -, hlinked, -, hacyclic, -, -⟩ :=
    isForest_twoTexts.replaceChild_outcome ⟨2⟩ ⟨3⟩ hfile
  exact ⟨isForest_twoTexts, hchildren ⟨2⟩, hparent ⟨3⟩, hlinked linked_twoTexts nofun,
    fun h => hacyclic.mp h ⟨by decide, nofun, hbelow⟩⟩

/-- A text that is to take its own place loses it, a text that is to replace what is no child of the
file loses its place for nothing, and a file that takes the place of what is below it closes a
circle. -/
theorem twoTexts_misplaced : twoTexts.IsForest ∧
    (⟨3⟩ ∈ twoTexts.children ⟨2⟩ ∧ (twoTexts.replaceChild ⟨2⟩ ⟨3⟩ ⟨3⟩).children ⟨2⟩ = [⟨4⟩] ∧
      twoTexts.replaceChild ⟨2⟩ ⟨3⟩ ⟨3⟩ ≠ twoTexts) ∧
    (⟨4⟩ ∉ twoTexts.children ⟨1⟩ ∧ (twoTexts.replaceChild ⟨1⟩ ⟨4⟩ ⟨3⟩).children ⟨2⟩ = [⟨4⟩] ∧
      twoTexts.replaceChild ⟨1⟩ ⟨4⟩ ⟨3⟩ ≠ twoTexts) ∧
    (twoTexts.Below ⟨1⟩ ⟨2⟩ ∧ twoTexts.replaceChild ⟨2⟩ ⟨3⟩ ⟨1⟩ ≠ twoTexts ∧
      ¬ (twoTexts.replaceChild ⟨2⟩ ⟨3⟩ ⟨1⟩).Acyclic) := by
  have hmoved : ∀ parent old new, (twoTexts.replaceChild parent old new).children ⟨2⟩ = [⟨4⟩] →
      twoTexts.replaceChild parent old new ≠ twoTexts := by
    intro parent old new hchildren heq
    rw [heq] at hchildren
    cases hchildren
  have hfile : twoTexts.contains ⟨1⟩ = true := rfl
  have htext : ⟨3⟩ ∈ twoTexts.children ⟨2⟩ := by decide
  have hbelow : twoTexts.Below ⟨1⟩ ⟨2⟩ := .single (by decide)
  have hcircle := isForest_twoTexts.not_acyclic_replaceChild hfile htext nofun hbelow
  refine ⟨isForest_twoTexts, ⟨htext, rfl, hmoved _ _ _ rfl⟩, ⟨by decide, rfl, hmoved _ _ _ rfl⟩,
    hbelow, ?_, hcircle⟩
  intro heq
  rw [heq] at hcircle
  exact hcircle isForest_twoTexts.acyclic

end TemplateLogging.Tree
