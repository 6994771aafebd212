import TemplateLogging.Proofs.Places
import TemplateLogging.Proofs.Reading
import TemplateLogging.Proofs.Ready

namespace TemplateLogging

theorem NodeKind.ne_logBlock_of_isOpenTag {k : NodeKind} (h : k.isOpenTag = true)
    (block : LogBlock) : k ≠ .logBlock block := by
  rintro rfl
  cases h

theorem NodeKind.ne_logBlock_of_isPlain {k : NodeKind} (h : k.isPlain = true)
    (block : LogBlock) : k ≠ .logBlock block := by
  rintro rfl
  cases h

namespace Rose

mutual

/-- The branches that a walk comes to, a branch before those in it. -/
def walked : Branch → List Branch
  | node a cs =>
      let all := walkedAll cs
      node a cs ::
        match a.kind with
        | .file _ .dependency => []
        | .htmlAttribute =>
            match cs, valueCalls cs with
            | name :: _ :: rest, _ :: _ =>
                (if name.isLiteral then name.walked else []) ++ walkedAll rest
            | _, _ => all
        | _ => all

def walkedAll : List Branch → List Branch
  | [] => []
  | b :: bs => b.walked ++ walkedAll bs

end

variable {a : Item} {cs : List Branch}

theorem walked_dependency {path : String} (h : a.kind = .file path .dependency) :
    (node a cs).walked = [node a cs] := by
  rw [walked.eq_def]
  simp only [h]

theorem walked_attribute (h : a.kind = .htmlAttribute) (hcalls : valueCalls cs = []) :
    (node a cs).walked = node a cs :: walkedAll cs := by
  rw [walked.eq_def]
  simp only [h]
  simp only [hcalls]

theorem walked_move {name value : Branch} {rest : List Branch} {call : LoggingCall}
    {calls : List LoggingCall} (h : a.kind = .htmlAttribute)
    (hcalls : value.loggingCalls = call :: calls) :
    (node a (name :: value :: rest)).walked = node a (name :: value :: rest) ::
      ((if name.isLiteral then name.walked else []) ++ walkedAll rest) := by
  rw [walked.eq_def]
  simp only [h]
  simp only [valueCalls, hcalls]

theorem walked_through (hdep : a.kind.isDependencyFile = false) (h : a.kind ≠ .htmlAttribute) :
    (node a cs).walked = node a cs :: walkedAll cs := by
  rw [walked.eq_def]
  cases hkind : a.kind with
  | file path kind =>
      cases kind with
      | dependency =>
          rw [hkind] at hdep
          cases hdep
      | source => simp only [hkind]
  | htmlAttribute => exact absurd hkind h
  | _ => simp only [hkind]

theorem walked_source {path : String} (h : a.kind = .file path .source) :
    (node a cs).walked = node a cs :: walkedAll cs := by
  apply walked_through
  all_goals simp [h, NodeKind.isDependencyFile]

theorem walked_template {name : String} {contentKind : ContentKind}
    (h : a.kind = .template name contentKind) :
    (node a cs).walked = node a cs :: walkedAll cs := by
  apply walked_through
  all_goals simp [h, NodeKind.isDependencyFile]

theorem walked_openTag (h : a.kind.isOpenTag = true) :
    (node a cs).walked = node a cs :: walkedAll cs := by
  cases hkind : a.kind with
  | openTag name selfClosing =>
      apply walked_through
      all_goals simp [hkind, NodeKind.isDependencyFile]
  | _ =>
      rw [hkind] at h
      cases h

theorem walked_plain (h : a.kind.isPlain = true) :
    (node a cs).walked = node a cs :: walkedAll cs := by
  cases hkind : a.kind with
  | file _ _ | template _ _ | openTag _ _ | htmlAttribute | logBlock _ =>
      rw [hkind] at h
      cases h
  | _ =>
      apply walked_through
      all_goals simp [hkind, NodeKind.isDependencyFile]

theorem walked_block {block : LogBlock} (h : a.kind = .logBlock block) :
    (node a cs).walked = node a cs :: walkedAll cs := by
  apply walked_through
  all_goals simp [h, NodeKind.isDependencyFile]

theorem mem_walked {x : Branch} (h : x ∈ (node a cs).walked) : x = node a cs ∨ x ∈ walkedAll cs ∨
    ∃ name value rest, cs = name :: value :: rest ∧ (x ∈ name.walked ∨ x ∈ walkedAll rest) := by
  rw [walked.eq_def, List.mem_cons] at h
  rcases h with rfl | h
  · exact Or.inl rfl
  · right
    split at h
    · cases h
    · split at h
      · rename_i name value rest _ _ _
        rw [List.mem_append] at h
        refine Or.inr ⟨name, value, rest, rfl, h.imp_left fun h => ?_⟩
        split at h
        · exact h
        · cases h
      · exact Or.inl h
    · exact Or.inl h

mutual

theorem occurs_of_mem_walked {x : Branch} : ∀ {b : Branch}, x ∈ b.walked →
    ∃ path, Occurs x path [b]
  | node a cs, h => by
      rcases mem_walked h with rfl | h | ⟨name, value, rest, rfl, h | h⟩
      · exact ⟨[], .here (List.mem_singleton_self _)⟩
      · obtain ⟨path, hx⟩ := occurs_of_mem_walkedAll h
        exact ⟨_, hx.under a⟩
      · obtain ⟨path, hx⟩ := occurs_of_mem_walked h
        exact ⟨_, (hx.mono (List.cons_subset_cons name (List.nil_subset _))).under a⟩
      · obtain ⟨path, hx⟩ := occurs_of_mem_walkedAll h
        refine ⟨_, (hx.mono ?_).under a⟩
        exact List.subset_cons_of_subset name (List.subset_cons_self value rest)

theorem occurs_of_mem_walkedAll {x : Branch} : ∀ {bs : List Branch}, x ∈ walkedAll bs →
    ∃ path, Occurs x path bs
  | [], h => by
      cases h
  | b :: bs, h => by
      rw [walkedAll, List.mem_append] at h
      rcases h with h | h
      · obtain ⟨path, hx⟩ := occurs_of_mem_walked h
        exact ⟨path, hx.mono (List.cons_subset_cons b (List.nil_subset bs))⟩
      · obtain ⟨path, hx⟩ := occurs_of_mem_walkedAll h
        exact ⟨path, hx.mono (List.subset_cons_self b bs)⟩

end

end Rose

namespace Tree

/-- The nodes that a walk through a whole tree comes to. -/
def visits (t : Tree) : List NodeId :=
  (Rose.walkedAll (t.read t.size t.root)).map Rose.id

variable {t : Tree} {root : NodeId} {next : Nat} {others : Multiset Node} {a : Item}
  {cs : List Branch}

theorem Holds.exists_walked (h : t.Holds root next ((Rose.node a cs).nodes none + others))
    (hroot : a.id = root) {v : NodeId} (hv : v ∈ t.visits) :
    ∃ x ∈ (Rose.node a cs).walked, x.id = v ∧ ∃ parent, t.Shows parent x := by
  rw [visits, h.read_eq hroot, Rose.walkedAll, Rose.walkedAll, List.append_nil] at hv
  obtain ⟨x, hx, rfl⟩ := List.mem_map.mp hv
  obtain ⟨path, hocc⟩ := Rose.occurs_of_mem_walked hx
  have hshows : t.ShowsAll none [.node a cs] := showsAll_cons_iff.mpr ⟨h.shows, showsAll_nil⟩
  exact ⟨x, hx, rfl, _, hshows.of_occurs hocc⟩

end Tree

end TemplateLogging
