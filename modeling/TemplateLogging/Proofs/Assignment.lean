import TemplateLogging.Logging.Assign
import TemplateLogging.Proofs.Locality
import TemplateLogging.Proofs.Preflight

namespace TemplateLogging

/-- The node with the id, if it is a logging block. -/
def Node.withLoggingId (loggingId : Int64) (node : Node) : Node :=
  match node.kind with
  | .logBlock block => { node with kind := .logBlock { block with loggingId := some loggingId } }
  | _ => node

theorem Node.children_withLoggingId (loggingId : Int64) (node : Node) :
    (node.withLoggingId loggingId).children = node.children := by
  rw [withLoggingId]
  split <;> rfl

theorem Node.isDependencyFile_withLoggingId (loggingId : Int64) (node : Node) (path : String) :
    (node.withLoggingId loggingId).kind = .file path .dependency ↔
      node.kind = .file path .dependency := by
  rw [withLoggingId]
  split
  · rename_i hkind
    simp [hkind]
  · rfl

namespace Tree

open Rose

variable {s t : Tree} {c : ValidLoggingConfig} {parent : Option NodeId} {b : Branch}
  {bs : List Branch} {ids : List NodeId} {assignments : List (NodeId × Int64)}

theorem nodeAssignments_eq (h : ∀ id ∈ ids, s.get? id = t.get? id) :
    s.nodeAssignments c ids = t.nodeAssignments c ids := by
  induction ids with
  | nil => rfl
  | cons id ids ih =>
      rw [List.forall_mem_cons] at h
      rw [nodeAssignments, nodeAssignments, h.1, ih h.2]

theorem mem_of_nodeAssignments (h : t.nodeAssignments c ids = .ok assignments) :
    ∀ p ∈ assignments, p.1 ∈ ids := by
  induction ids generalizing assignments with
  | nil =>
      cases h
      exact fun p hp => absurd hp List.not_mem_nil
  | cons id ids ih =>
      rw [nodeAssignments] at h
      split at h
      · rename_i _ location _ _ block _
        cases hid : configuredId c location block with
        | error e =>
            rw [hid] at h
            cases h
        | ok loggingId =>
            rw [hid] at h
            cases hrest : t.nodeAssignments c ids with
            | error e =>
                rw [hrest] at h
                cases h
            | ok rest =>
                rw [hrest] at h
                cases h
                rw [List.forall_mem_cons]
                exact ⟨List.mem_cons_self, fun p hp => List.mem_cons_of_mem _ (ih hrest p hp)⟩
      · exact fun p hp => List.mem_cons_of_mem _ (ih h p hp)

theorem Shows.fileAssignments_cons (h : t.Shows parent b) (files : List NodeId) :
    (t.fileAssignments c (b.id :: files)).run =
      if b.kind.isDependencyFile then (t.fileAssignments c files).run
      else
        match t.nodeAssignments c (t.descendants b.id) with
        | .error error => .ok (.error error)
        | .ok first => (t.fileAssignments c files).run.map fun r => r.map (first ++ ·) := by
  rw [fileAssignments, h.kind_eq]
  show (if b.kind.isDependencyFile = true then _ else _ : ExceptT _ _ _).run = _
  split
  · rfl
  · cases t.nodeAssignments c (t.descendants b.id) with
    | error error => rfl
    | ok first =>
        show ((t.fileAssignments c files).run >>= _) = _
        cases (t.fileAssignments c files).run with
        | error fault => rfl
        | ok rest => cases rest <;> rfl

theorem ShowsAll.exists_assignments (h : t.ShowsAll parent bs) (hsize : heightAll bs ≤ t.size) :
    ∃ r, (t.fileAssignments c (bs.map Rose.id)).run = .ok r ∧ ∀ assignments, r = .ok assignments →
      ∀ p ∈ assignments, ∃ b ∈ bs, b.kind.isDependencyFile = false ∧ p.1 ∈ b.ids := by
  induction bs with
  | nil =>
      refine ⟨.ok [], rfl, ?_⟩
      rintro _ ⟨⟩ p hp
      exact absurd hp List.not_mem_nil
  | cons b bs ih =>
      obtain ⟨hb, hbs⟩ := showsAll_cons_iff.mp h
      rw [heightAll] at hsize
      obtain ⟨r, hr, hsources⟩ := ih hbs (by omega)
      have hrest : ∀ assignments, r = .ok assignments → ∀ p ∈ assignments, ∃ c ∈ b :: bs,
          c.kind.isDependencyFile = false ∧ p.1 ∈ c.ids := by
        intro assignments hok p hp
        obtain ⟨c, hc, hfile⟩ := hsources assignments hok p hp
        exact ⟨c, List.mem_cons_of_mem _ hc, hfile⟩
      rw [List.map_cons, hb.fileAssignments_cons, hb.descendants_eq (by omega)]
      cases hdep : b.kind.isDependencyFile with
      | true => exact ⟨r, hr, hrest⟩
      | false =>
          rw [if_neg Bool.false_ne_true]
          cases hfirst : t.nodeAssignments c b.ids with
          | error error => exact ⟨.error error, rfl, nofun⟩
          | ok first =>
              refine ⟨r.map (first ++ ·), ?_, ?_⟩
              · simp only [hr]
                rfl
              · intro assignments hok p hp
                cases r with
                | error error => cases hok
                | ok rest =>
                    cases hok
                    rcases List.mem_append.mp hp with hp | hp
                    · exact ⟨b, List.mem_cons_self, hdep, mem_of_nodeAssignments hfirst p hp⟩
                    · exact hrest rest rfl p hp

theorem assignLoggingIds_eq {r : Except LoggingError (List (NodeId × Int64))}
    (h : (t.fileAssignments c (t.children t.root)).run = .ok r) :
    t.assignLoggingIds c = .ok (r.map fun assignments =>
      (assignments.length, assignments.foldl (fun t p => t.setLoggingId p.1 p.2) t)) := by
  rw [assignLoggingIds, h]
  cases r <;> rfl

theorem get?_setLoggingId (t : Tree) (id : NodeId) (loggingId : Int64) (x : NodeId) :
    (t.setLoggingId id loggingId).get? x =
      if id = x then (t.get? x).map (Node.withLoggingId loggingId) else t.get? x :=
  get?_modify t id x _

theorem children_setLoggingId (t : Tree) (id : NodeId) (loggingId : Int64) (x : NodeId) :
    (t.setLoggingId id loggingId).children x = t.children x := by
  rw [children, get?_setLoggingId, children]
  split_ifs
  · cases t.get? x with
    | none => rfl
    | some node => exact node.children_withLoggingId loggingId
  · rfl

theorem kind_setLoggingId_iff (t : Tree) (id : NodeId) (loggingId : Int64) (x : NodeId)
    (path : String) : (t.setLoggingId id loggingId).kind x = .ok (.file path .dependency) ↔
      t.kind x = .ok (.file path .dependency) := by
  rw [kind, node, get?_setLoggingId, kind, node]
  split_ifs
  · cases t.get? x with
    | none => rfl
    | some node =>
        show Except.ok (node.withLoggingId loggingId).kind = _ ↔ Except.ok node.kind = _
        rw [Except.ok.injEq, Except.ok.injEq, node.isDependencyFile_withLoggingId]
  · rfl

theorem get?_foldl_setLoggingId {x : NodeId} (h : ∀ p ∈ assignments, p.1 ≠ x) :
    (assignments.foldl (fun t p => t.setLoggingId p.1 p.2) t).get? x = t.get? x := by
  induction assignments generalizing t with
  | nil => rfl
  | cons p assignments ih =>
      rw [List.forall_mem_cons] at h
      rw [List.foldl_cons, ih h.2, get?_setLoggingId, if_neg h.1]

theorem inSource_setLoggingId_iff (t : Tree) (id : NodeId) (loggingId : Int64) (x : NodeId) :
    (t.setLoggingId id loggingId).InSource x ↔ t.InSource x := by
  have hroot : (t.setLoggingId id loggingId).root = t.root := rfl
  rw [InSource, InSource, hroot]
  simp only [Below, ne_eq, children_setLoggingId, kind_setLoggingId_iff]

end Tree

end TemplateLogging
