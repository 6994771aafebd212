import TemplateLogging.Proofs.Supply

/-!
Walks that note the nodes they are passed. What a visitor does at a node often falls into a part
before the children and a part after them; such a visitor can be given a list beside its state, to
which every node is added when the walk is passed its id. Without the list it makes the same walk.
-/

namespace TemplateLogging

variable {α β σ : Type}

/-- What is done at a node before its children, and after them. The first part also says whether to
go on to the children; where it does not, nothing more is done. -/
structure Station (σ : Type) where
  before : NodeId → Walk σ Bool := fun _ => pure true
  after : NodeId → Walk σ Unit := fun _ => pure ()

def Station.visit (h : Station σ) (children : NodeId → Walk σ Unit) (id : NodeId) :
    Walk σ Unit := do
  if ← h.before id then
    children id
    h.after id

/-- A visitor by what it does before and after the children of a node. -/
structure Stations (σ : Type) where
  file : Station σ := {}
  template : Station σ := {}
  openTag : Station σ := {}
  htmlAttribute : Station σ := {}
  logBlock : Station σ := {}
  other : Station σ := {}

namespace Stations

def station (v : Stations σ) : NodeKind → Station σ
  | .file _ _ => v.file
  | .template _ _ => v.template
  | .openTag _ _ => v.openTag
  | .htmlAttribute => v.htmlAttribute
  | .logBlock _ => v.logBlock
  | _ => v.other

def visitor (v : Stations σ) : Visitor σ where
  file := v.file.visit
  template := v.template.visit
  openTag := v.openTag.visit
  htmlAttribute := v.htmlAttribute.visit
  logBlock := v.logBlock.visit
  other := v.other.visit

end Stations

/-- A part of a walk, with a list beside the state that it neither reads nor changes. -/
def Walk.beside (part : Walk σ α) : Walk (σ × List NodeId) α :=
  ExceptT.mk fun ((s, seen), t) => do
    let (r, s, t) ← part.run.run (s, t)
    return (r, (s, seen), t)

/-- Adds a node to the list. -/
def Walk.note (id : NodeId) : Walk (σ × List NodeId) Unit :=
  modify fun ((s, seen), t) => ((s, seen ++ [id]), t)

def Station.beside (h : Station σ) : Station (σ × List NodeId) where
  before id := (h.before id).beside
  after id := (h.after id).beside

namespace Stations

/-- The same visitor, which notes every node that it is passed. -/
def noting (v : Stations σ) : Visitor (σ × List NodeId) where
  node walk id := do
    Walk.note id
    walk id
  file := v.file.beside.visit
  template := v.template.beside.visit
  openTag := v.openTag.beside.visit
  htmlAttribute := v.htmlAttribute.beside.visit
  logBlock := v.logBlock.beside.visit
  other := v.other.beside.visit

theorem hook_visitor (v : Stations σ) (k : NodeKind) : v.visitor.hook k = (v.station k).visit := by
  cases k <;> rfl

theorem hook_noting (v : Stations σ) (k : NodeKind) :
    v.noting.hook k = (v.station k).beside.visit := by
  cases k <;> rfl

end Stations

namespace Walk

/-- The end of a walk without the list. -/
def forget (r : Except CompilerFault α × (σ × List NodeId) × Tree) :
    Except CompilerFault α × σ × Tree :=
  (r.1, r.2.1.1, r.2.2)

/-- From every state and with every list, the one part of a walk does what the other one does. -/
def Retraces (noted : Walk (σ × List NodeId) α) (part : Walk σ α) : Prop :=
  ∀ s seen t, (noted.run.run ((s, seen), t)).map forget = part.run.run (s, t)

theorem run_bind {part : Walk σ α} {next : α → Walk σ β} (st : σ × Tree) :
    (part >>= next).run.run st =
      part.run.run st >>= fun r => (ExceptT.bindCont next r.1).run r.2 :=
  rfl

namespace Retraces

variable {noted : Walk (σ × List NodeId) α} {part : Walk σ α}
  {next : α → Walk (σ × List NodeId) β} {next' : α → Walk σ β}

theorem pure (a : α) : Retraces (pure a) (pure a : Walk σ α) := by
  intro s seen t
  rfl

theorem beside (part : Walk σ α) : Retraces part.beside part := by
  intro s seen t
  show (part.run.run (s, t) >>= fun r => (.ok (r.1, (r.2.1, seen), r.2.2) : Except Fault _)).map
    forget = part.run.run (s, t)
  cases part.run.run (s, t) with
  | error fault => rfl
  | ok r => rfl

theorem bind (h : Retraces noted part) (h' : ∀ a, Retraces (next a) (next' a)) :
    Retraces (noted >>= next) (part >>= next') := by
  intro s seen t
  rw [run_bind, run_bind, ← h s seen t]
  cases noted.run.run ((s, seen), t) with
  | error fault => rfl
  | ok r =>
      obtain ⟨r, ⟨s', seen'⟩, t'⟩ := r
      cases r with
      | error fault => rfl
      | ok a => exact h' a s' seen' t'

theorem bind_tree {next : Tree → Walk (σ × List NodeId) β} {next' : Tree → Walk σ β}
    (h : ∀ t, Retraces (next t) (next' t)) : Retraces (Walk.tree >>= next) (Walk.tree >>= next') :=
  fun s seen t => h t s seen t

theorem note {id : NodeId} {next : Walk (σ × List NodeId) β} {next' : Walk σ β}
    (h : Retraces next next') : Retraces (do Walk.note id; next) next' :=
  fun s seen t => h s (seen ++ [id]) t

theorem visit {children : NodeId → Walk (σ × List NodeId) Unit} {children' : NodeId → Walk σ Unit}
    (h : Station σ) (id : NodeId) (hchildren : Retraces (children id) (children' id)) :
    Retraces (h.beside.visit children id) (h.visit children' id) := by
  refine bind (beside _) ?_
  intro go
  cases go with
  | true => exact bind hchildren fun _ => beside _
  | false => exact pure ()

theorem visitEach {v : Stations σ} {walk : NodeId → Walk (σ × List NodeId) Unit}
    {walk' : NodeId → Walk σ Unit} (h : ∀ id, Retraces (walk id) (walk' id)) (ids : List NodeId) :
    Retraces (v.noting.visitEach walk ids) (v.visitor.visitEach walk' ids) := by
  induction ids with
  | nil => exact pure ()
  | cons id ids ih =>
      rw [Visitor.visitEach, Visitor.visitEach]
      refine bind_tree fun t => ?_
      cases t.contains id with
      | true => exact bind (note (h id)) fun _ => ih
      | false => exact ih

theorem walk (v : Stations σ) (levels : Nat) (id : NodeId) :
    Retraces (v.noting.walk levels id) (v.visitor.walk levels id) := by
  induction levels generalizing id with
  | zero =>
      intro s seen t
      rfl
  | succ levels ih =>
      rw [Visitor.walk, Visitor.walk]
      refine bind_tree fun t => ?_
      cases t.get? id with
      | none => exact pure ()
      | some node =>
          show Retraces (v.noting.hook node.kind _ id) (v.visitor.hook node.kind _ id)
          rw [Stations.hook_noting, Stations.hook_visitor]
          exact visit _ _ (bind_tree fun t => visitEach ih _)

theorem walkRoot (v : Stations σ) (levels : Nat) :
    Retraces (v.noting.walkRoot levels) (v.visitor.walkRoot levels) :=
  bind_tree fun _ => visit _ _ (bind_tree fun _ => visitEach (walk v levels) _)

theorem eq_ok (h : Retraces noted part) {s s' : σ} {seen seen' : List NodeId} {t t' : Tree}
    {r : Except CompilerFault α}
    (hrun : noted.run.run ((s, seen), t) = .ok (r, (s', seen'), t')) :
    part.run.run (s, t) = .ok (r, s', t') := by
  rw [← h s seen t, hrun]
  rfl

theorem exists_of_eq_ok (h : Retraces noted part) {s s' : σ} {t t' : Tree}
    {r : Except CompilerFault α} (hrun : part.run.run (s, t) = .ok (r, s', t'))
    (seen : List NodeId) :
    ∃ seen', noted.run.run ((s, seen), t) = .ok (r, (s', seen'), t') := by
  have hnoted := h s seen t
  rw [hrun] at hnoted
  cases hrun' : noted.run.run ((s, seen), t) with
  | error fault =>
      rw [hrun'] at hnoted
      cases hnoted
  | ok q =>
      rw [hrun'] at hnoted
      obtain ⟨q, ⟨q', seen'⟩, u⟩ := q
      cases hnoted
      exact ⟨seen', rfl⟩

end Retraces

theorem exists_of_bind_eq_ok {part : Walk σ α} {next : α → Walk σ β} {st st' : σ × Tree} {b : β}
    (h : (part >>= next).run.run st = .ok (.ok b, st')) :
    ∃ a st₁, part.run.run st = .ok (.ok a, st₁) ∧ (next a).run.run st₁ = .ok (.ok b, st') := by
  rw [run_bind] at h
  obtain ⟨⟨r, st₁⟩, hpart, hnext⟩ := Except.exists_of_bind_eq_ok h
  cases r with
  | error fault => cases hnext
  | ok a => exact ⟨a, st₁, hpart, hnext⟩

theorem eq_of_beside_eq_ok {part : Walk σ α} {s s' : σ} {seen seen' : List NodeId} {t t' : Tree}
    {r : Except CompilerFault α}
    (h : part.beside.run.run ((s, seen), t) = .ok (r, (s', seen'), t')) :
    part.run.run (s, t) = .ok (r, s', t') ∧ seen' = seen := by
  obtain ⟨⟨r, s, t⟩, hpart, hend⟩ := Except.exists_of_bind_eq_ok h
  cases hend
  exact ⟨hpart, rfl⟩

end Walk

/-- Only the walk below a node adds to the list. -/
theorem Station.exists_below_run {h : Station σ} {children : NodeId → Walk (σ × List NodeId) Unit}
    {id : NodeId} {s s' : σ} {seen seen' : List NodeId} {t t' : Tree}
    (hrun : (h.beside.visit children id).run.run ((s, seen), t) =
      .ok (.ok (), (s', seen'), t')) :
    ∃ go s₁ t₁, (h.before id).run.run (s, t) = .ok (.ok go, s₁, t₁) ∧
      ((go = false ∧ seen' = seen) ∨ go = true ∧ ∃ s₂ t₂,
        (children id).run.run ((s₁, seen), t₁) = .ok (.ok (), (s₂, seen'), t₂)) := by
  obtain ⟨go, ⟨⟨s₁, seen₁⟩, t₁⟩, hbefore, hrest⟩ := Walk.exists_of_bind_eq_ok hrun
  obtain ⟨hgo, rfl⟩ := Walk.eq_of_beside_eq_ok hbefore
  refine ⟨go, s₁, t₁, hgo, ?_⟩
  cases go with
  | false =>
      cases hrest
      exact Or.inl ⟨rfl, rfl⟩
  | true =>
      obtain ⟨_, ⟨⟨s₂, seen₂⟩, t₂⟩, hchildren, hafter⟩ := Walk.exists_of_bind_eq_ok hrest
      obtain ⟨-, rfl⟩ := Walk.eq_of_beside_eq_ok hafter
      exact Or.inr ⟨rfl, s₂, t₂, hchildren⟩

namespace Stations

variable {v : Stations σ} {levels : Nat} {id : NodeId} {node : Node} {s s' : σ}
  {seen seen' : List NodeId} {t t' : Tree}

theorem visitChildren_run (hrun : (v.noting.visitChildren (v.noting.walk levels) id).run.run
      ((s, seen), t) = .ok (.ok (), (s', seen'), t')) :
    (v.noting.visitEach (v.noting.walk levels) (t.children id)).run.run ((s, seen), t) =
      .ok (.ok (), (s', seen'), t') := by
  obtain ⟨u, _, htree, hchildren⟩ := Walk.exists_of_bind_eq_ok hrun
  cases htree
  exact hchildren

theorem exists_below_run (hget : t.get? id = some node)
    (hrun : (v.noting.visitEach (v.noting.walk (levels + 1)) [id]).run.run ((s, seen), t) =
      .ok (.ok (), (s', seen'), t')) :
    ∃ go s₁ t₁, ((v.station node.kind).before id).run.run (s, t) = .ok (.ok go, s₁, t₁) ∧
      ((go = false ∧ seen' = seen ++ [id]) ∨ go = true ∧ ∃ s₂ t₂,
        (v.noting.visitEach (v.noting.walk levels) (t₁.children id)).run.run
          ((s₁, seen ++ [id]), t₁) = .ok (.ok (), (s₂, seen'), t₂)) := by
  have hcontains : t.contains id = true := by
    rw [Tree.contains, hget]
    rfl
  rw [Visitor.visitEach] at hrun
  obtain ⟨u, _, htree, hrun⟩ := Walk.exists_of_bind_eq_ok hrun
  cases htree
  rw [if_pos hcontains] at hrun
  obtain ⟨_, _, hnode, hend⟩ := Walk.exists_of_bind_eq_ok hrun
  cases hend
  change (v.noting.walk (levels + 1) id).run.run ((s, seen ++ [id]), t) = _ at hnode
  rw [Visitor.walk] at hnode
  obtain ⟨u, _, htree, hnode⟩ := Walk.exists_of_bind_eq_ok hnode
  cases htree
  rw [hget] at hnode
  change (v.noting.hook node.kind _ id).run.run _ = _ at hnode
  rw [hook_noting] at hnode
  obtain ⟨go, s₁, t₁, hgo, hbelow⟩ := Station.exists_below_run hnode
  refine ⟨go, s₁, t₁, hgo, hbelow.imp_right ?_⟩
  rintro ⟨rfl, s₂, t₂, hchildren⟩
  exact ⟨rfl, s₂, t₂, visitChildren_run hchildren⟩

theorem exists_root_run
    (hrun : (v.noting.walkRoot levels).run.run ((s, seen), t) = .ok (.ok (), (s', seen'), t')) :
    ∃ go s₁ t₁, (v.other.before t.root).run.run (s, t) = .ok (.ok go, s₁, t₁) ∧
      ((go = false ∧ seen' = seen) ∨ go = true ∧ ∃ s₂ t₂,
        (v.noting.visitEach (v.noting.walk levels) (t₁.children t.root)).run.run
          ((s₁, seen), t₁) = .ok (.ok (), (s₂, seen'), t₂)) := by
  obtain ⟨u, _, htree, hroot⟩ := Walk.exists_of_bind_eq_ok hrun
  cases htree
  obtain ⟨go, s₁, t₁, hgo, hbelow⟩ := Station.exists_below_run hroot
  refine ⟨go, s₁, t₁, hgo, hbelow.imp_right ?_⟩
  rintro ⟨rfl, s₂, t₂, hchildren⟩
  exact ⟨rfl, s₂, t₂, visitChildren_run hchildren⟩

end Stations

end TemplateLogging
