import TemplateLogging.Visitor

namespace TemplateLogging

variable {α β σ : Type} {keep : Tree → Prop} {s : σ} {t : Tree}

/-- A part of a walk that returns leaves a tree with the property. -/
def Walk.Leaves (keep : Tree → Prop) (part : Walk σ α) (s : σ) (t : Tree) : Prop :=
  ∀ r s' t', part.run.run (s, t) = .ok (r, s', t') → keep t'

namespace Walk.Leaves

variable {part : Walk σ α} {next : α → Walk σ β}

theorem pure (h : keep t) (a : α) : Walk.Leaves keep (pure a) s t := by
  intro r s' t' hrun
  cases hrun
  exact h

theorem bind (h : Walk.Leaves keep part s t)
    (h' : ∀ a s t, keep t → Walk.Leaves keep (next a) s t) :
    Walk.Leaves keep (part >>= next) s t := by
  intro r s' t' hrun
  change (part.run.run (s, t) >>= fun r => (ExceptT.bindCont next r.1).run r.2) = _ at hrun
  cases hpart : part.run.run (s, t) with
  | error fault =>
      rw [hpart] at hrun
      cases hrun
  | ok result =>
      obtain ⟨r₁, s₁, t₁⟩ := result
      rw [hpart] at hrun
      have hkeep := h r₁ s₁ t₁ hpart
      cases r₁ with
      | error e =>
          cases hrun
          exact hkeep
      | ok a => exact h' a s₁ t₁ hkeep r s' t' hrun

theorem bind_tree {next : Tree → Walk σ β} (h : Walk.Leaves keep (next t) s t) :
    Walk.Leaves keep (Walk.tree >>= next) s t :=
  h

theorem bind_state {next : σ → Walk σ β} (h : Walk.Leaves keep (next s) s t) :
    Walk.Leaves keep (Walk.state >>= next) s t :=
  h

theorem bind_setTree {u : Tree} {next : Unit → Walk σ β} (h : Walk.Leaves keep (next ()) s u) :
    Walk.Leaves keep (Walk.setTree u >>= next) s t :=
  h

theorem bind_setState {s' : σ} {next : Unit → Walk σ β} (h : Walk.Leaves keep (next ()) s' t) :
    Walk.Leaves keep (Walk.setState s' >>= next) s t :=
  h

theorem setTree {u : Tree} (h : keep u) : Walk.Leaves keep (Walk.setTree u) s t := by
  intro r s' t' hrun
  cases hrun
  exact h

theorem setState {s' : σ} (h : keep t) : Walk.Leaves keep (Walk.setState s') s t := by
  intro r s'' t' hrun
  cases hrun
  exact h

theorem bind_attempt {step : Except Fault α}
    (h : ∀ a, step = .ok a → Walk.Leaves keep (next a) s t) :
    Walk.Leaves keep (Walk.attempt step >>= next) s t := by
  cases step with
  | error fault =>
      intro r s' t' hrun
      cases hrun
  | ok a => exact h a rfl

end Walk.Leaves

/-- What a visitor does at a node keeps a property if the walk below does. -/
structure Visitor.Keeps (v : Visitor σ) (keep : Tree → Prop) : Prop where
  node : ∀ walk : NodeId → Walk σ Unit, (∀ id s t, keep t → Walk.Leaves keep (walk id) s t) →
    ∀ id s t, keep t → Walk.Leaves keep (v.node walk id) s t
  hook : ∀ children : NodeId → Walk σ Unit,
    (∀ id s t, keep t → Walk.Leaves keep (children id) s t) →
      ∀ id s t node, t.get? id = some node → keep t →
        Walk.Leaves keep (v.hook node.kind children id) s t

namespace Visitor.Keeps

variable {v : Visitor σ}

theorem visitEach {walk : NodeId → Walk σ Unit} (h : v.Keeps keep)
    (hwalk : ∀ id s t, keep t → Walk.Leaves keep (walk id) s t)
    (ids : List NodeId) (s : σ) (t : Tree) (ht : keep t) :
    Walk.Leaves keep (v.visitEach walk ids) s t := by
  induction ids generalizing s t with
  | nil => exact .pure ht ()
  | cons id ids ih =>
      rw [Visitor.visitEach]
      apply Walk.Leaves.bind_tree
      cases t.contains id with
      | false => exact ih s t ht
      | true =>
          refine Walk.Leaves.bind (h.node walk hwalk id s t ht) ?_
          intro _ s t ht
          exact ih s t ht

theorem visitChildren {walk : NodeId → Walk σ Unit} (h : v.Keeps keep)
    (hwalk : ∀ id s t, keep t → Walk.Leaves keep (walk id) s t)
    (id : NodeId) (s : σ) (t : Tree) (ht : keep t) :
    Walk.Leaves keep (v.visitChildren walk id) s t :=
  .bind_tree (h.visitEach hwalk _ s t ht)

theorem walk (h : v.Keeps keep) (levels : Nat) (id : NodeId) (s : σ) (t : Tree) (ht : keep t) :
    Walk.Leaves keep (v.walk levels id) s t := by
  induction levels generalizing id s t with
  | zero =>
      intro r s' t' hrun
      cases hrun
  | succ levels ih =>
      rw [Visitor.walk]
      apply Walk.Leaves.bind_tree
      cases hget : t.get? id with
      | none => exact .pure ht ()
      | some node => exact h.hook _ (h.visitChildren ih) id s t node hget ht

end Visitor.Keeps

end TemplateLogging
