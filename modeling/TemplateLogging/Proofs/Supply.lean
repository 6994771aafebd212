import TemplateLogging.Visitor

/-!
Steps that take fresh ids. How many ids a step takes is known before it runs, so it either gets all
of them or fails for want of ids; `Takes` says so together with what the result is like. Steps in a
row take the ids of the one and then those of the other.
-/

namespace TemplateLogging

variable {α β σ : Type}

theorem Except.exists_of_bind_eq_ok {ε : Type} {step : Except ε α} {next : α → Except ε β}
    {b : β} (h : step >>= next = .ok b) : ∃ a, step = .ok a ∧ next a = .ok b := by
  cases step with
  | error e => cases h
  | ok a => exact ⟨a, rfl, h⟩

/-- The step hands out the ids from `start` up to `stop` and ends as `post` says. Where they are not
all to be had, it fails for want of ids. -/
structure Takes (start stop : Nat) (step : Except Fault α) (post : α → Prop) : Prop where
  ok : start = stop ∨ stop ≤ maxWord → ∃ a, step = .ok a ∧ post a
  error : start < stop → maxWord < stop → step = .error .idsExhausted

namespace Takes

variable {start m stop : Nat} {step : Except Fault α} {next : α → Except Fault β}
  {post post' : α → Prop} {last : β → Prop}

theorem pure {a : α} (h : post a) : Takes start start (Except.ok a) post where
  ok _ := ⟨a, rfl, h⟩
  error hlt := absurd hlt (Nat.lt_irrefl _)

theorem of_eq {a : α} (heq : step = .ok a) (h : post a) : Takes start start step post :=
  heq ▸ pure h

theorem bind (h : Takes start m step post) (h' : ∀ a, post a → Takes m stop (next a) last)
    (hstart : start ≤ m := by omega) (hmid : m ≤ stop := by omega) :
    Takes start stop (step >>= next) last := by
  by_cases henough : start = m ∨ m ≤ maxWord
  · obtain ⟨a, rfl, ha⟩ := h.ok henough
    constructor
    · intro hstop
      apply (h' a ha).ok
      omega
    · intro hlt hstop
      apply (h' a ha).error _ hstop
      omega
  · have hfail : step = .error .idsExhausted := h.error (by omega) (by omega)
    subst hfail
    constructor
    · intro hstop
      omega
    · intro _ _
      rfl

theorem bind_ok {a : α} (heq : step = .ok a) (h : Takes start stop (next a) last) :
    Takes start stop (step >>= next) last := by
  subst heq
  exact h

theorem map {f : α → β} (h : Takes start stop step post) :
    Takes start stop (step.map f) fun b => ∃ a, b = f a ∧ post a where
  ok henough := by
    obtain ⟨a, rfl, ha⟩ := h.ok henough
    exact ⟨f a, rfl, a, rfl, ha⟩
  error hlt hstop := by
    rw [h.error hlt hstop]
    rfl

theorem mono (h : Takes start stop step post)
    (hpost : ∀ a, (start = stop ∨ stop ≤ maxWord) → post a → post' a) :
    Takes start stop step post' where
  ok henough := by
    obtain ⟨a, ha, hpa⟩ := h.ok henough
    exact ⟨a, ha, hpost a henough hpa⟩
  error := h.error

theorem eq_ok (h : Takes start stop step post) :
    Takes start stop step fun a => step = .ok a ∧ post a where
  ok henough := by
    obtain ⟨a, ha, hpost⟩ := h.ok henough
    exact ⟨a, ha, ha, hpost⟩
  error := h.error

theorem ok_or_exhausted (h : Takes start stop step post) (hle : start ≤ stop) :
    (∃ a, step = .ok a ∧ post a) ∨ step = .error .idsExhausted := by
  by_cases henough : start = stop ∨ stop ≤ maxWord
  · exact Or.inl (h.ok henough)
  · exact Or.inr (h.error (by omega) (by omega))

theorem eq {step' : Except Fault α} (h : Takes start stop step post)
    (h' : Takes start stop step' post') (hle : start ≤ stop)
    (hpost : ∀ a b, post a → post' b → a = b) : step = step' := by
  by_cases henough : start = stop ∨ stop ≤ maxWord
  · obtain ⟨a, rfl, ha⟩ := h.ok henough
    obtain ⟨b, rfl, hb⟩ := h'.ok henough
    rw [hpost a b ha hb]
  · rw [h.error (by omega) (by omega), h'.error (by omega) (by omega)]

theorem take (next : Nat) :
    Takes next (next + 1) (IdSource.take ⟨next⟩) fun r => r = (⟨next⟩, ⟨next + 1⟩) where
  ok henough := by
    have hlt : next < maxWord := by omega
    exact ⟨_, by simp [IdSource.take, hlt], rfl⟩
  error _ hstop := by
    have hlt : ¬ next < maxWord := by omega
    simp [IdSource.take, hlt]

end Takes

/-- A part of a walk takes ids as `Takes` says and meets no compiler fault. -/
def Walk.Takes (start stop : Nat) (part : Walk σ α) (s : σ × Tree) (post : α → σ → Tree → Prop) :
    Prop :=
  TemplateLogging.Takes start stop (part.run.run s) fun r =>
    ∃ a, r.1 = .ok a ∧ post a r.2.1 r.2.2

namespace Walk.Takes

variable {start m stop : Nat} {part : Walk σ α} {next : α → Walk σ β} {s : σ} {t : Tree}
  {post post' : α → σ → Tree → Prop} {last : β → σ → Tree → Prop}

theorem pure {a : α} (h : post a s t) : Walk.Takes start start (pure a) (s, t) post :=
  TemplateLogging.Takes.pure ⟨a, rfl, h⟩

theorem bind (h : Walk.Takes start m part (s, t) post)
    (h' : ∀ a s t, post a s t → Walk.Takes m stop (next a) (s, t) last)
    (hstart : start ≤ m := by omega) (hmid : m ≤ stop := by omega) :
    Walk.Takes start stop (part >>= next) (s, t) last := by
  refine TemplateLogging.Takes.bind h ?_ hstart hmid
  rintro ⟨r, s', t'⟩ ⟨a, ha, hpost⟩
  simp only at ha
  subst ha
  exact h' a s' t' hpost

theorem mono (h : Walk.Takes start stop part (s, t) post)
    (hpost : ∀ a s t, (start = stop ∨ stop ≤ maxWord) → post a s t → post' a s t) :
    Walk.Takes start stop part (s, t) post' := by
  refine TemplateLogging.Takes.mono h ?_
  rintro ⟨r, s', t'⟩ henough ⟨a, ha, ha'⟩
  exact ⟨a, ha, hpost a s' t' henough ha'⟩

theorem of_run {s' : σ} {t' : Tree} {a : α} (h : Walk.Takes start stop part (s, t) post)
    (hle : start ≤ stop) (hrun : part.run.run (s, t) = .ok (.ok a, s', t')) : post a s' t' := by
  rcases h.ok_or_exhausted hle with ⟨r, hr, b, hb, hpost⟩ | hfail
  · rw [hrun] at hr
    cases hr
    cases hb
    exact hpost
  · rw [hrun] at hfail
    cases hfail

theorem bind_tree {next : Tree → Walk σ β} (h : Walk.Takes start stop (next t) (s, t) last) :
    Walk.Takes start stop (Walk.tree >>= next) (s, t) last :=
  h

theorem bind_state {next : σ → Walk σ β} (h : Walk.Takes start stop (next s) (s, t) last) :
    Walk.Takes start stop (Walk.state >>= next) (s, t) last :=
  h

theorem bind_setTree {t' : Tree} {next : Unit → Walk σ β}
    (h : Walk.Takes start stop (next ()) (s, t') last) :
    Walk.Takes start stop (Walk.setTree t' >>= next) (s, t) last :=
  h

theorem bind_setState {s' : σ} {next : Unit → Walk σ β}
    (h : Walk.Takes start stop (next ()) (s', t) last) :
    Walk.Takes start stop (Walk.setState s' >>= next) (s, t) last :=
  h

theorem bind_ok {step : Except Fault α} {a : α} (heq : step = .ok a)
    (h : Walk.Takes start stop (next a) (s, t) last) :
    Walk.Takes start stop (Walk.attempt step >>= next) (s, t) last := by
  subst heq
  exact h

theorem setTree {t' : Tree} {post : Unit → σ → Tree → Prop} (h : post () s t') :
    Walk.Takes start start (Walk.setTree t') (s, t) post :=
  TemplateLogging.Takes.pure ⟨(), rfl, h⟩

theorem setState {s' : σ} {post : Unit → σ → Tree → Prop} (h : post () s' t) :
    Walk.Takes start start (Walk.setState s') (s, t) post :=
  TemplateLogging.Takes.pure ⟨(), rfl, h⟩

theorem attempt {step : Except Fault α} {p : α → Prop}
    (h : TemplateLogging.Takes start stop step p) (hpost : ∀ a, p a → post a s t) :
    Walk.Takes start stop (Walk.attempt step) (s, t) post := by
  have hrun : (Walk.attempt (σ := σ) step).run.run (s, t) = step.map fun a => (.ok a, (s, t)) := by
    cases step <;> rfl
  constructor
  · intro henough
    obtain ⟨a, rfl, ha⟩ := h.ok henough
    exact ⟨_, hrun, a, rfl, hpost a ha⟩
  · intro hlt hstop
    rw [hrun, h.error hlt hstop]
    rfl

theorem bind_attempt {step : Except Fault α} {p : α → Prop}
    (h : TemplateLogging.Takes start m step p)
    (h' : ∀ a, p a → Walk.Takes m stop (next a) (s, t) last)
    (hstart : start ≤ m := by omega) (hmid : m ≤ stop := by omega) :
    Walk.Takes start stop (Walk.attempt step >>= next) (s, t) last := by
  have hattempt : Walk.Takes start m (Walk.attempt step) (s, t) fun a s' t' =>
      p a ∧ s' = s ∧ t' = t := by
    refine attempt h ?_
    intro a ha
    exact ⟨ha, rfl, rfl⟩
  refine bind hattempt ?_ hstart hmid
  rintro a _ _ ⟨ha, rfl, rfl⟩
  exact h' a ha

end Walk.Takes

end TemplateLogging
