import TemplateLogging.Proofs.Ready

namespace TemplateLogging

open Instrument

namespace Growth

variable {α : Type}

def labels (g : Growth α) : List α :=
  Rose.labelsAll (g.forest ++ g.bindings ++ g.attributes)

theorem mem_labels {g : Growth α} {x : α} : x ∈ g.labels ↔
    x ∈ Rose.labelsAll g.forest ∨ x ∈ Rose.labelsAll g.bindings ∨
      x ∈ Rose.labelsAll g.attributes := by
  simp only [labels, Rose.labelsAll_append, List.mem_append, or_assoc]

theorem mem_labels_append {g h : Growth α} {x : α} :
    x ∈ (g ++ h).labels ↔ x ∈ g.labels ∨ x ∈ h.labels := by
  simp only [mem_labels, forest_append, bindings_append, attributes_append, Rose.labelsAll_append,
    List.mem_append]
  tauto

theorem mem_labels_wrap {g : Growth Item} {inTag : Bool} {a x : Item} :
    x ∈ (g.wrap inTag a).labels ↔ x = a ∨ x ∈ g.labels := by
  rw [wrap]
  split
  · simp [mem_labels, underTag, Rose.labelsAll_append, Rose.labelsAll, Rose.labels]
    tauto
  · split
    · simp [mem_labels, underTemplate, Rose.labelsAll_append, Rose.labelsAll, Rose.labels]
      tauto
    · simp [mem_labels, under, Rose.labelsAll, Rose.labels]
      tauto

theorem labels_forest (bs : List (Rose α)) : (Growth.mk bs [] []).labels = Rose.labelsAll bs := by
  simp [labels]

end Growth

namespace Rose

/-- The node is in the value of an attribute with a logging call. -/
inductive Drops (x : Item) : Branch → Prop where
  | value {a : Item} {name value : Branch} {rest : List Branch} (hkind : a.kind = .htmlAttribute)
      (hcalls : value.loggingCalls ≠ []) (hx : x ∈ value.labels) :
      Drops x (.node a (name :: value :: rest))
  | under {a : Item} {c : Branch} {cs : List Branch} (hc : c ∈ cs) (h : Drops x c) :
      Drops x (.node a cs)

/-- The nodes that the instrumentation is free to remove. -/
def Loses (x : Item) (bs : List Branch) : Prop :=
  (∃ block, x.kind = .logBlock block) ∨ ∃ b ∈ bs, Drops x b

theorem Loses.mono {x : Item} {bs cs : List Branch} (h : Loses x bs)
    (hsub : ∀ b ∈ bs, Drops x b → ∃ c ∈ cs, Drops x c) : Loses x cs := by
  refine h.imp_right ?_
  rintro ⟨b, hb, hdrops⟩
  exact hsub b hb hdrops

theorem Loses.under {x : Item} {bs cs : List Branch} (h : Loses x bs) (hsub : bs ⊆ cs) (a : Item) :
    Loses x [.node a cs] := by
  apply h.mono
  intro b hb hdrops
  exact ⟨.node a cs, List.mem_singleton_self _, .under (hsub hb) hdrops⟩

end Rose

open Rose

/-- The work on branches comes from one tally to another. It keeps their nodes, all but those that
may be lost, and has no other nodes than these, those of some more branches, and new ones. -/
structure Accounts (s : Tally) (r : Growth Item × Tally) (bs more : List Branch) : Prop where
  le : s.next ≤ r.2.next
  known : ∀ x ∈ r.1.labels, x ∈ labelsAll bs ∨ x ∈ labelsAll more ∨
    s.next ≤ x.id.index ∧ x.id.index < r.2.next
  kept : ∀ x ∈ labelsAll bs, x ∈ r.1.labels ∨ Loses x bs

namespace Accounts

variable {s : Tally} {r : Growth Item × Tally} {bs cs more more' : List Branch} {inTag : Bool}

theorem still (s : Tally) (bs : List Branch) : Accounts s (Work.still bs s) bs [] where
  le := Nat.le_refl _
  known x hx := by
    rw [Work.still, Growth.labels_forest] at hx
    exact Or.inl hx
  kept x hx := by
    rw [Work.still, Growth.labels_forest]
    exact Or.inl hx

theorem placed (s : Tally) (more : List Branch) : Accounts s (Work.still more s) [] more where
  le := Nat.le_refl _
  known x hx := by
    rw [Work.still, Growth.labels_forest] at hx
    exact Or.inr (Or.inl hx)
  kept x hx := by
    cases hx

theorem andThen {f g : Work Item Tally} (h : Accounts s (f s) bs more)
    (h' : ∀ s, Accounts s (g s) cs more') :
    Accounts s (f.andThen g s) (bs ++ cs) (more ++ more') where
  le := Nat.le_trans h.le (h' _).le
  known x hx := by
    have hle := h.le
    have hle' := (h' (f s).2).le
    simp only [labelsAll_append, List.mem_append]
    rcases Growth.mem_labels_append.mp hx with hx | hx
    · rcases h.known x hx with hold | hmore | ⟨hlo, hhi⟩
      · exact Or.inl (Or.inl hold)
      · exact Or.inr (Or.inl (Or.inl hmore))
      · exact Or.inr (Or.inr ⟨hlo, Nat.lt_of_lt_of_le hhi hle'⟩)
    · rcases (h' _).known x hx with hold | hmore | ⟨hlo, hhi⟩
      · exact Or.inl (Or.inr hold)
      · exact Or.inr (Or.inl (Or.inr hmore))
      · exact Or.inr (Or.inr ⟨Nat.le_trans hle hlo, hhi⟩)
  kept x hx := by
    rw [Work.andThen, Growth.mem_labels_append]
    rw [labelsAll_append, List.mem_append] at hx
    rcases hx with hx | hx
    · refine (h.kept x hx).imp Or.inl fun hlost => hlost.mono ?_
      intro b hb hdrops
      exact ⟨b, List.mem_append_left _ hb, hdrops⟩
    · refine ((h' _).kept x hx).imp Or.inr fun hlost => hlost.mono ?_
      intro b hb hdrops
      exact ⟨b, List.mem_append_right _ hb, hdrops⟩

theorem under {f : Work Item Tally} (h : Accounts s (f s) cs more) (inTag : Bool) (a : Item) :
    Accounts s (f.under inTag a s) [.node a cs] more where
  le := h.le
  known x hx := by
    rw [labelsAll, labelsAll, List.append_nil, labels, List.mem_cons]
    rcases Growth.mem_labels_wrap.mp hx with hx | hx
    · exact Or.inl (Or.inl hx)
    · exact (h.known x hx).imp_left Or.inr
  kept x hx := by
    rw [labelsAll, labelsAll, List.append_nil, labels, List.mem_cons] at hx
    rw [Work.under, Growth.mem_labels_wrap]
    rcases hx with hx | hx
    · exact Or.inl (Or.inl hx)
    · exact (h.kept x hx).imp Or.inr fun hlost => hlost.under (List.Subset.refl _) a

theorem forget (h : Accounts s r bs more)
    (hmore : ∀ x ∈ labelsAll more, s.next ≤ x.id.index ∧ x.id.index < r.2.next) :
    Accounts s r bs [] where
  le := h.le
  known x hx := by
    rcases h.known x hx with hold | hx | hnew
    · exact Or.inl hold
    · exact Or.inr (Or.inr (hmore x hx))
    · exact Or.inr (Or.inr hnew)
  kept := h.kept

theorem unwrap {a : Item} {block : LogBlock} (h : Accounts s r cs more)
    (hkind : a.kind = .logBlock block) : Accounts s r [.node a cs] more where
  le := h.le
  known x hx := by
    rw [labelsAll, labelsAll, List.append_nil, labels, List.mem_cons]
    exact (h.known x hx).imp_left Or.inr
  kept x hx := by
    rw [labelsAll, labelsAll, List.append_nil, labels, List.mem_cons] at hx
    rcases hx with rfl | hx
    · exact Or.inr (Or.inl ⟨block, hkind⟩)
    · exact (h.kept x hx).imp_right fun hlost => hlost.under (List.Subset.refl _) a

/-- An attribute loses no more than its value. The name is in what it sends out or stays with it. -/
theorem moved {g : Growth Item} {s' : Tally} {f : Work Item Tally} {a : Item}
    {name value : Branch} {rest moved stays : List Branch} (hkind : a.kind = .htmlAttribute)
    (hcalls : value.loggingCalls ≠ []) (hname : moved ++ stays = [name])
    (hout : Accounts s (g, s') moved []) (hbody : Accounts s' (f s') (stays ++ rest) more)
    (hmore : ∀ x ∈ labelsAll more, s.next ≤ x.id.index ∧ x.id.index < s'.next) :
    Accounts s (g ++ (f.under inTag a s').1, (f.under inTag a s').2)
      [.node a (name :: value :: rest)] [] := by
  have hle : s.next ≤ s'.next := hout.le
  have hle' : s'.next ≤ (f.under inTag a s').2.next := hbody.le
  have hmem : ∀ x, x ∈ name.labels ↔ x ∈ labelsAll moved ∨ x ∈ labelsAll stays := by
    intro x
    rw [← List.mem_append, ← labelsAll_append, hname, labelsAll, labelsAll, List.append_nil]
  refine ⟨Nat.le_trans hle hle', ?_, ?_⟩
  · intro x hx
    simp only [labelsAll, labels, List.append_nil, List.mem_cons, List.mem_append, hmem]
    rcases Growth.mem_labels_append.mp hx with hx | hx
    · rcases hout.known x hx with hold | hnone | ⟨hlo, hhi⟩
      · exact Or.inl (Or.inr (Or.inl (Or.inl hold)))
      · cases hnone
      · exact Or.inr (Or.inr ⟨hlo, Nat.lt_of_lt_of_le hhi hle'⟩)
    · rcases Growth.mem_labels_wrap.mp hx with hx | hx
      · exact Or.inl (Or.inl hx)
      · rcases hbody.known x hx with hold | hx | ⟨hlo, hhi⟩
        · rw [labelsAll_append, List.mem_append] at hold
          rcases hold with hold | hold
          · exact Or.inl (Or.inr (Or.inl (Or.inr hold)))
          · exact Or.inl (Or.inr (Or.inr (Or.inr hold)))
        · have hnew := hmore x hx
          exact Or.inr (Or.inr ⟨hnew.1, Nat.lt_of_lt_of_le hnew.2 hle'⟩)
        · exact Or.inr (Or.inr ⟨Nat.le_trans hle hlo, hhi⟩)
  · intro x hx
    have hsub : moved ++ stays ⊆ name :: value :: rest := by
      rw [hname]
      exact List.cons_subset_cons name (List.nil_subset _)
    obtain ⟨hmoved, hstays⟩ := List.append_subset.mp hsub
    have hbelow : stays ++ rest ⊆ name :: value :: rest := by
      refine List.append_subset.mpr ⟨hstays, ?_⟩
      exact fun b hb => List.mem_cons_of_mem _ (List.mem_cons_of_mem _ hb)
    simp only [labelsAll, labels, List.append_nil, List.mem_cons, List.mem_append, hmem] at hx
    rw [Growth.mem_labels_append, Work.under, Growth.mem_labels_wrap]
    rcases hx with rfl | (hx | hx) | hx | hx
    · exact Or.inl (Or.inr (Or.inl rfl))
    · exact (hout.kept x hx).imp Or.inl fun hlost => hlost.under hmoved a
    · have hx : x ∈ labelsAll (stays ++ rest) := by
        rw [labelsAll_append]
        exact List.mem_append_left _ hx
      exact (hbody.kept x hx).imp (fun h => Or.inr (Or.inr h)) fun hlost => hlost.under hbelow a
    -- The value is all that may be lost here.
    · exact Or.inr (Or.inr ⟨_, List.mem_singleton_self _, .value hkind hcalls hx⟩)
    · have hx : x ∈ labelsAll (stays ++ rest) := by
        rw [labelsAll_append]
        exact List.mem_append_right _ hx
      exact (hbody.kept x hx).imp (fun h => Or.inr (Or.inr h)) fun hlost => hlost.under hbelow a

theorem earlier {s' : Tally} (h : Accounts s' r bs more) (hle : s.next ≤ s'.next) :
    Accounts s r bs more where
  le := Nat.le_trans hle h.le
  known x hx := by
    rcases h.known x hx with hold | hmore | ⟨hlo, hhi⟩
    · exact Or.inl hold
    · exact Or.inr (Or.inl hmore)
    · exact Or.inr (Or.inr ⟨Nat.le_trans hle hlo, hhi⟩)
  kept := h.kept

theorem fresh {g : Growth Item} {s' : Tally} (hle : s.next ≤ s'.next)
    (hnew : ∀ x ∈ g.labels, s.next ≤ x.id.index ∧ x.id.index < s'.next) :
    Accounts s (g, s') [] [] where
  le := hle
  known x hx := Or.inr (Or.inr (hnew x hx))
  kept x hx := by
    cases hx

end Accounts

namespace Rose

variable {next : Nat} {x : Item}

theorem new_of_mem_metadataIf {body : Branch} {place : Location}
    (hbody : ∀ x ∈ body.labels, next ≤ x.id.index ∧ x.id.index < next + 4)
    (hx : x ∈ (metadataIf (next + 4) body place).labels) :
    next ≤ x.id.index ∧ x.id.index < next + 6 := by
  simp only [metadataIf, labels, labelsAll, List.append_nil, List.mem_cons] at hx
  rcases hx with rfl | rfl | hx
  · simp
  · simp
    omega
  · have hnew := hbody x hx
    omega

theorem new_of_mem_printedAttribute {name value : Expr} {place : Location}
    (hx : x ∈ (printedAttribute next name value place).labels) :
    next ≤ x.id.index ∧ x.id.index < next + 4 := by
  simp only [printedAttribute, leaf, labels, labelsAll, List.append_nil, List.mem_cons,
    List.cons_append, List.nil_append, List.not_mem_nil, or_false] at hx
  rcases hx with rfl | rfl | rfl | rfl <;> simp

theorem new_of_mem_conditionalAttribute {name value : Expr} {place : Location}
    (hx : x ∈ (conditionalAttribute next name value place).labels) :
    next ≤ x.id.index ∧ x.id.index < next + 6 := by
  apply new_of_mem_metadataIf _ hx
  intro y hy
  exact new_of_mem_printedAttribute hy

theorem new_of_mem_placeholder {text : String} {place : Location}
    (hx : x ∈ (placeholder next text place).labels) :
    next ≤ x.id.index ∧ x.id.index < next + 2 := by
  simp only [placeholder, leaf, labels, labelsAll, List.append_nil, List.mem_cons,
    List.not_mem_nil, or_false] at hx
  rcases hx with rfl | rfl <;> simp

end Rose

variable {o : InstrumentOptions} {inTag : Bool} {mark : Option Mark} {a : Item}

theorem mem_labels_growth {m : Move} {x : Item} : x ∈ (m.growth inTag).labels ↔
    x ∈ labelsAll m.bindings ∨ x ∈ m.conditional.labels := by
  cases inTag <;>
    simp [Move.growth, Growth.bound, Growth.mem_labels, labelsAll]

theorem accounts_growth_literal {name : Branch} {text : String} {call : LoggingCall} {s : Tally}
    (h : name.kind = .rawText text) :
    Accounts s ((moveOut o a name call s).growth inTag, (moveOut o a name call s).tally) [] [] := by
  rw [moveOut_literal h]
  refine .fresh (Nat.le_add_right _ _) ?_
  intro x hx
  have hx := mem_labels_growth.mp hx
  simp only [labelsAll, List.not_mem_nil, false_or] at hx
  have hnew := new_of_mem_conditionalAttribute hx
  show s.next ≤ x.id.index ∧ x.id.index < s.next + 8
  omega

theorem accounts_growth_computed {name : Branch} {call : LoggingCall} {s : Tally}
    (h : name.isLiteral = false) : Accounts s
      ((moveOut o a name call s).growth inTag, (moveOut o a name call s).tally) [name] [] := by
  rw [moveOut_computed h]
  refine ⟨Nat.le_add_right _ _, ?_, ?_⟩
  · intro x hx
    have hx := mem_labels_growth.mp hx
    simp only [binding, labelsAll, labels, List.append_nil, List.mem_cons] at hx ⊢
    have hnext : (s.moveCall true).next = s.next + 10 := rfl
    rcases hx with (rfl | hx) | hx
    · simp [hnext]
    · exact Or.inl hx
    · have hnew := new_of_mem_conditionalAttribute hx
      refine Or.inr (Or.inr ?_)
      omega
  · intro x hx
    refine Or.inl (mem_labels_growth.mpr (Or.inl ?_))
    simp only [binding, labelsAll, labels, List.append_nil, List.mem_cons] at hx ⊢
    exact Or.inr hx

theorem new_of_mem_moveOut {name : Branch} {call : LoggingCall} {s : Tally} {x : Item}
    (hx : x ∈ (moveOut o a name call s).value.labels ∨
      name.isLiteral = false ∧ x ∈ (moveOut o a name call s).name.labels) :
    s.next ≤ x.id.index ∧ x.id.index < (moveOut o a name call s).tally.next := by
  cases hlit : name.isLiteral with
  | true =>
      obtain ⟨text, hkind⟩ := exists_text_of_isLiteral hlit
      rw [moveOut_literal hkind] at hx ⊢
      show s.next ≤ x.id.index ∧ x.id.index < s.next + 8
      rcases hx with hx | ⟨hfalse, -⟩
      · have hnew := new_of_mem_placeholder hx
        omega
      · rw [hlit] at hfalse
        cases hfalse
  | false =>
      rw [moveOut_computed hlit] at hx ⊢
      show s.next ≤ x.id.index ∧ x.id.index < s.next + 10
      rcases hx with hx | ⟨-, hx⟩
      · have hnew := new_of_mem_placeholder hx
        omega
      · simp only [leaf, labels, labelsAll, List.mem_singleton] at hx
        subst hx
        simp

theorem accounts_move {name value : Branch} {rest : List Branch} {call : LoggingCall}
    {calls : List LoggingCall} (h : a.kind = .htmlAttribute)
    (hcalls : value.loggingCalls = call :: calls)
    (hname : ∀ s, Accounts s (rewrite o inTag none name s) [name] [])
    (hrest : ∀ s, Accounts s (rewriteAll o inTag rest s) rest []) (s : Tally) :
    Accounts s (rewrite o inTag mark (.node a (name :: value :: rest)) s)
      [.node a (name :: value :: rest)] [] := by
  have hvalue : value.loggingCalls ≠ [] := by
    rw [hcalls]
    exact List.cons_ne_nil _ _
  rw [rewrite_move h hcalls]
  cases hlit : name.isLiteral with
  | true =>
      obtain ⟨text, hkind⟩ := exists_text_of_isLiteral hlit
      have hbody := ((hname (moveOut o a name call s).tally).andThen
        fun s' => .placed s' [(moveOut o a name call s).value]).andThen hrest
      refine .moved h hvalue rfl (accounts_growth_literal hkind) hbody ?_
      intro x hx
      refine new_of_mem_moveOut (Or.inl ?_)
      simpa [labelsAll] using hx
  | false =>
      have hbody := ((Accounts.placed (moveOut o a name call s).tally
        [(moveOut o a name call s).name]).andThen
          fun s' => .placed s' [(moveOut o a name call s).value]).andThen hrest
      refine .moved h hvalue rfl (accounts_growth_computed hlit) hbody ?_
      intro x hx
      refine new_of_mem_moveOut ?_
      simp [labelsAll] at hx
      exact hx.symm.imp_right fun hx => ⟨hlit, hx⟩

theorem labels_branch (o : InstrumentOptions) (m : Mark) : (m.branch o).labels =
    ⟨⟨m.next + 4⟩, .ifBlock, m.place⟩ ::
      ⟨⟨m.next + 5⟩, .ifCond (.call (.builtin .hasLoggingMetadata) []), m.place⟩ ::
        ⟨⟨m.next⟩, .htmlAttribute, m.place⟩ ::
          ((leaf (m.next + 1) (.print (markerName o) true) m.place).labels ++
            [⟨⟨m.next + 2⟩, .attributeValue .none, m.place⟩,
              ⟨⟨m.next + 3⟩, .print m.value true, m.place⟩]) :=
  rfl

/-- A marker whose value has a logging call is no value of the subtree, and is replaced as well. -/
theorem accounts_rewriteMark (mark : Option Mark) (s : Tally) :
    Accounts s (rewriteMark o mark s) [] (mark.map (·.branch o)).toList := by
  cases mark with
  | none => exact .placed s []
  | some m =>
      rw [rewriteMark]
      split
      · exact .placed s [m.branch o]
      · rename_i call calls hcalls
        let a : Item := ⟨⟨m.next⟩, .htmlAttribute, m.place⟩
        let name := leaf (m.next + 1) (.print (markerName o) true) m.place
        have hlit : name.isLiteral = false := rfl
        have hout : Accounts s ((moveOut o a name call s).growth true,
            (moveOut o a name call s).tally) [name] [] := accounts_growth_computed hlit
        rw [Option.map_some, Option.toList_some]
        refine ⟨hout.le, ?_, ?_⟩
        · intro x hx
          refine Or.inr ?_
          rw [labelsAll, labelsAll, List.append_nil, labels_branch]
          rcases Growth.mem_labels_append.mp hx with hx | hx
          · rcases hout.known x hx with hold | hnone | hnew
            · rw [labelsAll, labelsAll, List.append_nil] at hold
              exact Or.inl (by simp [name, hold])
            · cases hnone
            · exact Or.inr hnew
          · rw [Growth.only, Growth.labels_forest] at hx
            simp only [metadataIf, labels, labelsAll, List.append_nil, List.mem_cons,
              List.mem_append] at hx
            rcases hx with rfl | rfl | rfl | hx | hx
            · exact Or.inl (by simp)
            · exact Or.inl (by simp)
            · exact Or.inl (by simp)
            · exact Or.inr (new_of_mem_moveOut (Or.inr ⟨hlit, hx⟩))
            · exact Or.inr (new_of_mem_moveOut (Or.inl hx))
        · intro x hx
          cases hx

theorem accounts_tag {cs : List Branch} (mark : Option Mark) (htag : a.kind.isOpenTag = true)
    (hcs : ∀ s, Accounts s (rewriteAll o true cs s) cs []) (s : Tally) :
    Accounts s (rewrite o inTag mark (.node a cs) s) [.node a cs]
      (mark.map (·.branch o)).toList := by
  have hmark : ∀ s, Accounts s (rewriteMark o mark s) [] (mark.map (·.branch o)).toList :=
    accounts_rewriteMark mark
  have hall := (hcs s).andThen hmark
  rw [List.append_nil, List.nil_append] at hall
  rw [rewrite_openTag htag]
  exact hall.under inTag a

theorem hereditary_accounts (o : InstrumentOptions) : Hereditary
    (fun inTag _ b => ∀ s, Accounts s (rewrite o inTag none b s) [b] [])
    (fun inTag _ bs => ∀ s, Accounts s (rewriteAll o inTag bs s) bs []) where
  nil s := by
    rw [rewriteAll_nil]
    exact .still s []
  cons hb hbs s := by
    rw [rewriteAll_cons]
    exact (hb s).andThen hbs
  dependency {_ _ a cs _} hkind s := by
    rw [rewrite_dependency hkind]
    exact .still s [.node a cs]
  source {inTag _ a _ _} hkind hcs s := by
    rw [rewrite_source hkind]
    have hle : s.next ≤ s.enterFile.next := Nat.le_refl _
    exact ((hcs s.enterFile).under inTag a).earlier hle
  template {inTag _ a _ _ _} hkind hcs s := by
    rw [rewrite_template hkind]
    have hle : s.next ≤ s.enterTemplate.next := Nat.le_refl _
    exact ((hcs s.enterTemplate).under inTag a).earlier hle
  openTag htag hcs s := accounts_tag none htag hcs s
  block {inTag _ a block tag attrs rest} hkind _ htag hattrs hrest s := by
    let m := block.mark (.node tag attrs) s.next
    have hmarked : Accounts s.markBlock (rewrite o inTag (some m) (.node tag attrs) s.markBlock)
        [.node tag attrs] [m.branch o] := accounts_tag (some m) htag hattrs s.markBlock
    have hall := hmarked.andThen hrest
    have hle : s.next ≤ s.markBlock.next := Nat.le_add_right _ _
    rw [rewrite_logBlock hkind]
    refine ((hall.earlier hle).forget ?_).unwrap hkind
    intro x hx
    rw [List.append_nil, labelsAll, labelsAll, List.append_nil] at hx
    have hnew := new_of_mem_conditionalAttribute hx
    exact ⟨hnew.1, Nat.lt_of_lt_of_le hnew.2 hall.le⟩
  unmoved {inTag _ a _} hkind hcalls hcs s := by
    rw [rewrite_attribute hkind hcalls]
    exact (hcs s).under inTag a
  moved hkind hcalls hname hrest s := accounts_move hkind hcalls hname hrest s
  plain {inTag _ a _} hplain hcs s := by
    rw [rewrite_plain hplain]
    exact (hcs s).under inTag a

end TemplateLogging
