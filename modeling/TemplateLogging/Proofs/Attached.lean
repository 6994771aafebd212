import TemplateLogging.Proofs.Counting

namespace TemplateLogging

open Instrument Rose

namespace Rose

/-- A condition with an id from `start` on. -/
def isNewGate (start : Nat) (b : Branch) : Bool :=
  decide (start ≤ b.id.index) && b.kind matches .ifBlock

def newGates (start : Nat) (bs : List Branch) : List Branch :=
  bs.filter (isNewGate start)

/-- The branch is a condition on logging metadata around an attribute with the name. -/
def Guards (gate : Branch) (e : Expr) : Prop :=
  ∃ next attr name rest place, gate = metadataIf next (node attr (name :: rest)) place ∧
    attr.kind = .htmlAttribute ∧ name.kind = .print e true

/-- The new conditions among the branches are around attributes with these names. -/
def GuardAll (start : Nat) (bs : List Branch) (names : List Expr) : Prop :=
  List.Forall₂ Guards (newGates start bs) names

variable {start : Nat} {a : Item} {bs cs : List Branch} {names names' : List Expr}

theorem newGates_append (bs cs : List Branch) :
    newGates start (bs ++ cs) = newGates start bs ++ newGates start cs :=
  List.filter_append _ _

theorem GuardAll.append (h : GuardAll start bs names) (h' : GuardAll start cs names') :
    GuardAll start (bs ++ cs) (names ++ names') := by
  rw [GuardAll, newGates_append]
  exact List.rel_append h h'

theorem GuardAll.of_forall (h : ∀ b ∈ bs, b.isNewGate start = false) : GuardAll start bs [] := by
  have hnone : newGates start bs = [] := by
    rw [newGates, List.filter_eq_nil_iff]
    intro b hb
    rw [h b hb]
    exact Bool.false_ne_true
  rw [GuardAll, hnone]
  exact .nil

theorem isNewGate_eq_false_of_lt (h : a.id.index < start) (cs : List Branch) :
    (node a cs).isNewGate start = false := by
  rw [isNewGate, Bool.and_eq_false_iff]
  exact Or.inl (decide_eq_false (Nat.not_le_of_lt h))

theorem isNewGate_eq_false_of_ne {b : Branch} (h : b.kind ≠ .ifBlock) :
    b.isNewGate start = false := by
  rw [isNewGate, Bool.and_eq_false_iff]
  refine Or.inr ?_
  split
  · exact absurd ‹_› h
  · rfl

theorem GuardAll.old (h : ∀ x ∈ labelsAll bs, x.id.index < start) : GuardAll start bs [] := by
  refine .of_forall fun b hb => ?_
  cases b with
  | node a cs => exact isNewGate_eq_false_of_lt (h a (mem_labelsAll hb List.mem_cons_self)) cs

theorem GuardAll.gate {next : Nat} {attr : Item} {name : Branch} {rest : List Branch} {e : Expr}
    {place : Location} (hnext : start ≤ next) (hattr : attr.kind = .htmlAttribute)
    (hname : name.kind = .print e true) :
    GuardAll start [metadataIf next (node attr (name :: rest)) place] [e] := by
  have hnew : (metadataIf next (node attr (name :: rest)) place).isNewGate start = true := by
    rw [isNewGate, Bool.and_eq_true]
    exact ⟨decide_eq_true hnext, rfl⟩
  rw [GuardAll, newGates, List.filter_cons_of_pos hnew]
  exact .cons ⟨next, attr, name, rest, place, rfl, hattr, hname⟩ .nil

end Rose

variable {o : InstrumentOptions} {start : Nat} {a : Item} {bs cs : List Branch}
  {names names' : List Expr} {s s' : Tally} {r r' : Growth Item × Tally} {inTag : Bool}
  {name : Branch} {call : LoggingCall}

/-- What stands for the marker on a tag: nothing, the marker, or what the marker has become when
there is a logging call in it. -/
def MarkerNames (o : InstrumentOptions) (names : List Expr) : Prop :=
  names = [] ∨ names = [markerName o] ∨ ∃ v, names = [.varRef v]

/-- The names of the synthetic attributes among the children of a tag. -/
def Tagged (o : InstrumentOptions) (start : Nat) (flat : Prop) (cs : List Branch) : Prop :=
  ∃ (marker : List Expr) (numbers : List Nat),
    GuardAll start cs (marker ++ numbers.map (functionAttributeName o)) ∧
    MarkerNames o marker ∧ (flat → numbers.Pairwise (· < ·))

theorem Tagged.old {y : Branch} {path : List Item} {flat : Prop}
    (h : ∀ x ∈ labelsAll bs, x.id.index < start) (hy : Occurs y path bs) :
    Tagged o start flat y.children := by
  refine ⟨[], [], .old fun x hx => h x ?_, Or.inl rfl, fun _ => .nil⟩
  cases y with
  | node b ds => exact hy.labels_sublist.subset (List.mem_cons_of_mem b hx)

/-- The work on branches sends out synthetic attributes with numbers, and leaves no others than
those with the given names in place. Each open tag that there is now has been there before. -/
structure Attaches (o : InstrumentOptions) (start : Nat) (names : List Expr) (bs : List Branch)
    (s : Tally) (r : Growth Item × Tally) : Prop where
  le : s.next ≤ r.2.next
  forest : GuardAll start r.1.forest names
  bindings : GuardAll start r.1.bindings []
  sent : ∃ numbers : List Nat,
    GuardAll start r.1.attributes (numbers.map (functionAttributeName o)) ∧
      (NoTemplate bs → ∃ count, r.2.number = s.number + count ∧
        numbers.Sublist (List.range' s.number count))
  tags : ∀ y path, Occurs y path r.1.whole → y.kind.isOpenTag = true →
    ∃ x path, Occurs x path bs ∧ x.label = y.label ∧
      Tagged o start (NoTemplate x.children) y.children

namespace Attaches

theorem nothing_sent (s : Tally) : ∃ numbers : List Nat,
    GuardAll start [] (numbers.map (functionAttributeName o)) ∧
      (NoTemplate bs → ∃ count, s.number = s.number + count ∧
        numbers.Sublist (List.range' s.number count)) :=
  ⟨[], .nil, fun _ => ⟨0, rfl, .slnil⟩⟩

theorem old (h : ∀ x ∈ labelsAll bs, x.id.index < start) (s : Tally) :
    Attaches o start [] bs s (Work.still bs s) where
  le := Nat.le_refl _
  forest := .old h
  bindings := .nil
  sent := nothing_sent s
  tags y path hy _ := by
    rw [Work.still, Growth.whole_forest] at hy
    exact ⟨y, path, hy, rfl, .old h hy⟩

theorem placed (hnames : GuardAll start bs names)
    (htags : ∀ x ∈ labelsAll bs, x.kind.isOpenTag = false) (s : Tally) :
    Attaches o start names [] s (Work.still bs s) where
  le := Nat.le_refl _
  forest := hnames
  bindings := .nil
  sent := nothing_sent s
  tags y path hy htag := by
    rw [Work.still, Growth.whole_forest] at hy
    rw [show y.kind.isOpenTag = false from htags _ hy.label_mem] at htag
    cases htag

theorem quiet (h : ∀ x ∈ labelsAll bs, x.kind ≠ .ifBlock ∧ x.kind.isOpenTag = false) (s : Tally) :
    Attaches o start [] [] s (Work.still bs s) := by
  refine .placed (.of_forall fun b hb => isNewGate_eq_false_of_ne ?_) (fun x hx => (h x hx).2) s
  exact (h b.label (mem_labelsAll hb b.label_mem_labels)).1

theorem andThen (h : Attaches o start names bs s r) (h' : Attaches o start names' cs r.2 r') :
    Attaches o start (names ++ names') (bs ++ cs) s (r.1 ++ r'.1, r'.2) where
  le := Nat.le_trans h.le h'.le
  forest := h.forest.append h'.forest
  bindings := h.bindings.append h'.bindings
  sent := by
    obtain ⟨numbers, hsent, hcount⟩ := h.sent
    obtain ⟨numbers', hsent', hcount'⟩ := h'.sent
    refine ⟨numbers ++ numbers', ?_, fun hflat => ?_⟩
    · rw [List.map_append]
      exact hsent.append hsent'
    · obtain ⟨hbs, hcs⟩ := NoTemplate.append_iff.mp hflat
      obtain ⟨count, hnumber, hsub⟩ := hcount hbs
      obtain ⟨count', hnumber', hsub'⟩ := hcount' hcs
      rw [hnumber] at hnumber' hsub'
      refine ⟨count + count', hnumber'.trans (Nat.add_assoc _ _ _), ?_⟩
      rw [← List.range'_append_1]
      exact hsub.append hsub'
  tags y path hy htag := by
    rcases Growth.occurs_of_append hy with hy | hy
    · obtain ⟨x, path, hx, hrest⟩ := h.tags y path hy htag
      exact ⟨x, path, hx.mono (List.subset_append_left _ _), hrest⟩
    · obtain ⟨x, path, hx, hrest⟩ := h'.tags y path hy htag
      exact ⟨x, path, hx.mono (List.subset_append_right _ _), hrest⟩

theorem under (h : Attaches o start names cs s' r) (hnames : MarkerNames o names)
    (ha : a.id.index < start) (hnext : s'.next = s.next)
    (hnumber : s'.number = if a.kind.isTemplate then 0 else s.number) (inTag : Bool) :
    Attaches o start [] [node a cs] s (r.1.wrap inTag a, r.2) where
  le := hnext ▸ h.le
  forest := by
    have hself : ∀ ds, GuardAll start [node a ds] [] := by
      intro ds
      refine .of_forall fun b hb => ?_
      rw [List.mem_singleton.mp hb]
      exact isNewGate_eq_false_of_lt ha ds
    rw [Growth.wrap]
    split
    · exact h.bindings.append (hself _)
    · split
      · exact hself _
      · exact hself _
  bindings := by
    rw [Growth.wrap]
    split
    · exact .nil
    · split
      · exact h.bindings
      · exact h.bindings
  sent := by
    obtain ⟨numbers, hsent, hcount⟩ := h.sent
    have hflat : NoTemplate [node a cs] → ∃ count, r.2.number = s.number + count ∧
        numbers.Sublist (List.range' s.number count) := by
      intro hflat
      obtain ⟨htemplate, hcs⟩ := noTemplate_node.mp hflat
      rw [htemplate, if_neg Bool.false_ne_true] at hnumber
      rw [← hnumber]
      exact hcount hcs
    have hnone : NoTemplate [node a cs] → ∃ count, r.2.number = s.number + count ∧
        ([] : List Nat).Sublist (List.range' s.number count) := by
      intro htemplate
      obtain ⟨count, hnumber, -⟩ := hflat htemplate
      exact ⟨count, hnumber, List.nil_sublist _⟩
    rw [Growth.wrap]
    split
    · exact ⟨[], .nil, hnone⟩
    · split
      · exact ⟨[], .nil, hnone⟩
      · exact ⟨numbers, hsent, hflat⟩
  tags y path hy htag := by
    obtain ⟨numbers, hsent, hcount⟩ := h.sent
    have hself : Occurs (node a cs) [] [node a cs] := .here (List.mem_singleton_self _)
    rcases Growth.occurs_of_wrap hy with rfl | rfl | ⟨path, hy⟩
    · refine ⟨node a cs, [], hself, rfl, names, [], ?_, hnames, fun _ => .nil⟩
      rw [List.map_nil, List.append_nil]
      exact h.forest
    · refine ⟨node a cs, [], hself, rfl, names, numbers, h.forest.append hsent, hnames, ?_⟩
      intro hflat
      obtain ⟨count, -, hsub⟩ := hcount hflat
      exact (List.pairwise_lt_range').sublist hsub
    · obtain ⟨x, path, hx, hrest⟩ := h.tags y path hy htag
      exact ⟨x, _, hx.under a, hrest⟩

theorem stay (h : Attaches o start names cs s r) (hnames : MarkerNames o names)
    (ha : a.id.index < start) (htemplate : a.kind.isTemplate = false) (inTag : Bool) :
    Attaches o start [] [node a cs] s (r.1.wrap inTag a, r.2) := by
  refine h.under hnames ha rfl ?_ inTag
  rw [htemplate]
  rfl

theorem earlier (h : Attaches o start names bs s' r) (hnext : s.next ≤ s'.next)
    (hnumber : s'.number = s.number) : Attaches o start names bs s r where
  le := Nat.le_trans hnext h.le
  forest := h.forest
  bindings := h.bindings
  sent := by
    rw [← hnumber]
    exact h.sent
  tags := h.tags

theorem congr (h : Attaches o start names bs s r) (hflat : NoTemplate cs → NoTemplate bs)
    (hocc : ∀ x path, Occurs x path bs → x.kind.isOpenTag = true →
      ∃ path, Occurs x path cs) : Attaches o start names cs s r where
  le := h.le
  forest := h.forest
  bindings := h.bindings
  sent := by
    obtain ⟨numbers, hsent, hcount⟩ := h.sent
    exact ⟨numbers, hsent, fun hcs => hcount (hflat hcs)⟩
  tags y path hy htag := by
    obtain ⟨x, path, hx, hlabel, hrest⟩ := h.tags y path hy htag
    have hkind : x.kind = y.kind := congrArg Item.kind hlabel
    obtain ⟨path, hx⟩ := hocc x path hx (hkind ▸ htag)
    exact ⟨x, path, hx, hlabel, hrest⟩

end Attaches

/-- What a moved attribute sends out: its synthetic attribute, which has the next number, and the
variable for a name that is no literal. -/
theorem attaches_growth (hname : ∀ y path, Occurs y path [name] → y.kind.isOpenTag = true →
      Tagged o start (NoTemplate y.children) y.children) (hs : start ≤ s.next) :
    Attaches o start [] [name] s
      ((moveOut o a name call s).growth inTag, (moveOut o a name call s).tally) := by
  obtain ⟨first, e, hfirst, hnext, -, hconditional, hbound⟩ :=
    exists_sent (names_self o a name call s)
  have hbindings : GuardAll start (moveOut o a name call s).bindings [] := by
    refine .of_forall fun b hb => isNewGate_eq_false_of_ne ?_
    rcases hbound with ⟨-, hnone⟩ | ⟨-, -, hbinding⟩
    · rw [hnone] at hb
      cases hb
    · rw [hbinding, List.mem_singleton] at hb
      rw [hb]
      exact NodeKind.noConfusion
  constructor
  · have hle := add_eight_le_moveOut o a name call s
    show s.next ≤ (moveOut o a name call s).tally.next
    omega
  · cases inTag with
    | true => exact .nil
    | false => exact hbindings.append .nil
  · cases inTag with
    | true => exact hbindings.append .nil
    | false => exact .nil
  · refine ⟨[s.number], ?_, fun _ => ⟨1, number_moveOut o a name call s, List.Sublist.refl _⟩⟩
    have hattribute : GuardAll start [(moveOut o a name call s).conditional]
        [functionAttributeName o s.number] := by
      rw [hconditional]
      exact .gate (Nat.le_add_right_of_le (Nat.le_trans hs hfirst)) rfl rfl
    cases inTag with
    | true => exact hattribute
    | false => exact hattribute
  · intro y path hy htag
    rcases occurs_of_growth hy with ⟨path, hy⟩ | hnone
    · exact ⟨y, path, hy, rfl, hname y path hy htag⟩
    · rw [hnone.2] at htag
      cases htag

theorem attaches_growth_leaf {next : Nat} {e : Expr} {place : Location} (hs : start ≤ s.next) :
    Attaches o start [] [] s
      ((moveOut o a (leaf next (.print e true) place) call s).growth inTag,
        (moveOut o a (leaf next (.print e true) place) call s).tally) := by
  have hprint : ∀ x ∈ labelsAll [(leaf next (.print e true) place : Branch)],
      x.kind = .print e true := by
    intro x hx
    rw [leaf, labelsAll, labelsAll, labels, labelsAll, List.append_nil, List.mem_singleton] at hx
    rw [hx]
  have hnone : ∀ y path, Occurs y path [leaf next (.print e true) place] →
      y.kind.isOpenTag ≠ true := by
    intro y path hy htag
    rw [show y.kind = .print e true from hprint _ hy.label_mem] at htag
    cases htag
  refine (attaches_growth (fun y path hy htag => absurd htag (hnone y path hy)) hs).congr ?_ ?_
  · intro _ x hx
    rw [hprint x hx]
    rfl
  · exact fun y path hy htag => absurd htag (hnone y path hy)

/-- A marker comes in on its tag. If there is a logging call in it, a variable takes the place of
its name, and the call gets a synthetic attribute of its own. -/
theorem attaches_mark {m : Mark} (hm : start ≤ m.next) (hs : start ≤ s.next) :
    ∃ names, MarkerNames o names ∧ Attaches o start names [] s (rewriteMark o (some m) s) := by
  cases hcalls : m.value.loggingCalls with
  | nil =>
      rw [rewriteMark_still hcalls]
      refine ⟨[markerName o], Or.inr (Or.inl rfl), .placed ?_ ?_ s⟩
      · exact .gate (Nat.le_add_right_of_le hm) rfl rfl
      · intro x hx
        rw [labelsAll, labelsAll, List.append_nil, Mark.branch] at hx
        obtain ⟨-, -, -, htag, -⟩ := of_mem_conditionalAttribute hx
        exact htag
  | cons call calls =>
      rw [rewriteMark, hcalls]
      refine ⟨[.varRef (variableName o s.number)], Or.inr (Or.inr ⟨_, rfl⟩),
        (attaches_growth_leaf hs).andThen (.placed ?_ ?_ _)⟩
      · rw [moveOut_computed rfl]
        exact .gate (Nat.le_add_right_of_le hm) rfl rfl
      · rw [moveOut_computed rfl]
        intro x hx
        simp only [metadataIf, placeholder, leaf, labels, labelsAll, List.append_nil,
          List.cons_append, List.nil_append, List.mem_cons, List.not_mem_nil, or_false] at hx
        rcases hx with rfl | rfl | rfl | rfl | rfl | rfl <;> rfl

theorem exists_attaches_name (a : Item) (call : LoggingCall)
    (hname : ∀ s, start ≤ s.next → Attaches o start [] [name] s (rewrite o inTag none name s))
    (hs : start ≤ s.next) :
    ∃ bs, bs ⊆ [name] ∧ Attaches o start [] bs (moveOut o a name call s).tally
      ((if name.isLiteral then rewrite o inTag none name
        else .still [(moveOut o a name call s).name]) (moveOut o a name call s).tally) := by
  have hle := add_eight_le_moveOut o a name call s
  cases hlit : name.isLiteral with
  | true => exact ⟨[name], List.Subset.refl _, hname _ (by omega)⟩
  | false =>
      rw [moveOut_computed hlit]
      refine ⟨[], List.nil_subset _, .quiet ?_ _⟩
      intro x hx
      rw [leaf, labelsAll, labelsAll, labels, labelsAll, List.append_nil, List.mem_singleton] at hx
      rw [hx]
      exact ⟨NodeKind.noConfusion, rfl⟩

theorem attaches_value (o : InstrumentOptions) (start : Nat) (a : Item) (name : Branch)
    (call : LoggingCall) (s s' : Tally) :
    Attaches o start [] [] s' (Work.still [(moveOut o a name call s).value] s') := by
  obtain ⟨first, e, -, -, hvalue, -⟩ := exists_sent (names_self o a name call s)
  rw [hvalue]
  refine .quiet (fun x hx => ?_) s'
  simp only [placeholder, leaf, labels, labelsAll, List.append_nil, List.mem_cons,
    List.not_mem_nil, or_false] at hx
  rcases hx with rfl | rfl
  · exact ⟨NodeKind.noConfusion, rfl⟩
  · exact ⟨NodeKind.noConfusion, rfl⟩

/-- The work on branches that were there before sends out synthetic attributes to tags. -/
def Attached (o : InstrumentOptions) (start : Nat) (bs : List Branch) (f : Work Item Tally) :
    Prop :=
  (∀ x ∈ labelsAll bs, x.id.index < start) → ∀ s, start ≤ s.next →
    Attaches o start [] bs s (f s)

namespace Attached

variable {f g : Work Item Tally}

theorem still (bs : List Branch) : Attached o start bs (.still bs) :=
  fun hold s _ => .old hold s

theorem andThen (h : Attached o start bs f) (h' : Attached o start cs g) :
    Attached o start (bs ++ cs) (f.andThen g) := by
  intro hold s hs
  simp only [labelsAll_append, List.forall_mem_append] at hold
  have hf := h hold.1 s hs
  exact hf.andThen (h' hold.2 (f s).2 (Nat.le_trans hs hf.le))

theorem under (h : Attached o start cs f) (enter : Tally → Tally)
    (hnext : ∀ s, (enter s).next = s.next)
    (hnumber : ∀ s, (enter s).number = if a.kind.isTemplate then 0 else s.number) (inTag : Bool) :
    Attached o start [node a cs] fun s => f.under inTag a (enter s) := by
  intro hold s hs
  rw [labelsAll, labelsAll, List.append_nil, labels, List.forall_mem_cons] at hold
  rw [← hnext s] at hs
  exact (h hold.2 (enter s) hs).under (Or.inl rfl) hold.1 (hnext s) (hnumber s) inTag

theorem block {block : LogBlock} {tag : Item} {attrs rest : List Branch}
    (hkind : a.kind = .logBlock block) (htag : tag.kind.isOpenTag = true)
    (hattrs : Attached o start attrs (rewriteAll o true attrs))
    (hrest : Attached o start rest (rewriteAll o inTag rest)) :
    Attached o start [node a (node tag attrs :: rest)]
      (rewrite o inTag none (node a (node tag attrs :: rest))) := by
  rw [rewrite_block hkind htag]
  intro hold s hs
  rw [labelsAll, labelsAll, List.append_nil, labels, labelsAll, labels] at hold
  simp only [List.mem_cons, List.mem_append, or_imp, forall_and, forall_eq] at hold
  obtain ⟨-, ⟨holdTag, holdAttrs⟩, holdRest⟩ := hold
  have hmark : start ≤ s.markBlock.next := Nat.le_add_right_of_le hs
  have hattrs := hattrs holdAttrs s.markBlock hmark
  obtain ⟨names, hnames, hmarker⟩ :=
    attaches_mark (m := block.mark (node tag attrs) s.next) hs (Nat.le_trans hmark hattrs.le)
  have htagged := (hattrs.andThen hmarker).stay hnames holdTag
    (NodeKind.isTemplate_of_isOpenTag htag) inTag
  have hall := htagged.andThen (hrest holdRest _ (Nat.le_trans hmark htagged.le))
  refine (hall.earlier (Nat.le_add_right _ _) rfl).congr ?_ ?_
  · rw [noTemplate_node, List.append_nil]
    exact And.right
  · intro x path hx _
    rw [List.append_nil] at hx
    exact ⟨_, hx.under a⟩

theorem moved {name value : Branch} {rest : List Branch} {calls : List LoggingCall}
    (hkind : a.kind = .htmlAttribute) (hcalls : value.loggingCalls = call :: calls)
    (hname : Attached o start [name] (rewrite o inTag none name))
    (hrest : Attached o start rest (rewriteAll o inTag rest)) :
    Attached o start [node a (name :: value :: rest)]
      (rewrite o inTag none (node a (name :: value :: rest))) := by
  rw [rewrite_move hkind hcalls]
  intro hold s hs
  rw [labelsAll, labelsAll, List.append_nil, labels, labelsAll, labelsAll] at hold
  simp only [List.mem_cons, List.mem_append, or_imp, forall_and, forall_eq] at hold
  obtain ⟨ha, holdName, -, holdRest⟩ := hold
  have holdName : ∀ x ∈ labelsAll [name], x.id.index < start := by
    rwa [labelsAll, labelsAll, List.append_nil]
  have hsent : Attaches o start [] [name] s
      ((moveOut o a name call s).growth inTag, (moveOut o a name call s).tally) :=
    attaches_growth (fun y path hy _ => .old holdName hy) hs
  have hlater := Nat.le_trans hs hsent.le
  obtain ⟨bs, hbs, hkept⟩ := exists_attaches_name a call (hname holdName) hs
  have hboth := hkept.andThen (attaches_value o start a name call s _)
  have hbody := hboth.andThen (hrest holdRest _ (Nat.le_trans hlater hboth.le))
  have hsub : bs ++ [] ++ rest ⊆ name :: value :: rest := by
    rw [List.append_nil]
    refine List.append_subset.mpr ⟨List.Subset.trans hbs ?_, ?_⟩
    · exact List.cons_subset_cons name (List.nil_subset _)
    · exact fun b hb => List.mem_cons_of_mem _ (List.mem_cons_of_mem _ hb)
  have hattribute := hbody.stay (Or.inl rfl) ha (NodeKind.isTemplate_of_attribute hkind) inTag
  refine (hsent.andThen hattribute).congr ?_ ?_
  · intro hflat
    obtain ⟨htemplate, hcs⟩ := noTemplate_node.mp hflat
    refine NoTemplate.append_iff.mpr ⟨fun x hx => ?_, noTemplate_node.mpr ⟨htemplate, ?_⟩⟩
    · exact hcs x (labelsAll_subset (List.cons_subset_cons name (List.nil_subset _)) hx)
    · exact fun x hx => hcs x (labelsAll_subset hsub hx)
  · intro x path hx htag
    rcases hx.of_append with hx | hx
    · exact ⟨_, (hx.mono (List.cons_subset_cons name (List.nil_subset _))).under a⟩
    · rcases hx.of_node with rfl | ⟨path, hx⟩
      · rw [kind_node, hkind] at htag
        cases htag
      · exact ⟨_, (hx.mono hsub).under a⟩

end Attached

theorem compositional_attached (o : InstrumentOptions) (start : Nat) :
    Compositional o (Attached o start) where
  still := .still
  andThen := .andThen
  under := .under
  block := .block
  moved := .moved

end TemplateLogging
