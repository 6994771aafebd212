import TemplateLogging.Proofs.Erasure
import TemplateLogging.Proofs.Numbering

namespace TemplateLogging

open Instrument Rose

theorem NodeKind.isTemplate_of_isOpenTag {k : NodeKind} (h : k.isOpenTag = true) :
    k.isTemplate = false := by
  cases k with
  | template _ _ => cases h
  | _ => rfl

theorem NodeKind.ne_attribute_of_isOpenTag {k : NodeKind} (h : k.isOpenTag = true) :
    k ≠ .htmlAttribute := by
  rintro rfl
  cases h

variable {o : InstrumentOptions} {start : Nat} {a : Item} {name n : Branch} {call : LoggingCall}
  {s : Tally} {x : Item} {y : Branch} {path : List Item} {inTag : Bool} {rest whole : List Branch}

theorem of_mem_conditionalAttribute {next : Nat} {name value : Expr} {place : Location}
    (hx : x ∈ (conditionalAttribute next name value place).labels) :
    x.kind ≠ .attributeValue .double ∧ (∀ v, x.kind ≠ .letContent v) ∧
      x.kind.isTemplate = false ∧ x.kind.isOpenTag = false ∧ ∀ e, x.kind = .print e true →
        e = name ∧ x.id.index = next + 1 ∨ e = value := by
  simp only [conditionalAttribute, metadataIf, printedAttribute, leaf, labels, labelsAll,
    List.append_nil, List.cons_append, List.nil_append, List.mem_cons, List.not_mem_nil,
    or_false] at hx
  rcases hx with rfl | rfl | rfl | rfl | rfl | rfl
  all_goals refine ⟨by simp, by simp, rfl, rfl, ?_⟩
  · exact fun _ => NodeKind.noConfusion
  · exact fun _ => NodeKind.noConfusion
  · exact fun _ => NodeKind.noConfusion
  · rintro e ⟨⟩
    exact Or.inl ⟨rfl, rfl⟩
  · exact fun _ => NodeKind.noConfusion
  · rintro e ⟨⟩
    exact Or.inr rfl

theorem renderCall_ne (call : LoggingCall) (e : Expr) (m : Nat) :
    renderCall call e ≠ functionAttributeName o m :=
  nofun

theorem markerName_ne (m : Nat) : markerName o ≠ functionAttributeName o m :=
  nofun

theorem marker_ne (id : Int64) (block : LogBlock) (m : Nat) :
    marker id block ≠ functionAttributeName o m :=
  nofun

/-- The branch stands for the name of an attribute that is moved: for a literal it has the same
kind, else it is a reference to the variable. -/
def Names (o : InstrumentOptions) (a : Item) (name : Branch) (call : LoggingCall) (s : Tally)
    (n : Branch) : Prop :=
  n.kind = name.kind ∧ name.isLiteral = true ∨
    n = (moveOut o a name call s).name ∧ name.isLiteral = false

theorem names_self (o : InstrumentOptions) (a : Item) (name : Branch) (call : LoggingCall)
    (s : Tally) : Names o a name call s (moveOut o a name call s).name := by
  cases hlit : name.isLiteral with
  | true =>
      obtain ⟨text, hkind⟩ := exists_text_of_isLiteral hlit
      rw [moveOut_literal hkind]
      exact Or.inl ⟨rfl, hlit⟩
  | false => exact Or.inr ⟨rfl, hlit⟩

/-- What a moved attribute gets for its value, and what it sends out: its synthetic attribute, and
the variable for a name that is no literal. -/
theorem exists_sent (hn : Names o a name call s n) : ∃ first e, s.next ≤ first ∧
    first + 8 = (moveOut o a name call s).tally.next ∧
      (moveOut o a name call s).value =
        placeholder (first + 6) call.function.placeholder a.location ∧
      (moveOut o a name call s).conditional =
        conditionalAttribute first (functionAttributeName o s.number) (renderCall call e)
          a.location ∧
      ((∃ text, n.kind = .rawText text) ∧ (moveOut o a name call s).bindings = [] ∨
        first = s.next + 2 ∧
          n = leaf (s.next + 1) (.print (.varRef (variableName o s.number)) true) a.location ∧
            (moveOut o a name call s).bindings =
              [binding s.next (variableName o s.number) name]) := by
  rcases hn with ⟨hn, hlit⟩ | ⟨rfl, hlit⟩
  · obtain ⟨text, hkind⟩ := exists_text_of_isLiteral hlit
    rw [moveOut_literal hkind]
    exact ⟨s.next, _, Nat.le_refl _, rfl, rfl, rfl, Or.inl ⟨⟨text, hn.trans hkind⟩, rfl⟩⟩
  · rw [moveOut_computed hlit]
    exact ⟨s.next + 2, _, Nat.le_add_right _ _, rfl, rfl, rfl, Or.inr ⟨rfl, rfl, rfl⟩⟩

theorem mem_whole_growth {m : Move} {b : Branch} :
    b ∈ (m.growth inTag).whole ↔ b ∈ m.bindings ∨ b = m.conditional := by
  cases inTag <;> simp [Move.growth, Growth.bound, Growth.whole]

theorem labels_binding (next : Nat) (varName : String) (name : Branch) :
    (binding next varName name).labels =
      ⟨⟨next⟩, .letContent varName, name.label.location⟩ :: name.labels := by
  rw [binding, labels, labelsAll, labelsAll, List.append_nil]

theorem not_placeholder_of_mem_growth (hname : ∀ x ∈ name.labels, x.Neutral o start)
    (hx : x ∈ ((moveOut o a name call s).growth inTag).labels) :
    x.isPlaceholder start = false := by
  obtain ⟨first, e, -, -, -, hconditional, hbound⟩ := exists_sent (names_self o a name call s)
  rcases mem_labels_growth.mp hx with hx | hx
  · rcases hbound with ⟨-, hnone⟩ | ⟨-, -, hbinding⟩
    · rw [hnone] at hx
      cases hx
    · rw [hbinding, labelsAll, labelsAll, List.append_nil, labels_binding, List.mem_cons] at hx
      rcases hx with rfl | hx
      · exact Item.isPlaceholder_eq_false NodeKind.noConfusion
      · exact (hname x hx).not_placeholder
  · rw [hconditional] at hx
    exact Item.isPlaceholder_eq_false (of_mem_conditionalAttribute hx).1

theorem owned_of_mem_growth (hname : ∀ x ∈ name.labels, x.Neutral o start)
    (hn : Names o a name call s n)
    (hx : x ∈ ((moveOut o a name call s).growth inTag).labels) (hnew : start ≤ x.id.index) :
    Owned o x [node a (n :: (moveOut o a name call s).value :: rest)] := by
  obtain ⟨first, e, -, -, hvalue, hconditional, hbound⟩ := exists_sent hn
  rcases mem_labels_growth.mp hx with hx | hx
  · rcases hbound with ⟨-, hnone⟩ | ⟨-, rfl, hbinding⟩
    · rw [hnone] at hx
      cases hx
    · rw [hbinding, labelsAll, labelsAll, List.append_nil, labels_binding, List.mem_cons] at hx
      rcases hx with rfl | hx
      · refine ⟨?_, fun _ => NodeKind.noConfusion⟩
        rintro v ⟨⟩
        exact ⟨_, List.mem_singleton_self _, _, rfl, rfl, rfl⟩
      · exact (hname x hx).owned hnew _
  · rw [hconditional] at hx
    obtain ⟨-, hlet, -, -, hprint⟩ := of_mem_conditionalAttribute hx
    refine ⟨fun v hkind => absurd hkind (hlet v), fun m hkind => ?_⟩
    obtain ⟨-, hid⟩ := (hprint _ hkind).resolve_right fun h => renderCall_ne call e m h.symm
    refine ⟨_, List.mem_singleton_self _, ?_⟩
    show (moveOut o a name call s).value.id.index = x.id.index + 5
    rw [hvalue, hid]
    rfl

theorem occurs_of_growth (hy : Occurs y path ((moveOut o a name call s).growth inTag).whole) :
    (∃ path, Occurs y path [name]) ∨ y.kind.isTemplate = false ∧ y.kind.isOpenTag = false := by
  obtain ⟨first, e, -, -, -, hconditional, hbound⟩ := exists_sent (names_self o a name call s)
  have hmem : ∀ b ∈ ((moveOut o a name call s).growth inTag).whole,
      (∃ next varName, b = binding next varName name) ∨
        b = (moveOut o a name call s).conditional := by
    intro b hb
    refine (mem_whole_growth.mp hb).imp_left fun hb => ?_
    rcases hbound with ⟨-, hnone⟩ | ⟨-, -, hbinding⟩
    · rw [hnone] at hb
      cases hb
    · rw [hbinding] at hb
      exact ⟨_, _, List.mem_singleton.mp hb⟩
  have hnew : ∀ path, Occurs y path [(moveOut o a name call s).conditional] →
      y.kind.isTemplate = false ∧ y.kind.isOpenTag = false := by
    intro path hocc
    have hlabel := hocc.label_mem
    rw [hconditional, labelsAll, labelsAll, List.append_nil] at hlabel
    obtain ⟨-, -, htemplate, htag, -⟩ := of_mem_conditionalAttribute hlabel
    exact ⟨htemplate, htag⟩
  cases hy with
  | here hy =>
      rcases hmem _ hy with ⟨next, varName, rfl⟩ | hy
      · exact Or.inr ⟨rfl, rfl⟩
      · exact Or.inr (hnew [] (.here (List.mem_singleton.mpr hy)))
  | inside hb hy =>
      rcases hmem _ hb with ⟨next, varName, hb⟩ | hb
      · cases hb
        exact Or.inl ⟨_, hy⟩
      · exact Or.inr (hnew _ (.inside (List.mem_singleton.mpr hb) hy))

theorem carries_moveOut (hn : Names o a name call s n)
    (hsub : ((moveOut o a name call s).growth inTag).whole ⊆ whole) :
    Carries o s.number whole (node a (n :: (moveOut o a name call s).value :: rest)) := by
  obtain ⟨first, e, -, -, hvalue, hconditional, hbound⟩ := exists_sent hn
  refine ⟨⟨first, renderCall call e, a.location, [], ?_, .here ?_⟩, hbound.imp ?_ ?_⟩
  · show (moveOut o a name call s).value.id.index = first + 6
    rw [hvalue]
    rfl
  · rw [← hconditional]
    exact hsub (mem_whole_growth.mpr (Or.inr rfl))
  · rintro ⟨⟨text, hkind⟩, -⟩
    exact ⟨n, text, rfl, hkind⟩
  · rintro ⟨-, rfl, hbinding⟩
    refine ⟨s.next, name, [], ⟨_, rfl, rfl, rfl⟩, .here (hsub (mem_whole_growth.mpr (Or.inl ?_)))⟩
    rw [hbinding]
    exact List.mem_singleton_self _

theorem neutral_leaf {next : Nat} {e : Expr} {place : Location}
    (he : ∀ m, e ≠ functionAttributeName o m) :
    ∀ x ∈ (leaf next (.print e true) place).labels, x.Neutral o start := by
  intro x hx
  rw [leaf, labels, labelsAll, List.mem_singleton] at hx
  subst hx
  refine Or.inr ⟨NodeKind.noConfusion, fun _ => NodeKind.noConfusion, ?_⟩
  rintro m ⟨⟩
  exact he m rfl

theorem numbers_placeholder (next : Nat) (text : String) (place : Location) (s : Tally) :
    Numbers o start [] s (Work.still [placeholder next text place] s) := by
  have hlabels : ∀ x ∈ labelsAll [placeholder next text place],
      x.kind = .attributeValue .double ∨ ∃ text, x.kind = .rawText text := by
    intro x hx
    simp only [placeholder, leaf, labels, labelsAll, List.append_nil, List.mem_cons,
      List.not_mem_nil, or_false] at hx
    rcases hx with rfl | rfl
    · exact Or.inl rfl
    · exact Or.inr ⟨_, rfl⟩
  have hstill : Numbers o start [placeholder next text place] s
      (Work.still [placeholder next text place] s) := by
    refine .still ?_ ?_ s
    · rw [moved, List.filter_eq_nil_iff]
      intro y hy hmoved
      obtain ⟨b, _, _, _, rfl, hkind, -⟩ := exists_of_isMoved hmoved
      obtain ⟨path, hocc⟩ := exists_occurs_of_mem_subtreesAll hy
      rcases hlabels _ hocc.label_mem with h | ⟨_, h⟩ <;> rw [label_node, hkind] at h <;> cases h
    · intro x hx hnew
      refine ⟨fun v hkind => ?_, fun m hkind => ?_⟩
      · rcases hlabels x hx with h | ⟨_, h⟩ <;> rw [hkind] at h <;> cases h
      · rcases hlabels x hx with h | ⟨_, h⟩ <;> rw [hkind] at h <;> cases h
  refine hstill.forget fun x hx => ?_
  rcases hlabels x hx with h | ⟨_, h⟩ <;> rw [h] <;> rfl

theorem moved_growth (hname : ∀ x ∈ name.labels, x.Neutral o start) :
    moved start ((moveOut o a name call s).growth inTag).forest = [] := by
  apply moved_eq_nil
  intro x hx
  exact not_placeholder_of_mem_growth hname (Growth.mem_labels.mpr (Or.inl hx))

theorem isMoved_moveOut (hs : start ≤ s.next) (hkind : a.kind = .htmlAttribute)
    (hn : Names o a name call s n) (rest : List Branch) :
    (node a (n :: (moveOut o a name call s).value :: rest)).isMoved start = true ∧
      s.next ≤ (node a (n :: (moveOut o a name call s).value :: rest)).valueIndex ∧
        (node a (n :: (moveOut o a name call s).value :: rest)).valueIndex <
          (moveOut o a name call s).tally.next := by
  obtain ⟨first, e, hfirst, hnext, hvalue, -⟩ := exists_sent hn
  rw [← hnext, hvalue]
  refine ⟨isMoved_node hkind ?_, ?_, ?_⟩
  · rw [placeholder, label_node, Item.isPlaceholder, Bool.and_eq_true]
    exact ⟨decide_eq_true (Nat.le_add_right_of_le (Nat.le_trans hs hfirst)), rfl⟩
  · show s.next ≤ first + 6
    omega
  · show first + 6 < first + 8
    omega

theorem templates_moved {r : Growth Item × Tally} {bs cs : List Branch} {s' : Tally}
    (hkind : a.kind = .htmlAttribute) (hname : ∀ x ∈ name.labels, x.Neutral o start)
    (hbody : Numbers o start bs s' r) (hsub : name :: bs ⊆ cs)
    (hy : Occurs y path ((moveOut o a name call s).growth inTag ++ r.1.wrap inTag a).whole)
    (htemplate : y.kind.isTemplate = true) :
    ∃ x path, Occurs x path [node a cs] ∧ x.label = y.label ∧
      (NoTemplate x.children → Numbered o 0
        ((moveOut o a name call s).growth inTag ++ r.1.wrap inTag a).whole
          (moved start y.children)) := by
  obtain ⟨hmem, hbs⟩ := List.cons_subset.mp hsub
  rcases Growth.occurs_of_append hy with hy | hy
  · obtain ⟨path, hy⟩ := (occurs_of_growth hy).resolve_right fun hnone =>
      Bool.false_ne_true (hnone.1.symm.trans htemplate)
    have hnone : moved start y.children = [] := by
      refine moved_children_eq_nil (moved_eq_nil fun x hx => ?_) hy
      rw [labelsAll, labelsAll, List.append_nil] at hx
      exact (hname x hx).not_placeholder
    refine ⟨y, _, (hy.mono ?_).under a, rfl, fun _ => ?_⟩
    · exact List.cons_subset.mpr ⟨hmem, List.nil_subset _⟩
    · rw [hnone]
      exact .nil
  · have hself : ∀ ds, y ≠ node a ds := by
      rintro ds rfl
      rw [kind_node, hkind] at htemplate
      cases htemplate
    rcases Growth.occurs_of_wrap hy with heq | heq | ⟨path, hy⟩
    · exact absurd heq (hself _)
    · exact absurd heq (hself _)
    · obtain ⟨x, path, hx, hlabel, hnumbered⟩ := hbody.templates y path hy htemplate
      refine ⟨x, _, (hx.mono hbs).under a, hlabel, fun hflat => (hnumbered hflat).imp ?_⟩
      intro z path hz
      obtain ⟨path, hz⟩ := Growth.occurs_wrap hz inTag a
      exact ⟨path, hz.mono (Growth.whole_subset_right _ _)⟩

theorem numbers_moved {value : Branch} {bs more : List Branch} {r : Growth Item × Tally}
    (hs : start ≤ s.next) (hkind : a.kind = .htmlAttribute)
    (ha : a.Neutral o start) (hname : ∀ x ∈ name.labels, x.Neutral o start)
    (hbody : Numbers o start bs (moveOut o a name call s).tally r)
    (hbs : bs ⊆ name :: value :: rest) (hn : Names o a name call s n)
    (hforest : r.1.forest = n :: (moveOut o a name call s).value :: more) :
    Numbers o start [node a (name :: value :: rest)] s
      ((moveOut o a name call s).growth inTag ++ r.1.wrap inTag a, r.2) := by
  obtain ⟨hself, hlower, hupper⟩ := isMoved_moveOut hs hkind hn more
  rw [← hforest] at hself hlower hupper
  have hwrap : r.1.wrap inTag a = r.1.under a :=
    Growth.wrap_eq_under _ inTag (NodeKind.isOpenTag_of_attribute hkind)
      (NodeKind.isTemplate_of_attribute hkind)
  have hmoved : moved start ((moveOut o a name call s).growth inTag ++ r.1.wrap inTag a).forest =
      node a r.1.forest :: moved start r.1.forest := by
    rw [hwrap, Growth.forest_append, moved_append, moved_growth hname, List.nil_append]
    exact moved_of_isMoved hself
  have hle := hbody.le
  constructor
  · exact Nat.le_trans (Nat.le_trans hlower (Nat.le_of_lt hupper)) hle
  · intro x hx
    rw [hwrap, Growth.bindings_append, Growth.attributes_append] at hx
    simp only [labelsAll_append, List.mem_append] at hx
    have hgrowth : x ∈ ((moveOut o a name call s).growth inTag).labels →
        x.isPlaceholder start = false := not_placeholder_of_mem_growth hname
    have hquiet := hbody.quiet x
    rw [Growth.mem_labels] at hgrowth
    rw [labelsAll_append, List.mem_append] at hquiet
    rw [Growth.under] at hx
    tauto
  · intro y hy
    rw [hmoved, List.mem_cons] at hy
    show s.next ≤ y.valueIndex ∧ y.valueIndex < r.2.next
    rcases hy with rfl | hy
    · omega
    · have hrange := hbody.range y hy
      omega
  · intro x hx hnew
    rw [hmoved]
    rcases Growth.mem_labels_append.mp hx with hx | hx
    · have howned : Owned o x [node a (n :: (moveOut o a name call s).value :: more)] :=
        owned_of_mem_growth hname hn hx hnew
      rw [← hforest] at howned
      exact howned.mono (List.cons_subset_cons _ (List.nil_subset _))
    · rcases Growth.mem_labels_wrap.mp hx with rfl | hx
      · exact ha.owned hnew _
      · exact (hbody.owned x hx hnew).mono (List.subset_cons_self _ _)
  · intro hflat
    have hcs := (noTemplate_node.mp hflat).2
    obtain ⟨hnumbered, hcount⟩ := hbody.counted fun x hx => hcs x (labelsAll_subset hbs hx)
    rw [number_moveOut] at hnumbered hcount
    rw [hmoved, List.length_cons, Nat.add_comm _ 1, ← Nat.add_assoc]
    refine ⟨.cons ?_ (hnumbered.imp fun y path hy => ?_) ?_, hcount⟩
    · rw [hforest]
      exact carries_moveOut hn (Growth.whole_subset_left _ _)
    · obtain ⟨path, hy⟩ := Growth.occurs_wrap hy inTag a
      exact ⟨path, hy.mono (Growth.whole_subset_right _ _)⟩
    · intro z hz
      have hrange := hbody.range z hz
      omega
  · intro y path hy htemplate
    exact templates_moved hkind hname hbody (List.cons_subset.mpr ⟨List.mem_cons_self, hbs⟩) hy
      htemplate

theorem exists_forest_of_isLiteral {mark : Option Mark} (h : name.isLiteral = true) (s : Tally) :
    ∃ n, (rewrite o inTag mark name s).1.forest = [n] ∧ n.kind = name.kind := by
  obtain ⟨text, hkind⟩ := exists_text_of_isLiteral h
  obtain ⟨b, cs⟩ := name
  rw [kind_node] at hkind
  have hplain : b.kind.isPlain = true := by
    rw [hkind]
    rfl
  rw [rewrite_plain hplain, Work.under, Growth.wrap_eq_under _ _
    (NodeKind.isOpenTag_of_isPlain hplain) (NodeKind.isTemplate_of_isPlain hplain)]
  exact ⟨_, rfl, rfl⟩

theorem numbers_kept {value : Branch} {bs : List Branch} {kept : Work Item Tally}
    (hs : start ≤ s.next) (hkind : a.kind = .htmlAttribute) (ha : a.Neutral o start)
    (hname : ∀ x ∈ name.labels, x.Neutral o start) (hbs : bs ⊆ [name])
    (hkept : Numbers o start bs (moveOut o a name call s).tally
      (kept (moveOut o a name call s).tally))
    (hforest : (kept (moveOut o a name call s).tally).1.forest = [n])
    (hn : Names o a name call s n)
    (hrest : ∀ s, start ≤ s.next → Numbers o start rest s (rewriteAll o inTag rest s)) :
    Numbers o start [node a (name :: value :: rest)] s
      (let m := moveOut o a name call s
        let r := ((kept.andThen (.still [m.value])).andThen (rewriteAll o inTag rest)).under inTag a
          m.tally
        (m.growth inTag ++ r.1, r.2)) := by
  obtain ⟨first, e, -, -, hvalue, -⟩ := exists_sent hn
  have hplaced : ∀ s', Numbers o start [] s'
      (Work.still [(moveOut o a name call s).value] s') := by
    intro s'
    rw [hvalue]
    exact numbers_placeholder _ _ _ _
  have hlater := add_eight_le_moveOut o a name call s
  have hboth := hkept.andThen (hplaced _)
  have hle := hboth.le
  have hall := hboth.andThen (hrest _ (by omega))
  have hmore : (((kept.andThen (.still [(moveOut o a name call s).value])).andThen
      (rewriteAll o inTag rest)) (moveOut o a name call s).tally).1.forest =
        n :: (moveOut o a name call s).value :: (rewriteAll o inTag rest
          ((kept.andThen (.still [(moveOut o a name call s).value]))
            (moveOut o a name call s).tally).2).1.forest := by
    show (kept (moveOut o a name call s).tally).1.forest ++ [(moveOut o a name call s).value] ++ _ =
      _
    rw [hforest]
    rfl
  refine numbers_moved hs hkind ha hname hall ?_ hn hmore
  rw [List.append_nil]
  refine List.append_subset.mpr ⟨List.Subset.trans hbs ?_, ?_⟩
  · exact List.cons_subset_cons name (List.nil_subset _)
  · exact fun b hb => List.mem_cons_of_mem _ (List.mem_cons_of_mem _ hb)

theorem numbers_attribute {value : Branch} {calls : List LoggingCall}
    {mark : Option Mark} (hs : start ≤ s.next) (hkind : a.kind = .htmlAttribute)
    (hcalls : value.loggingCalls = call :: calls) (ha : a.Neutral o start)
    (hname : ∀ x ∈ name.labels, x.Neutral o start)
    (hkept : ∀ s, start ≤ s.next → name.isLiteral = true →
      Numbers o start [name] s (rewrite o inTag none name s))
    (hrest : ∀ s, start ≤ s.next → Numbers o start rest s (rewriteAll o inTag rest s)) :
    Numbers o start [node a (name :: value :: rest)] s
      (rewrite o inTag mark (node a (name :: value :: rest)) s) := by
  have hlater := add_eight_le_moveOut o a name call s
  rw [rewrite_move hkind hcalls]
  cases hlit : name.isLiteral with
  | true =>
      obtain ⟨n, hforest, hn⟩ := exists_forest_of_isLiteral hlit (moveOut o a name call s).tally
      exact numbers_kept hs hkind ha hname (List.Subset.refl _) (hkept _ (by omega) hlit) hforest
        (Or.inl ⟨hn, hlit⟩) hrest
  | false =>
      have hneutral : ∀ x ∈ labelsAll [(moveOut o a name call s).name],
          x.Neutral o start ∧ x.kind.isTemplate = false := by
        rw [moveOut_computed hlit]
        intro x hx
        rw [labelsAll, labelsAll, List.append_nil] at hx
        refine ⟨neutral_leaf (fun _ => Expr.noConfusion) x hx, ?_⟩
        rw [leaf, labels, labelsAll, List.mem_singleton] at hx
        rw [hx]
        rfl
      have hstill := (Numbers.of_neutral (fun x hx => (hneutral x hx).1)
        (moveOut o a name call s).tally).forget fun x hx => (hneutral x hx).2
      exact numbers_kept hs hkind ha hname (List.nil_subset _) hstill rfl
        (names_self o a name call s) hrest

theorem tops_attribute {value : Branch} {calls : List LoggingCall} {mark : Option Mark}
    (hkind : a.kind = .htmlAttribute) (hcalls : value.loggingCalls = call :: calls)
    (ha : a.Neutral o start) (hname : ∀ x ∈ name.labels, x.Neutral o start) (s : Tally) :
    Tops start (rewrite o inTag mark (node a (name :: value :: rest)) s).1 := by
  rw [rewrite_move hkind hcalls]
  refine .append ?_ ?_
  · intro c hc
    have hmem : c.label ∈ ((moveOut o a name call s).growth inTag).labels :=
      Growth.mem_labels.mpr (Or.inl (mem_labelsAll hc c.label_mem_labels))
    exact not_placeholder_of_mem_growth hname hmem
  · intro c hc
    rw [Work.under, Growth.wrap_eq_under _ _ (NodeKind.isOpenTag_of_attribute hkind)
      (NodeKind.isTemplate_of_attribute hkind), Growth.under, List.mem_singleton] at hc
    rw [hc]
    exact ha.not_placeholder

theorem LogBlock.mark_ne (block : LogBlock) (tag : Branch) (next m : Nat) :
    (block.mark tag next).value ≠ functionAttributeName o m :=
  marker_ne _ block m

theorem loggingCalls_unquoted (next : Nat) (value : Expr) (place : Location) :
    (node ⟨⟨next⟩, .attributeValue .none, place⟩
      [leaf (next + 1) (.print value true) place] : Branch).loggingCalls = value.loggingCalls := by
  simp [leaf, loggingCalls, loggingCallsAll, NodeKind.exprs]

theorem rewriteMark_call {m : Mark} {calls : List LoggingCall}
    (h : m.value.loggingCalls = call :: calls) :
    rewriteMark o (some m) =
      ((rewrite o true none (printedAttribute m.next (markerName o) m.value m.place)).under true
        ⟨⟨m.next + 5⟩, .ifCond (.call (.builtin .hasLoggingMetadata) []), m.place⟩).under true
          ⟨⟨m.next + 4⟩, .ifBlock, m.place⟩ := by
  have hvalue := (loggingCalls_unquoted (m.next + 2) m.value m.place).trans h
  funext s
  rw [rewriteMark, h, printedAttribute, rewrite_move rfl hvalue]
  rfl

theorem numbers_mark {m : Mark} (hvalue : ∀ n, m.value ≠ functionAttributeName o n)
    (hs : start ≤ s.next) : Numbers o start [] s (rewriteMark o (some m) s) ∧
      Tops start (rewriteMark o (some m) s).1 := by
  cases hcalls : m.value.loggingCalls with
  | nil =>
      have hneutral : ∀ x ∈ labelsAll [m.branch o], x.Neutral o start := by
        intro x hx
        rw [labelsAll, labelsAll, List.append_nil, Mark.branch] at hx
        obtain ⟨hdouble, hlet, -, -, hprint⟩ := of_mem_conditionalAttribute hx
        refine Or.inr ⟨hdouble, hlet, fun n hkind => ?_⟩
        rcases hprint _ hkind with ⟨h, -⟩ | h
        · exact markerName_ne n h.symm
        · exact hvalue n h.symm
      rw [rewriteMark_still hcalls]
      refine ⟨(Numbers.of_neutral hneutral s).forget fun x hx => ?_, .of_neutral hneutral⟩
      rw [labelsAll, labelsAll, List.append_nil, Mark.branch] at hx
      exact (of_mem_conditionalAttribute hx).2.2.1
  | cons call calls =>
      have hcalls' := (loggingCalls_unquoted (m.next + 2) m.value m.place).trans hcalls
      have hattr : Item.Neutral o start ⟨⟨m.next⟩, .htmlAttribute, m.place⟩ := Or.inr
        ⟨NodeKind.noConfusion, fun _ => NodeKind.noConfusion, fun _ => NodeKind.noConfusion⟩
      have hcond : Item.Neutral o start ⟨⟨m.next + 5⟩,
          .ifCond (.call (.builtin .hasLoggingMetadata) []), m.place⟩ := Or.inr
        ⟨NodeKind.noConfusion, fun _ => NodeKind.noConfusion, fun _ => NodeKind.noConfusion⟩
      have hif : Item.Neutral o start ⟨⟨m.next + 4⟩, .ifBlock, m.place⟩ := Or.inr
        ⟨NodeKind.noConfusion, fun _ => NodeKind.noConfusion, fun _ => NodeKind.noConfusion⟩
      have hattribute : Numbers o start [printedAttribute m.next (markerName o) m.value m.place] s
          (rewrite o true none (printedAttribute m.next (markerName o) m.value m.place) s) := by
        refine numbers_attribute hs rfl hcalls' hattr (neutral_leaf markerName_ne) ?_ ?_
        · intro s _ hlit
          cases hlit
        · intro s _
          rw [rewriteAll_nil]
          exact .of_neutral (fun x hx => by cases hx) s
      have hunder := hattribute.under hcond rfl rfl (isMoved_eq_false NodeKind.noConfusion _) true
      rw [rewriteMark_call hcalls]
      refine ⟨(hunder.under hif rfl rfl (isMoved_eq_false NodeKind.noConfusion _) true).forget ?_,
        .wrap hunder.quiet hif true⟩
      intro x hx
      rw [labelsAll, labelsAll, List.append_nil] at hx
      have hmem : x ∈ (m.branch o).labels := hx
      exact (of_mem_conditionalAttribute hmem).2.2.1

/-- A property of the work on branches that comes from the work on their parts. Work starts with the
number zero below a template and with the old one below any other node. -/
structure Compositional (o : InstrumentOptions) (P : List Branch → Work Item Tally → Prop) :
    Prop where
  still (bs : List Branch) : P bs (.still bs)
  andThen {bs cs f g} (h : P bs f) (h' : P cs g) : P (bs ++ cs) (f.andThen g)
  under {a cs f} (h : P cs f) (enter : Tally → Tally) (hnext : ∀ s, (enter s).next = s.next)
    (hnumber : ∀ s, (enter s).number = if a.kind.isTemplate then 0 else s.number)
    (inTag : Bool) : P [node a cs] fun s => f.under inTag a (enter s)
  block {inTag a block tag attrs rest} (hkind : a.kind = .logBlock block)
    (htag : tag.kind.isOpenTag = true) (hattrs : P attrs (rewriteAll o true attrs))
    (hrest : P rest (rewriteAll o inTag rest)) :
    P [node a (node tag attrs :: rest)] (rewrite o inTag none (node a (node tag attrs :: rest)))
  moved {inTag a name value rest call} (hkind : a.kind = .htmlAttribute)
    (hcalls : value.loggingCalls = [call]) (hname : P [name] (rewrite o inTag none name))
    (hrest : P rest (rewriteAll o inTag rest)) :
    P [node a (name :: value :: rest)] (rewrite o inTag none (node a (name :: value :: rest)))

namespace Compositional

variable {P : List Branch → Work Item Tally → Prop} {cs : List Branch} {f : Work Item Tally}

theorem stay (h : Compositional o P) (hcs : P cs f) (htemplate : a.kind.isTemplate = false)
    (inTag : Bool) : P [node a cs] (f.under inTag a) := by
  refine h.under hcs id (fun _ => rfl) (fun s => ?_) inTag
  rw [htemplate]
  rfl

theorem hereditary (h : Compositional o P) : Hereditary
    (fun inTag _ b => P [b] (rewrite o inTag none b))
    (fun inTag _ bs => P bs (rewriteAll o inTag bs)) where
  nil {_ _} := by
    rw [rewriteAll_nil]
    exact h.still []
  cons hb hbs := by
    rw [rewriteAll_cons]
    exact h.andThen hb hbs
  dependency hkind := by
    rw [rewrite_dependency hkind]
    exact h.still _
  source hkind hcs := by
    rw [rewrite_source hkind]
    refine h.under hcs Tally.enterFile (fun _ => rfl) (fun s => ?_) _
    rw [hkind]
    rfl
  template hkind hcs := by
    rw [rewrite_template hkind]
    refine h.under hcs Tally.enterTemplate (fun _ => rfl) (fun s => ?_) _
    rw [hkind]
    rfl
  openTag htag hcs := by
    rw [rewrite_openTag htag, andThen_rewriteMark_none]
    exact h.stay hcs (NodeKind.isTemplate_of_isOpenTag htag) _
  block hkind _ htag hattrs hrest := h.block hkind htag hattrs hrest
  unmoved hkind hcalls hcs := by
    rw [rewrite_attribute hkind hcalls]
    exact h.stay hcs (NodeKind.isTemplate_of_attribute hkind) _
  moved hkind hcalls hname hrest := h.moved hkind hcalls hname hrest
  plain hplain hcs := by
    rw [rewrite_plain hplain]
    exact h.stay hcs (NodeKind.isTemplate_of_isPlain hplain) _

end Compositional

/-- The work on branches that were there before numbers the attributes that it moves, and leaves no
placeholder at the top. -/
def Counts (o : InstrumentOptions) (start : Nat) (bs : List Branch) (f : Work Item Tally) : Prop :=
  (∀ x ∈ labelsAll bs, x.id.index < start) → ∀ s, start ≤ s.next →
    Numbers o start bs s (f s) ∧ Tops start (f s).1

namespace Counts

variable {bs cs : List Branch} {f g : Work Item Tally}

theorem still (bs : List Branch) : Counts o start bs (.still bs) := by
  intro hold s _
  have hneutral : ∀ x ∈ labelsAll bs, x.Neutral o start := fun x hx => Or.inl (hold x hx)
  exact ⟨.of_neutral hneutral s, .of_neutral hneutral⟩

theorem andThen (h : Counts o start bs f) (h' : Counts o start cs g) :
    Counts o start (bs ++ cs) (f.andThen g) := by
  intro hold s hs
  simp only [labelsAll_append, List.forall_mem_append] at hold
  obtain ⟨hnumbers, htops⟩ := h hold.1 s hs
  obtain ⟨hnumbers', htops'⟩ := h' hold.2 (f s).2 (Nat.le_trans hs hnumbers.le)
  exact ⟨hnumbers.andThen hnumbers', htops.append htops'⟩

theorem under (h : Counts o start cs f) (enter : Tally → Tally)
    (hnext : ∀ s, (enter s).next = s.next)
    (hnumber : ∀ s, (enter s).number = if a.kind.isTemplate then 0 else s.number) (inTag : Bool) :
    Counts o start [node a cs] fun s => f.under inTag a (enter s) := by
  intro hold s hs
  rw [labelsAll, labelsAll, List.append_nil, labels, List.forall_mem_cons] at hold
  obtain ⟨ha, hcs⟩ := hold
  rw [← hnext s] at hs
  obtain ⟨hnumbers, htops⟩ := h hcs (enter s) hs
  have hneutral : a.Neutral o start := Or.inl ha
  exact ⟨hnumbers.under hneutral (hnext s) (hnumber s) (htops.isMoved_eq_false a) inTag,
    .wrap hnumbers.quiet hneutral inTag⟩

theorem block {block : LogBlock} {tag : Item} {attrs rest : List Branch}
    (hkind : a.kind = .logBlock block) (htag : tag.kind.isOpenTag = true)
    (hattrs : Counts o start attrs (rewriteAll o true attrs))
    (hrest : Counts o start rest (rewriteAll o inTag rest)) :
    Counts o start [node a (node tag attrs :: rest)]
      (rewrite o inTag none (node a (node tag attrs :: rest))) := by
  rw [rewrite_block hkind htag]
  intro hold s hs
  rw [labelsAll, labelsAll, List.append_nil, labels, labelsAll, labels] at hold
  simp only [List.mem_cons, List.mem_append, or_imp, forall_and, forall_eq] at hold
  obtain ⟨-, ⟨holdTag, holdAttrs⟩, holdRest⟩ := hold
  have hneutral : tag.Neutral o start := Or.inl holdTag
  have hmark : start ≤ s.markBlock.next := Nat.le_add_right_of_le hs
  obtain ⟨hnumbers, -⟩ := hattrs holdAttrs s.markBlock hmark
  obtain ⟨hmarker, -⟩ := numbers_mark (block.mark_ne (node tag attrs) s.next)
    (Nat.le_trans hmark hnumbers.le)
  have hnumber : s.markBlock.number = if tag.kind.isTemplate then 0 else s.markBlock.number := by
    rw [NodeKind.isTemplate_of_isOpenTag htag]
    rfl
  have hboth := hnumbers.andThen hmarker
  have htagged := hboth.under hneutral rfl hnumber
    (isMoved_eq_false (NodeKind.ne_attribute_of_isOpenTag htag) _) inTag
  obtain ⟨hnumbers', htops'⟩ := hrest holdRest _ (Nat.le_trans hmark htagged.le)
  have hall := htagged.andThen hnumbers'
  refine ⟨(hall.earlier (Nat.le_add_right _ _) rfl).congr ?_ ?_,
    (Tops.wrap hboth.quiet hneutral inTag).append htops'⟩
  · rw [noTemplate_node, List.append_nil]
    exact And.right
  · intro x path hx _
    rw [List.append_nil] at hx
    exact ⟨_, hx.under a⟩

theorem moved {name value : Branch} {rest : List Branch} (hkind : a.kind = .htmlAttribute)
    (hcalls : value.loggingCalls = [call])
    (hname : Counts o start [name] (rewrite o inTag none name))
    (hrest : Counts o start rest (rewriteAll o inTag rest)) :
    Counts o start [node a (name :: value :: rest)]
      (rewrite o inTag none (node a (name :: value :: rest))) := by
  intro hold s hs
  rw [labelsAll, labelsAll, List.append_nil, labels, labelsAll, labelsAll] at hold
  simp only [List.mem_cons, List.mem_append, or_imp, forall_and, forall_eq] at hold
  obtain ⟨ha, holdName, -, holdRest⟩ := hold
  have hneutral : a.Neutral o start := Or.inl ha
  have hnames : ∀ x ∈ name.labels, x.Neutral o start := fun x hx => Or.inl (holdName x hx)
  refine ⟨numbers_attribute hs hkind hcalls hneutral hnames ?_ ?_, ?_⟩
  · intro s hs _
    refine (hname ?_ s hs).1
    rwa [labelsAll, labelsAll, List.append_nil]
  · exact fun s hs => (hrest holdRest s hs).1
  · exact tops_attribute hkind hcalls hneutral hnames s

end Counts

end TemplateLogging
