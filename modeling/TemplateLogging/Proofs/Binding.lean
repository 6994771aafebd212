import TemplateLogging.Proofs.Erasure
import TemplateLogging.Proofs.References

namespace TemplateLogging

open Instrument Rose

/-- All references that the work puts in are bound. -/
structure Binds (inTag : Bool) (bs : List Branch) (f : Work Item Tally) : Prop where
  le : ∀ s, s.next ≤ (f s).2.next
  bound : ∀ s, ∀ y ∈ (f s).1.labels, y ∉ labelsAll bs → ∀ name deferred,
    y.kind.reference? = some (name, deferred) → Bound s.next inTag y name deferred (f s).1

namespace Binds

variable {inTag : Bool} {bs cs : List Branch} {f g : Work Item Tally} {a : Item}

theorem still (bs : List Branch) : Binds inTag bs (.still bs) where
  le s := Nat.le_refl _
  bound s y hy hold := by
    rw [Work.still, Growth.labels_forest] at hy
    exact absurd hy hold

theorem andThen (hf : Binds inTag bs f) (hg : Binds inTag cs g) :
    Binds inTag (bs ++ cs) (f.andThen g) where
  le s := Nat.le_trans (hf.le s) (hg.le _)
  bound s y hy hold name deferred hrefers := by
    rw [labelsAll_append, List.mem_append, not_or] at hold
    rcases Growth.mem_labels_append.mp hy with hy | hy
    · exact (hf.bound s y hy hold.1 name deferred hrefers).append_left _
    · exact ((hg.bound _ y hy hold.2 name deferred hrefers).earlier (hf.le s)).append_right _

theorem under (hf : Binds (a.kind.isOpenTag || inTag) cs f) :
    Binds inTag [.node a cs] (f.under inTag a) where
  le := hf.le
  bound s y hy hold name deferred hrefers := by
    rw [labelsAll, labelsAll, List.append_nil, labels, List.mem_cons, not_or] at hold
    have hy := (Growth.mem_labels_wrap.mp hy).resolve_left hold.1
    exact (hf.bound s y hy hold.2 name deferred hrefers).wrap

theorem enter {f : Tally → Work Item Tally} (hf : ∀ s, Binds inTag bs (f s)) {next : Tally → Tally}
    (hle : ∀ s, s.next ≤ (next s).next) : Binds inTag bs fun s => f s (next s) where
  le s := Nat.le_trans (hle s) ((hf s).le _)
  bound s y hy hold name deferred hrefers :=
    ((hf s).bound _ y hy hold name deferred hrefers).earlier (hle s)

theorem silent (hbs : ∀ y ∈ labelsAll bs, y.kind.reference? = none) :
    Binds inTag [] (.still bs) where
  le s := Nat.le_refl _
  bound s y hy _ name deferred hrefers := by
    rw [Work.still, Growth.labels_forest] at hy
    rw [hbs y hy] at hrefers
    cases hrefers

theorem unwrap (hf : Binds inTag cs f) (a : Item) : Binds inTag [.node a cs] f where
  le := hf.le
  bound s y hy hold := by
    rw [labelsAll, labelsAll, List.append_nil, labels, List.mem_cons, not_or] at hold
    exact hf.bound s y hy hold.2

theorem sends {out : Tally → Growth Item} {next : Tally → Tally} {body : Tally → Work Item Tally}
    {stays : Tally → List Branch} (hle : ∀ s, s.next ≤ (next s).next)
    (hbody : ∀ s, Binds inTag (stays s) (body s))
    (hout : ∀ s y, y ∈ (out s).labels ∨ y ∈ labelsAll (stays s) → y ∉ labelsAll bs →
      ∀ name deferred, y.kind.reference? = some (name, deferred) →
        Bound s.next inTag y name deferred (out s ++ (body s (next s)).1)) :
    Binds inTag bs fun s => (out s ++ (body s (next s)).1, (body s (next s)).2) where
  le s := Nat.le_trans (hle s) ((hbody s).le _)
  bound s y hy hold name deferred hrefers := by
    rcases Growth.mem_labels_append.mp hy with hy | hy
    · exact hout s y (Or.inl hy) hold name deferred hrefers
    · by_cases hstays : y ∈ labelsAll (stays s)
      · exact hout s y (Or.inr hstays) hold name deferred hrefers
      · exact (((hbody s).bound _ y hy hstays name deferred hrefers).earlier (hle s)).append_right _

end Binds

theorem reference?_conditionalAttribute {next : Nat} {name value : Expr} {place : Location}
    {y : Item} (hname : (NodeKind.print name true).reference? = none)
    (hy : y ∈ (conditionalAttribute next name value place).labels) :
    y.kind.reference? = none ∨ y = ⟨⟨next + 3⟩, .print value true, place⟩ := by
  simp only [conditionalAttribute, metadataIf, printedAttribute, leaf, labels, labelsAll,
    List.append_nil, List.cons_append, List.nil_append, List.mem_cons, List.not_mem_nil,
    or_false] at hy
  rcases hy with rfl | rfl | rfl | rfl | rfl | rfl
  · exact Or.inl rfl
  · exact Or.inl rfl
  · exact Or.inl rfl
  · exact Or.inl hname
  · exact Or.inl rfl
  · exact Or.inr rfl

theorem reference?_placeholder {next : Nat} {text : String} {place : Location} {y : Item}
    (hy : y ∈ (placeholder next text place).labels) : y.kind.reference? = none := by
  simp only [placeholder, leaf, labels, labelsAll, List.append_nil, List.mem_cons,
    List.not_mem_nil, or_false] at hy
  rcases hy with rfl | rfl
  · rfl
  · rfl

section

variable {o : InstrumentOptions} {inTag deferred : Bool} {a attr y : Item} {name value : Branch}
  {rest : List Branch} {call : LoggingCall} {s : Tally} {varName : String}

theorem reference?_value (hy : y ∈ (moveOut o a name call s).value.labels) :
    y.kind.reference? = none := by
  rw [moveOut] at hy
  split at hy
  · exact reference?_placeholder hy
  · exact reference?_placeholder hy

theorem reference?_literal (hlit : name.isLiteral = true)
    (hy : y ∈ ((moveOut o a name call s).growth inTag).labels) : y.kind.reference? = none := by
  obtain ⟨text, hkind⟩ := exists_text_of_isLiteral hlit
  rw [moveOut_literal hkind, mem_labels_growth] at hy
  rcases hy with hy | hy
  · cases hy
  · rcases reference?_conditionalAttribute rfl hy with hnone | rfl
    · exact hnone
    · exact reference?_renderCall call _

theorem bound_move {k : Growth Item} {path : List Item} (hlit : name.isLiteral = false)
    (hx : Occurs (moveOut o a name call s).name (attr :: path) k.forest)
    (hattr : attr.kind = .htmlAttribute) (hpath : inTag = false → path = [])
    (hy : y ∈ ((moveOut o a name call s).growth inTag).labels ∨
      y = (moveOut o a name call s).name.label) (hold : y ∉ name.labels)
    (hrefers : y.kind.reference? = some (varName, deferred)) :
    Bound s.next inTag y varName deferred ((moveOut o a name call s).growth inTag ++ k) := by
  let binding : Item := ⟨⟨s.next⟩, .letContent (variableName o s.number), name.label.location⟩
  let conditional := conditionalAttribute (s.next + 2) (functionAttributeName o s.number)
    (renderCall call (.varRef (variableName o s.number))) a.location
  have hbinding : binding ∈ ((moveOut o a name call s).growth inTag ++ k).labels := by
    refine Growth.mem_labels_append.mpr (Or.inl (mem_labels_growth.mpr (Or.inl ?_)))
    rw [moveOut_computed hlit]
    exact List.mem_cons_self
  have hsite : Site binding path ((moveOut o a name call s).growth inTag ++ k).forest := by
    refine ⟨_, attr, hx.mono (List.subset_append_right _ _), ?_, hattr⟩
    rw [moveOut_computed hlit]
    rfl
  rw [moveOut_computed hlit] at hx hy hbinding hsite ⊢
  rw [mem_labels_growth] at hy
  rcases hy with (hy | hy) | rfl
  · rw [labelsAll, labelsAll, List.append_nil, Rose.binding, labels, labelsAll, labelsAll,
      List.append_nil, List.mem_cons] at hy
    rcases hy with rfl | hy
    · cases hrefers
    · exact absurd hy hold
  · rcases reference?_conditionalAttribute rfl hy with hnone | rfl
    · rw [hnone] at hrefers
      cases hrefers
    · cases hrefers
      refine ⟨binding, hbinding, Nat.le_refl _, rfl, rfl, path, hsite, ?_⟩
      have hcall := mem_labelsAll (List.mem_cons_self (l := k.attributes)) hy
      rw [if_pos rfl]
      cases inTag with
      | true =>
          refine .sent rfl ?_
          show Precedes binding _
            (.node binding [name] :: (k.bindings ++ conditional :: k.attributes))
          refine .head ?_ _
          rw [labelsAll_append]
          exact List.mem_append_right _ hcall
      | false => exact .beside rfl (hpath rfl) List.mem_cons_self rfl hcall
  · cases hrefers
    refine ⟨binding, hbinding, Nat.le_refl _, rfl, rfl, path, hsite, ?_⟩
    rw [if_neg Bool.false_ne_true]
    cases inTag with
    | true =>
        show Precedes binding _ (.node binding [name] :: (k.bindings ++ k.forest))
        refine .head ?_ _
        rw [labelsAll_append]
        exact List.mem_append_right _ hx.label_mem
    | false =>
        show Precedes binding _ ([] ++ k.bindings ++ .node binding [name] :: k.forest)
        exact .here hx.label_mem

theorem binds_body {f : Work Item Tally} {stays : Branch} (hkind : a.kind = .htmlAttribute)
    (hstays : Binds inTag [stays] f) (hvalue : ∀ y ∈ value.labels, y.kind.reference? = none)
    (hrest : Binds inTag rest (rewriteAll o inTag rest)) :
    Binds inTag [.node a (stays :: rest)]
      (((f.andThen (.still [value])).andThen (rewriteAll o inTag rest)).under inTag a) := by
  have hsilent : ∀ y ∈ labelsAll [value], y.kind.reference? = none := by
    rwa [labelsAll, labelsAll, List.append_nil]
  have hbody := (hstays.andThen (.silent hsilent)).andThen hrest
  refine .under ?_
  rwa [NodeKind.isOpenTag_of_attribute hkind, Bool.false_or]

theorem next_le_moveOut (o : InstrumentOptions) (a : Item) (name : Branch) (call : LoggingCall)
    (s : Tally) : s.next ≤ (moveOut o a name call s).tally.next :=
  Nat.le_trans (Nat.le_add_right _ _) (add_eight_le_moveOut o a name call s)

theorem binds_attribute {calls : List LoggingCall} (hkind : a.kind = .htmlAttribute)
    (hcalls : value.loggingCalls = call :: calls)
    (hname : Binds inTag [name] (rewrite o inTag none name))
    (hrest : Binds inTag rest (rewriteAll o inTag rest)) :
    Binds inTag [.node a (name :: value :: rest)]
      (rewrite o inTag none (.node a (name :: value :: rest))) := by
  rw [rewrite_move hkind hcalls]
  cases hlit : name.isLiteral with
  | true =>
      refine .sends (next_le_moveOut o a name call)
        (fun s => binds_body hkind hname (fun y hy => reference?_value hy) hrest) ?_
      intro s y hy hold varName deferred hrefers
      rcases hy with hy | hy
      · rw [reference?_literal hlit hy] at hrefers
        cases hrefers
      · refine absurd ?_ hold
        simp only [labelsAll, labels, List.append_nil, List.mem_cons, List.mem_append] at hy ⊢
        tauto
  | false =>
      refine .sends (next_le_moveOut o a name call)
        (fun s => binds_body hkind (.still _) (fun y hy => reference?_value hy) hrest) ?_
      intro s y hy hold varName deferred hrefers
      simp only [labelsAll, labels, List.append_nil, List.mem_cons, List.mem_append, not_or] at hold
      refine bound_move hlit ?_ hkind (fun _ => rfl) (hy.imp_right fun hy => ?_) hold.2.1 hrefers
      · rw [Work.under, Growth.wrap_eq_under _ _ (NodeKind.isOpenTag_of_attribute hkind)
          (NodeKind.isTemplate_of_attribute hkind)]
        exact Occurs.inside (List.mem_singleton_self _) (.here List.mem_cons_self)
      · simp only [labelsAll, labels, List.append_nil, List.mem_cons, List.mem_append] at hy
        rw [moveOut_computed hlit] at hy ⊢
        simp only [leaf, labels, labelsAll, List.mem_singleton] at hy
        rcases hy with hy | hy | hy
        · exact absurd hy hold.1
        · exact hy
        · exact absurd hy hold.2.2.2

theorem binds_mark {m : Mark} (hvalue : (NodeKind.print m.value true).reference? = none) :
    Binds true [] (rewriteMark o (some m)) := by
  cases hcalls : m.value.loggingCalls with
  | nil =>
      rw [rewriteMark_still hcalls]
      refine .silent ?_
      intro y hy
      rw [labelsAll, labelsAll, List.append_nil] at hy
      rcases reference?_conditionalAttribute rfl hy with hnone | rfl
      · exact hnone
      · exact hvalue
  | cons call calls =>
      let a : Item := ⟨⟨m.next⟩, .htmlAttribute, m.place⟩
      let name := leaf (m.next + 1) (.print (markerName o) true) m.place
      let rewritten (s : Tally) : Branch := metadataIf (m.next + 4)
        (.node a [(moveOut o a name call s).name, (moveOut o a name call s).value]) m.place
      have hwork : rewriteMark o (some m) = fun s =>
          ((moveOut o a name call s).growth true ++ (Work.still [rewritten s]
            (moveOut o a name call s).tally).1, (moveOut o a name call s).tally) := by
        funext s
        rw [rewriteMark, hcalls]
        rfl
      rw [hwork]
      refine .sends (next_le_moveOut o a name call) (fun s => .still [rewritten s]) ?_
      intro s y hy _ varName deferred hrefers
      have hx : Occurs (moveOut o a name call s).name [a, _, _] [rewritten s] :=
        ((Occurs.here List.mem_cons_self).under a).under _ |>.under _
      have hname : y ∉ name.labels := by
        rw [show name.labels = [name.label] from rfl, List.mem_singleton]
        rintro rfl
        cases hrefers
      refine bound_move rfl hx rfl (fun hin => Bool.noConfusion hin) (hy.imp_right fun hy => ?_)
        hname hrefers
      simp only [rewritten, metadataIf, labelsAll, labels, List.append_nil, List.mem_cons,
        List.mem_append] at hy
      rcases hy with rfl | rfl | rfl | hy | hy
      · cases hrefers
      · cases hrefers
      · cases hrefers
      · rw [moveOut_computed rfl] at hy ⊢
        exact List.mem_singleton.mp hy
      · rw [reference?_value hy] at hrefers
        cases hrefers

theorem hereditary_binds (o : InstrumentOptions) : Hereditary
    (fun inTag _ b => Binds inTag [b] (rewrite o inTag none b))
    (fun inTag _ bs => Binds inTag bs (rewriteAll o inTag bs)) where
  nil {_ _} := by
    rw [rewriteAll_nil]
    exact .still []
  cons hb hbs := by
    rw [rewriteAll_cons]
    exact hb.andThen hbs
  dependency hkind := by
    rw [rewrite_dependency hkind]
    exact .still _
  source hkind hcs := by
    rw [rewrite_source hkind]
    refine .enter (fun _ => .under ?_) fun s => Nat.le_refl _
    rw [hkind]
    exact hcs
  template hkind hcs := by
    rw [rewrite_template hkind]
    refine .enter (fun _ => .under ?_) fun s => Nat.le_refl _
    rw [hkind]
    exact hcs
  openTag htag hcs := by
    rw [rewrite_openTag htag, andThen_rewriteMark_none]
    refine .under ?_
    rw [htag]
    exact hcs
  block {inTag _ a block tag attrs rest} hkind _ htag hattrs hrest := by
    rw [rewrite_block hkind htag]
    refine .enter (fun s => ?_) fun s => Nat.le_add_right _ _
    have hmarked := hattrs.andThen (binds_mark (o := o)
      (m := block.mark (.node tag attrs) s.next) (reference?_marker _ block))
    rw [List.append_nil] at hmarked
    have hmarked : Binds inTag [.node tag attrs] (((rewriteAll o true attrs).andThen
        (rewriteMark o (some (block.mark (.node tag attrs) s.next)))).under inTag tag) := by
      refine .under ?_
      rw [htag]
      exact hmarked
    exact (hmarked.andThen hrest).unwrap a
  unmoved hkind hcalls hcs := by
    rw [rewrite_attribute hkind hcalls]
    refine .under ?_
    rw [NodeKind.isOpenTag_of_attribute hkind]
    exact hcs
  moved hkind hcalls hname hrest := binds_attribute hkind hcalls hname hrest
  plain hplain hcs := by
    rw [rewrite_plain hplain]
    refine .under ?_
    rw [NodeKind.isOpenTag_of_isPlain hplain]
    exact hcs

end

end TemplateLogging
