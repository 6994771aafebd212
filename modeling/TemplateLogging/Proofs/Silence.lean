import TemplateLogging.Proofs.Census
import TemplateLogging.Proofs.Erasure

namespace TemplateLogging

open Instrument Rose

/-- The expressions of the node call no logging function. -/
def Item.Silent (a : Item) : Prop :=
  a.kind.exprs.flatMap Expr.loggingCalls = []

namespace Rose

theorem loggingCalls_eq_nil_iff (b : Branch) : b.loggingCalls = [] ↔ ∀ x ∈ b.labels, x.Silent := by
  rw [loggingCalls_eq_flatMap, List.flatMap_eq_nil_iff]
  rfl

theorem loggingCallsAll_eq_nil_iff (bs : List Branch) :
    loggingCallsAll bs = [] ↔ ∀ x ∈ labelsAll bs, x.Silent := by
  rw [loggingCallsAll_eq_flatMap, List.flatMap_eq_nil_iff]
  rfl

theorem silent_of_node {a : Item} {cs : List Branch} (h : (node a cs).loggingCalls = []) :
    a.Silent ∧ loggingCallsAll cs = [] := by
  rwa [loggingCalls, List.append_eq_nil_iff] at h

theorem flatMap_args_eq_nil {b : Branch} {call : LoggingCall} (h : b.loggingCalls = [call]) :
    call.args.flatMap Expr.loggingCalls = [] := by
  rw [loggingCalls_eq_flatMap, ← List.flatMap_assoc] at h
  exact Expr.flatMap_args_eq_nil h

end Rose

/-- The work leaves no logging call. -/
def Silences (f : Work Item Tally) : Prop :=
  ∀ s, ∀ x ∈ (f s).1.labels, x.Silent

namespace Silences

variable {f g : Work Item Tally} {a : Item} {bs : List Branch}

theorem still (h : loggingCallsAll bs = []) : Silences (.still bs) := by
  intro s x hx
  rw [Work.still, Growth.labels_forest] at hx
  exact (loggingCallsAll_eq_nil_iff bs).mp h x hx

theorem andThen (h : Silences f) (h' : Silences g) : Silences (f.andThen g) := by
  intro s x hx
  rcases Growth.mem_labels_append.mp hx with hx | hx
  · exact h s x hx
  · exact h' _ x hx

theorem under (h : Silences f) (ha : a.Silent) (inTag : Bool) : Silences (f.under inTag a) := by
  intro s x hx
  rcases Growth.mem_labels_wrap.mp hx with rfl | hx
  · exact ha
  · exact h s x hx

theorem enter (h : Silences f) (next : Tally → Tally) : Silences fun s => f (next s) := by
  intro s
  exact h (next s)

end Silences

theorem Growth.wrap_forest_ne_nil (g : Growth Item) (inTag : Bool) (a : Item) :
    (g.wrap inTag a).forest ≠ [] := by
  rw [wrap]
  split
  · simp [underTag]
  · split
    · simp [underTemplate]
    · simp [under]

variable {o : InstrumentOptions} {inTag : Bool} {a : Item} {cs : List Branch}

theorem loggingCalls_conditionalAttribute (next : Nat) (name value : Expr) (place : Location) :
    (conditionalAttribute next name value place).loggingCalls =
      name.loggingCalls ++ value.loggingCalls := by
  simp [conditionalAttribute, metadataIf, printedAttribute, leaf, loggingCalls, loggingCallsAll,
    NodeKind.exprs, Expr.loggingCalls_builtin]

theorem forest_tag_ne_nil {mark : Option Mark} (htag : a.kind.isOpenTag = true) (s : Tally) :
    (rewrite o inTag mark (.node a cs) s).1.forest ≠ [] := by
  rw [rewrite_openTag htag]
  exact Growth.wrap_forest_ne_nil _ _ _

theorem silences_tag {mark : Option Mark} (htag : a.kind.isOpenTag = true) (ha : a.Silent)
    (hmark : ∀ m ∈ mark, m.value.loggingCalls = [])
    (hcs : Silences (rewriteAll o true cs)) : Silences (rewrite o inTag mark (.node a cs)) := by
  rw [rewrite_openTag htag]
  refine (hcs.andThen ?_).under ha inTag
  cases mark with
  | none => exact .still rfl
  | some m =>
      have hvalue := hmark m rfl
      rw [rewriteMark_still hvalue]
      refine .still ?_
      rw [loggingCallsAll, Mark.branch, loggingCalls_conditionalAttribute, loggingCalls_markerName,
        hvalue]
      rfl

theorem hereditary_silences (o : InstrumentOptions) : Hereditary
    (fun inTag _ b => (∀ s, (rewrite o inTag none b s).1.forest ≠ []) ∧
      (b.loggingCalls = [] → Silences (rewrite o inTag none b)))
    (fun inTag _ bs => loggingCallsAll bs = [] → Silences (rewriteAll o inTag bs)) where
  nil _ := by
    rw [rewriteAll_nil]
    exact .still rfl
  cons hb hbs hcalls := by
    rw [loggingCallsAll, List.append_eq_nil_iff] at hcalls
    rw [rewriteAll_cons]
    exact (hb.2 hcalls.1).andThen (hbs hcalls.2)
  dependency hkind := by
    rw [rewrite_dependency hkind]
    refine ⟨fun _ => List.cons_ne_nil _ _, fun hcalls => .still ?_⟩
    rw [loggingCallsAll, hcalls]
    rfl
  source hkind hcs := by
    rw [rewrite_source hkind]
    refine ⟨fun s => Growth.wrap_forest_ne_nil _ _ _, fun hcalls => ?_⟩
    obtain ⟨ha, hcalls⟩ := silent_of_node hcalls
    exact ((hcs hcalls).under ha _).enter _
  template hkind hcs := by
    rw [rewrite_template hkind]
    refine ⟨fun s => Growth.wrap_forest_ne_nil _ _ _, fun hcalls => ?_⟩
    obtain ⟨ha, hcalls⟩ := silent_of_node hcalls
    exact ((hcs hcalls).under ha _).enter _
  openTag htag hcs := by
    refine ⟨forest_tag_ne_nil htag, fun hcalls => ?_⟩
    obtain ⟨ha, hcalls⟩ := silent_of_node hcalls
    exact silences_tag htag ha (by simp) (hcs hcalls)
  block {inTag _ a block tag attrs rest} hkind _ htag hattrs hrest := by
    rw [rewrite_logBlock hkind]
    constructor
    · intro s hnil
      exact forest_tag_ne_nil htag s.markBlock (List.append_eq_nil_iff.mp hnil).1
    · intro hcalls s
      obtain ⟨ha, hcalls⟩ := silent_of_node hcalls
      rw [loggingCallsAll, List.append_eq_nil_iff] at hcalls
      obtain ⟨hcalls, hcallsRest⟩ := hcalls
      obtain ⟨htagSilent, hcallsAttrs⟩ := silent_of_node hcalls
      rw [Item.Silent, hkind] at ha
      have hmarked : Silences
          (rewrite o inTag (some (block.mark (.node tag attrs) s.next)) (.node tag attrs)) := by
        refine silences_tag htag htagSilent ?_ (hattrs hcallsAttrs)
        rintro m ⟨⟩
        exact marker_loggingCalls ha _
      exact hmarked.andThen (hrest hcallsRest) s.markBlock
  unmoved hkind hcalls hcs := by
    rw [rewrite_attribute hkind hcalls]
    refine ⟨fun s => Growth.wrap_forest_ne_nil _ _ _, fun hcalls => ?_⟩
    obtain ⟨ha, hcalls⟩ := silent_of_node hcalls
    exact (hcs hcalls).under ha _
  moved {inTag a name value rest call} hkind hcalls hname hrest := by
    constructor
    · intro s
      rw [rewrite_move hkind hcalls]
      intro hnil
      exact Growth.wrap_forest_ne_nil _ _ _ (List.append_eq_nil_iff.mp hnil).2
    · intro hnone
      obtain ⟨-, hnone⟩ := silent_of_node hnone
      simp [loggingCallsAll, hcalls] at hnone
  plain hplain hcs := by
    rw [rewrite_plain hplain]
    refine ⟨fun s => Growth.wrap_forest_ne_nil _ _ _, fun hcalls => ?_⟩
    obtain ⟨ha, hcalls⟩ := silent_of_node hcalls
    exact (hcs hcalls).under ha _

theorem valueCalls_forest {covered : Bool}
    (hname : ∀ name ∈ cs.head?, name.children = [] ∧ name.kind.isPlain = true)
    (hready : ReadyAll covered cs) (hcalls : valueCalls cs = []) (s : Tally) :
    valueCalls (rewriteAll o inTag cs s).1.forest = [] := by
  match cs with
  | [] =>
      rw [rewriteAll_nil]
      rfl
  | [name] =>
      obtain ⟨hchildren, hplain⟩ := hname name rfl
      rw [rewriteAll_cons, rewriteAll_nil, rewrite_name hchildren hplain]
      rfl
  | name :: value :: rest =>
      obtain ⟨hchildren, hplain⟩ := hname name rfl
      have hvalue : (∀ s, (rewrite o inTag none value s).1.forest ≠ []) ∧
          (value.loggingCalls = [] → Silences (rewrite o inTag none value)) :=
        (hereditary_silences o).of_ready hready.2.1
      rw [rewriteAll_cons, rewriteAll_cons, rewrite_name hchildren hplain]
      -- Had the value grown into nothing, a later child would be the value.
      cases hforest : (rewrite o inTag none value s).1.forest with
      | nil => exact absurd hforest (hvalue.1 s)
      | cons v vs =>
          have hsilent : v.loggingCalls = [] := by
            rw [loggingCalls_eq_nil_iff]
            intro x hx
            apply hvalue.2 hcalls s x
            rw [Growth.mem_labels, hforest, labelsAll]
            exact Or.inl (List.mem_append_left _ hx)
          show valueCalls ([name] ++ ((rewrite o inTag none value s).1.forest ++ _)) = []
          rw [hforest]
          exact hsilent

end TemplateLogging
