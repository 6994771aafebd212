import TemplateLogging.Proofs.Calls
import TemplateLogging.Proofs.Outline
import TemplateLogging.Proofs.Refusal

namespace TemplateLogging

open Instrument

namespace Growth

variable {α β : Type}

/-- The same growth with other labels. -/
def map (f : α → β) (g : Growth α) : Growth β :=
  ⟨Rose.mapAll f g.forest, Rose.mapAll f g.bindings, Rose.mapAll f g.attributes⟩

theorem map_append (f : α → β) (g h : Growth α) : (g ++ h).map f = g.map f ++ h.map f := by
  show Growth.mk _ _ _ = Growth.mk _ _ _
  simp only [forest_append, bindings_append, attributes_append, Rose.mapAll_append, map]

theorem map_under (f : α → β) (g : Growth α) (a : α) : (g.under a).map f = (g.map f).under (f a) :=
  rfl

theorem map_underTag (f : α → β) (g : Growth α) (a : α) :
    (g.underTag a).map f = (g.map f).underTag (f a) := by
  simp only [map, underTag, Rose.mapAll_append, Rose.mapAll, Rose.map]

theorem map_underTemplate (f : α → β) (g : Growth α) (a : α) :
    (g.underTemplate a).map f = (g.map f).underTemplate (f a) := by
  simp only [map, underTemplate, Rose.mapAll_append, Rose.mapAll, Rose.map]

theorem map_bound (f : α → β) (inTag : Bool) (bs : List (Rose α)) :
    (bound inTag bs).map f = bound inTag (Rose.mapAll f bs) := by
  cases inTag <;> rfl

end Growth

/-- The work on a tree is the work on an outline, but for the ids. -/
def Erases (f : Work Item Tally) (g : Work Entry Nat) : Prop :=
  ∀ s, (f s).1.map Item.entry = (g s.number).1 ∧ (f s).2.number = (g s.number).2

namespace Erases

variable {f f' : Work Item Tally} {g g' : Work Entry Nat} {a : Item}

theorem still (bs : List Branch) : Erases (.still bs) (.still (Rose.mapAll Item.entry bs)) := by
  intro s
  exact ⟨rfl, rfl⟩

theorem andThen (h : Erases f g) (h' : Erases f' g') : Erases (f.andThen f') (g.andThen g') := by
  intro s
  obtain ⟨hf, hn⟩ := h s
  obtain ⟨hf', hn'⟩ := h' (f s).2
  rw [Work.andThen, Work.andThen]
  constructor
  · rw [Growth.map_append, hf, hf', hn]
  · rw [hn', hn]

theorem under (h : Erases f g) (inTag : Bool) (htag : a.kind.isOpenTag = false)
    (htemplate : a.kind.isTemplate = false) :
    Erases (f.under inTag a) fun n => ((g n).1.under a.entry, (g n).2) := by
  intro s
  obtain ⟨hf, hn⟩ := h s
  rw [Work.under, Growth.wrap_eq_under _ _ htag htemplate, Growth.map_under, hf]
  exact ⟨rfl, hn⟩

theorem underTag (h : Erases f g) (inTag : Bool) (htag : a.kind.isOpenTag = true) :
    Erases (f.under inTag a) fun n => ((g n).1.underTag a.entry, (g n).2) := by
  intro s
  obtain ⟨hf, hn⟩ := h s
  rw [Work.under, Growth.wrap, if_pos htag, Growth.map_underTag, hf]
  exact ⟨rfl, hn⟩

theorem underTemplate (h : Erases f g) (inTag : Bool) (htag : a.kind.isOpenTag = false)
    (htemplate : a.kind.isTemplate = true) : Erases (f.under inTag a) fun n =>
      (if inTag then (g n).1.under a.entry else (g n).1.underTemplate a.entry, (g n).2) := by
  intro s
  obtain ⟨hf, hn⟩ := h s
  rw [Work.under, Growth.wrap, htag, htemplate, if_neg Bool.false_ne_true]
  cases inTag with
  | true =>
      refine ⟨?_, hn⟩
      show ((f s).1.under a).map Item.entry = (g s.number).1.under a.entry
      rw [Growth.map_under, hf]
  | false =>
      refine ⟨?_, hn⟩
      rw [Bool.not_false, Bool.and_true, if_pos rfl, Growth.map_underTemplate, hf]
      rfl

end Erases

namespace Rose

/-- The name of an attribute is text or a print without children, and the expressions of a block
call no logging function. -/
def Plain (a : Item) (cs : List Branch) : Prop :=
  match a.kind with
  | .htmlAttribute => ∀ name ∈ cs.head?, name.children = [] ∧
      ((∃ text, name.kind = .rawText text) ∨ ∃ e isImplicit, name.kind = .print e isImplicit)
  | .logBlock block => (NodeKind.logBlock block).exprs.flatMap Expr.loggingCalls = []
  | _ => True

mutual

def AllPlain : Branch → Prop
  | node a cs => Plain a cs ∧ AllPlainIn cs

def AllPlainIn : List Branch → Prop
  | [] => True
  | b :: bs => b.AllPlain ∧ AllPlainIn bs

end

mutual

theorem loggingCalls_eq_flatMap : ∀ b : Branch,
    b.loggingCalls = b.labels.flatMap fun a => a.kind.exprs.flatMap Expr.loggingCalls
  | node a cs => by
      rw [loggingCalls, labels, List.flatMap_cons, loggingCallsAll_eq_flatMap cs]

theorem loggingCallsAll_eq_flatMap : ∀ bs : List Branch,
    loggingCallsAll bs = (labelsAll bs).flatMap fun a => a.kind.exprs.flatMap Expr.loggingCalls
  | [] => rfl
  | b :: bs => by
      rw [loggingCallsAll, labelsAll, List.flatMap_append, loggingCalls_eq_flatMap b,
        loggingCallsAll_eq_flatMap bs]

end

theorem loggingCalls_map (b : Branch) :
    Outline.loggingCalls (b.map Item.entry) = b.loggingCalls := by
  rw [Outline.loggingCalls, labels_map, List.flatMap_map, loggingCalls_eq_flatMap]
  rfl

theorem valueCalls_mapAll (cs : List Branch) :
    Outline.valueCalls (mapAll Item.entry cs) = valueCalls cs := by
  match cs with
  | [] => rfl
  | [_] => rfl
  | _ :: value :: _ => exact loggingCalls_map value

theorem marker_loggingCalls {block : LogBlock}
    (h : (NodeKind.logBlock block).exprs.flatMap Expr.loggingCalls = []) (id : Int64) :
    (marker id block).loggingCalls = [] := by
  rwa [loggingCalls_marker]

theorem rewriteMark_still {o : InstrumentOptions} {m : Mark} (h : m.value.loggingCalls = []) :
    rewriteMark o (some m) = .still [m.branch o] := by
  funext s
  rw [rewriteMark, h]
  rfl

theorem andThen_rewriteMark_none {o : InstrumentOptions} (f : Work Item Tally) :
    f.andThen (rewriteMark o none) = f := by
  funext s
  show ((f s).1 ++ Growth.none, (f s).2) = f s
  rw [Growth.append_none]

theorem rewrite_childless {o : InstrumentOptions} {inTag : Bool} {mark : Option Mark} {a : Item}
    (h : a.kind.isPlain = true) : rewrite o inTag mark (node a []) = .still [node a []] := by
  rw [rewrite_plain h, rewriteAll_nil, Work.still_under h]

theorem rewrite_name {o : InstrumentOptions} {inTag : Bool} {name : Branch}
    (hchildren : name.children = []) (hplain : name.kind.isPlain = true) :
    rewrite o inTag none name = .still [name] := by
  obtain ⟨a, cs⟩ := name
  rw [children_node] at hchildren
  subst hchildren
  exact rewrite_childless hplain

theorem Plain.name {a : Item} {cs : List Branch} (h : Plain a cs)
    (hkind : a.kind = .htmlAttribute) :
    ∀ name ∈ cs.head?, name.children = [] ∧ name.kind.isPlain = true := by
  rw [Plain, hkind] at h
  intro name hname
  obtain ⟨hchildren, ⟨text, htext⟩ | ⟨e, isImplicit, hprint⟩⟩ := h name hname
  · rw [htext]
    exact ⟨hchildren, rfl⟩
  · rw [hprint]
    exact ⟨hchildren, rfl⟩

theorem rewrite_literal {o : InstrumentOptions} {inTag : Bool} {mark : Option Mark} {a : Item}
    {name value : Branch} {rest : List Branch} {call : LoggingCall} {calls : List LoggingCall}
    {text : String} (h : a.kind = .htmlAttribute) (hcalls : value.loggingCalls = call :: calls)
    (hname : name.children = []) (hkind : name.kind = .rawText text) :
    rewrite o inTag mark (node a (name :: value :: rest)) = fun s =>
      let kept : Work Item Tally :=
        .still [name, placeholder (s.next + 6) call.function.placeholder a.location]
      let r := (kept.andThen (rewriteAll o inTag rest)).under inTag a (s.moveCall false)
      (⟨[], [], [conditionalAttribute s.next (functionAttributeName o s.number)
        (renderCall call (.str text)) a.location]⟩ ++ r.1, r.2) := by
  have hlit : name.isLiteral = true := by
    rw [isLiteral, hkind]
  have hplain : name.kind.isPlain = true := by
    rw [hkind]
    rfl
  rw [rewrite_move h hcalls]
  funext s
  rw [hlit, rewrite_name hname hplain, moveOut_literal hkind]
  cases inTag with
  | true => rfl
  | false => rfl

theorem rewrite_computed {o : InstrumentOptions} {inTag : Bool} {mark : Option Mark} {a : Item}
    {name value : Branch} {rest : List Branch} {call : LoggingCall} {calls : List LoggingCall}
    (h : a.kind = .htmlAttribute) (hcalls : value.loggingCalls = call :: calls)
    (hkind : ∀ text, name.kind ≠ .rawText text) :
    rewrite o inTag mark (node a (name :: value :: rest)) = fun s =>
      let varName := variableName o s.number
      let kept : Work Item Tally :=
        .still [leaf (s.next + 1) (.print (.varRef varName) true) a.location,
          placeholder (s.next + 8) call.function.placeholder a.location]
      let r := (kept.andThen (rewriteAll o inTag rest)).under inTag a (s.moveCall true)
      (.bound inTag [binding s.next varName name] ++
        ⟨[], [], [conditionalAttribute (s.next + 2) (functionAttributeName o s.number)
          (renderCall call (.varRef varName)) a.location]⟩ ++ r.1, r.2) := by
  have hlit : name.isLiteral = false := by
    rw [isLiteral]
    split
    · exact absurd ‹_› (hkind _)
    · rfl
  rw [rewrite_move h hcalls]
  funext s
  rw [hlit, moveOut_computed hlit]
  rfl

end Rose

namespace Erases

open Rose

variable {o : InstrumentOptions} {inTag : Bool} {a : Item} {cs : List Branch}

theorem source {path : String} (h : a.kind = .file path .source)
    (hcs : Erases (rewriteAll o inTag cs) (Outline.rewriteAll o inTag (mapAll Item.entry cs))) :
    Erases (rewrite o inTag none (.node a cs))
      (Outline.rewrite o inTag (.node a.entry (mapAll Item.entry cs))) := by
  have htag : a.kind.isOpenTag = false := by
    rw [h]
    rfl
  have htemplate : a.kind.isTemplate = false := by
    rw [h]
    rfl
  have hunder := hcs.under inTag htag htemplate
  rw [rewrite_source h, Outline.rewrite_source h]
  intro s
  exact hunder s.enterFile

theorem template {name : String} {contentKind : ContentKind}
    (h : a.kind = .template name contentKind)
    (hcs : Erases (rewriteAll o inTag cs) (Outline.rewriteAll o inTag (mapAll Item.entry cs))) :
    Erases (rewrite o inTag none (.node a cs))
      (Outline.rewrite o inTag (.node a.entry (mapAll Item.entry cs))) := by
  have htag : a.kind.isOpenTag = false := by
    rw [h]
    rfl
  have htemplate : a.kind.isTemplate = true := by
    rw [h]
    rfl
  have hunder := hcs.underTemplate inTag htag htemplate
  rw [rewrite_template h, Outline.rewrite_template h]
  intro s
  exact hunder s.enterTemplate

theorem block {block : LogBlock} {tag : Item} {attrs rest : List Branch}
    (h : a.kind = .logBlock block) (htag : tag.kind.isOpenTag = true)
    (hcalls : (NodeKind.logBlock block).exprs.flatMap Expr.loggingCalls = [])
    (hattrs : Erases (rewriteAll o true attrs)
      (Outline.rewriteAll o true (mapAll Item.entry attrs)))
    (hrest : Erases (rewriteAll o inTag rest)
      (Outline.rewriteAll o inTag (mapAll Item.entry rest))) :
    Erases (rewrite o inTag none (.node a (.node tag attrs :: rest)))
      (Outline.rewrite o inTag (.node a.entry
        (.node tag.entry (mapAll Item.entry attrs) :: mapAll Item.entry rest))) := by
  rw [rewrite_logBlock h, Outline.rewrite_logBlock h]
  intro s
  have hmark : Erases (rewriteMark o (some (block.mark (.node tag attrs) s.next)))
      (.still [Outline.markerOf o block tag.entry]) := by
    rw [rewriteMark_still (marker_loggingCalls hcalls _)]
    exact .still [(block.mark (.node tag attrs) s.next).branch o]
  have hmarked := (hattrs.andThen hmark).underTag inTag htag
  rw [← rewrite_openTag htag] at hmarked
  exact hmarked.andThen hrest s.markBlock

theorem unmoved (h : a.kind = .htmlAttribute) (hcalls : valueCalls cs = [])
    (hcs : Erases (rewriteAll o inTag cs) (Outline.rewriteAll o inTag (mapAll Item.entry cs))) :
    Erases (rewrite o inTag none (.node a cs))
      (Outline.rewrite o inTag (.node a.entry (mapAll Item.entry cs))) := by
  rw [rewrite_attribute h hcalls, Outline.rewrite_attribute h ((valueCalls_mapAll cs).trans hcalls)]
  exact hcs.under inTag (NodeKind.isOpenTag_of_attribute h) (NodeKind.isTemplate_of_attribute h)

theorem literal {name value : Branch} {rest : List Branch} {call : LoggingCall}
    {calls : List LoggingCall} {text : String} (h : a.kind = .htmlAttribute)
    (hcalls : value.loggingCalls = call :: calls) (hname : name.children = [])
    (hkind : name.kind = .rawText text)
    (hrest : Erases (rewriteAll o inTag rest)
      (Outline.rewriteAll o inTag (mapAll Item.entry rest))) :
    Erases (rewrite o inTag none (.node a (name :: value :: rest)))
      (Outline.rewrite o inTag (.node a.entry (mapAll Item.entry (name :: value :: rest)))) := by
  have htag := NodeKind.isOpenTag_of_attribute h
  have htemplate := NodeKind.isTemplate_of_attribute h
  have hentry : (name.map Item.entry).label.kind = .rawText text := by
    rw [label_map]
    exact hkind
  rw [rewrite_literal h hcalls hname hkind, mapAll, mapAll,
    Outline.rewrite_literal h ((loggingCalls_map value).trans hcalls) hentry]
  intro s
  obtain ⟨hgrowth, hnumber⟩ := (((still [name, Rose.placeholder (s.next + 6)
    call.function.placeholder a.location]).andThen hrest).under inTag htag htemplate)
      (s.moveCall false)
  refine ⟨?_, hnumber⟩
  rw [Growth.map_append, hgrowth]
  rfl

theorem computed {name value : Branch} {rest : List Branch} {call : LoggingCall}
    {calls : List LoggingCall} (h : a.kind = .htmlAttribute)
    (hcalls : value.loggingCalls = call :: calls) (hkind : ∀ text, name.kind ≠ .rawText text)
    (hrest : Erases (rewriteAll o inTag rest)
      (Outline.rewriteAll o inTag (mapAll Item.entry rest))) :
    Erases (rewrite o inTag none (.node a (name :: value :: rest)))
      (Outline.rewrite o inTag (.node a.entry (mapAll Item.entry (name :: value :: rest)))) := by
  have htag := NodeKind.isOpenTag_of_attribute h
  have htemplate := NodeKind.isTemplate_of_attribute h
  have hentry : ∀ text, (name.map Item.entry).label.kind ≠ .rawText text := by
    rw [label_map]
    exact hkind
  rw [rewrite_computed h hcalls hkind, mapAll, mapAll,
    Outline.rewrite_computed h ((loggingCalls_map value).trans hcalls) hentry]
  intro s
  obtain ⟨hgrowth, hnumber⟩ := (((still [Rose.leaf (s.next + 1)
    (.print (.varRef (variableName o s.number)) true) a.location, Rose.placeholder (s.next + 8)
      call.function.placeholder a.location]).andThen hrest).under inTag htag htemplate)
        (s.moveCall true)
  refine ⟨?_, hnumber⟩
  rw [Growth.map_append, Growth.map_append, Growth.map_bound, hgrowth, label_map]
  rfl

theorem plain (h : a.kind.isPlain = true)
    (hcs : Erases (rewriteAll o inTag cs) (Outline.rewriteAll o inTag (mapAll Item.entry cs))) :
    Erases (rewrite o inTag none (.node a cs))
      (Outline.rewrite o inTag (.node a.entry (mapAll Item.entry cs))) := by
  rw [rewrite_plain h, Outline.rewrite_plain h]
  exact hcs.under inTag (NodeKind.isOpenTag_of_isPlain h) (NodeKind.isTemplate_of_isPlain h)

end Erases

open Rose

theorem hereditary_erases (o : InstrumentOptions) : Hereditary
    (fun inTag _ b => b.AllPlain →
      Erases (rewrite o inTag none b) (Outline.rewrite o inTag (b.map Item.entry)))
    (fun inTag _ bs => AllPlainIn bs →
      Erases (rewriteAll o inTag bs) (Outline.rewriteAll o inTag (mapAll Item.entry bs))) where
  nil _ := by
    rw [rewriteAll_nil, mapAll, Outline.rewriteAll_nil]
    exact .still []
  cons hb hbs hplain := by
    rw [rewriteAll_cons, mapAll, Outline.rewriteAll_cons]
    exact (hb hplain.1).andThen (hbs hplain.2)
  dependency {_ _ a cs _} hkind _ := by
    rw [Rose.map, rewrite_dependency hkind, Outline.rewrite_dependency hkind]
    exact .still [.node a cs]
  source hkind hcs hplain := .source hkind (hcs hplain.2)
  template hkind hcs hplain := .template hkind (hcs hplain.2)
  openTag htag hcs hplain := by
    rw [Rose.map, rewrite_openTag htag, Outline.rewrite_openTag htag, andThen_rewriteMark_none]
    exact (hcs hplain.2).underTag _ htag
  block hkind _ htag hattrs hrest hplain := by
    obtain ⟨hnode, ⟨-, hplainAttrs⟩, hplainRest⟩ := hplain
    rw [Plain, hkind] at hnode
    exact .block hkind htag hnode (hattrs hplainAttrs) (hrest hplainRest)
  unmoved hkind hcalls hcs hplain := .unmoved hkind hcalls (hcs hplain.2)
  moved {_ _ name _ _ _} hkind hcalls _ hrest hplain := by
    obtain ⟨hnode, -, -, hplainRest⟩ := hplain
    rw [Plain, hkind] at hnode
    obtain ⟨hname, ⟨text, htext⟩ | ⟨e, isImplicit, hprint⟩⟩ := hnode name rfl
    · exact .literal hkind hcalls hname htext (hrest hplainRest)
    · refine .computed hkind hcalls ?_ (hrest hplainRest)
      intro text htext
      rw [hprint] at htext
      cases htext
  plain hkept hcs hplain := .plain hkept (hcs hplain.2)

end TemplateLogging
