import TemplateLogging.Proofs.Rewriting

namespace TemplateLogging

/-- What a node is, apart from its id and its links. -/
structure Entry where
  kind : NodeKind
  location : Location

def Item.entry (a : Item) : Entry :=
  ⟨a.kind, a.location⟩

abbrev Outline : Type :=
  Rose Entry

namespace Outline

/-- The calls of logging functions in an outline, in document order. -/
def loggingCalls (b : Outline) : List LoggingCall :=
  b.labels.flatMap fun e => e.kind.exprs.flatMap Expr.loggingCalls

/-- The calls in what is the value of an attribute with these children. -/
def valueCalls : List Outline → List LoggingCall
  | _ :: value :: _ => loggingCalls value
  | _ => []

def leaf (kind : NodeKind) (place : Location) : Outline :=
  .node ⟨kind, place⟩ []

/-- An attribute that is there only when there is logging metadata. -/
def conditionalAttribute (name value : Expr) (place : Location) : Outline :=
  .node ⟨.ifBlock, place⟩ [.node ⟨.ifCond (.call (.builtin .hasLoggingMetadata) []), place⟩
    [.node ⟨.htmlAttribute, place⟩ [leaf (.print name true) place,
      .node ⟨.attributeValue .none, place⟩ [leaf (.print value true) place]]]]

/-- The marker of a block, placed just before the end of its open tag. -/
def markerOf (o : InstrumentOptions) (block : LogBlock) (tag : Entry) : Outline :=
  let name : Expr := .plus (.str o.attributeStart) (.call (.builtin .xid) [.str o.markerKey])
  let value : Expr := .call (.builtin .makeLoggingMarker)
    (.integer (block.loggingId.getD 0) :: block.config.getD .null :: block.logonly.toList)
  let back : Int := if tag.kind.selfCloses then -2 else -1
  conditionalAttribute name value (.atPoint tag.location.file (tag.location.stop.offset 0 back))

def placeholder (text : String) (place : Location) : Outline :=
  .node ⟨.attributeValue .double, place⟩ [leaf (.rawText text) place]

/-- The attribute that a logging call moves into. -/
def movedCall (o : InstrumentOptions) (call : LoggingCall) (number : Nat) (name : Expr)
    (place : Location) : Outline :=
  let numbered : Expr := .plus (.call (.builtin .xid) [.str o.functionKey]) (.str (toString number))
  let value : Expr := .call (.builtin .renderLoggingAttribute)
    [.str call.function.name, .list call.args, name]
  conditionalAttribute (.plus (.str o.attributeStart) numbered) value place

mutual

/-- What a subtree becomes, and the next number after it. -/
def rewrite (o : InstrumentOptions) (inTag : Bool) : Outline → Work Entry Nat
  | .node e cs, number =>
      match e.kind with
      | .file _ .dependency => (.only (.node e cs), number)
      | .template _ _ =>
          let r := rewriteAll o inTag cs 0
          (if inTag then r.1.under e else r.1.underTemplate e, r.2)
      | .openTag _ _ =>
          let r := rewriteAll o true cs number
          (r.1.underTag e, r.2)
      | .logBlock block =>
          match cs with
          | .node tag attrs :: rest =>
              let q := rewriteAll o true attrs number
              let r := rewriteAll o inTag rest q.2
              ((q.1 ++ .only (markerOf o block tag)).underTag tag ++ r.1, r.2)
          | [] => (.none, number)
      | .htmlAttribute =>
          let plain := rewriteAll o inTag cs number
          match cs, valueCalls cs with
          | name :: _ :: rest, call :: _ =>
              let value := placeholder call.function.placeholder e.location
              let r := rewriteAll o inTag rest (number + 1)
              match name.label.kind with
              | .rawText text =>
                  (⟨[], [], [movedCall o call number (.str text) e.location]⟩ ++
                    (.only name ++ .only value ++ r.1).under e, r.2)
              | _ =>
                  let varName := o.variableStart ++ toString number
                  (.bound inTag [.node ⟨.letContent varName, name.label.location⟩ [name]] ++
                    ⟨[], [], [movedCall o call number (.varRef varName) e.location]⟩ ++
                    (.only (leaf (.print (.varRef varName) true) e.location) ++ .only value ++
                      r.1).under e, r.2)
          | _, _ => (plain.1.under e, plain.2)
      | _ =>
          let r := rewriteAll o inTag cs number
          (r.1.under e, r.2)

/-- The same for subtrees next to each other, one after the other. -/
def rewriteAll (o : InstrumentOptions) (inTag : Bool) : List Outline → Work Entry Nat
  | [], number => (.none, number)
  | b :: bs, number =>
      let q := rewrite o inTag b number
      let r := rewriteAll o inTag bs q.2
      (q.1 ++ r.1, r.2)

end

variable {o : InstrumentOptions} {inTag : Bool} {e : Entry} {cs : List Outline}

theorem rewriteAll_nil : rewriteAll o inTag [] = .still [] := by
  funext n
  rw [rewriteAll]
  rfl

theorem rewriteAll_cons (b : Outline) (bs : List Outline) :
    rewriteAll o inTag (b :: bs) = (rewrite o inTag b).andThen (rewriteAll o inTag bs) := by
  funext n
  rw [rewriteAll]
  rfl

theorem rewrite_dependency {path : String} (h : e.kind = .file path .dependency) :
    rewrite o inTag (.node e cs) = .still [.node e cs] := by
  funext n
  rw [rewrite, h]
  rfl

theorem rewrite_source {path : String} (h : e.kind = .file path .source) :
    rewrite o inTag (.node e cs) =
      fun n => ((rewriteAll o inTag cs n).1.under e, (rewriteAll o inTag cs n).2) := by
  funext n
  rw [rewrite, h]

theorem rewrite_template {name : String} {contentKind : ContentKind}
    (h : e.kind = .template name contentKind) :
    rewrite o inTag (.node e cs) = fun _ =>
      (if inTag then (rewriteAll o inTag cs 0).1.under e
        else (rewriteAll o inTag cs 0).1.underTemplate e, (rewriteAll o inTag cs 0).2) := by
  funext n
  rw [rewrite, h]

theorem rewrite_openTag (h : e.kind.isOpenTag = true) :
    rewrite o inTag (.node e cs) =
      fun n => ((rewriteAll o true cs n).1.underTag e, (rewriteAll o true cs n).2) := by
  funext n
  cases hkind : e.kind with
  | openTag name selfClosing => rw [rewrite, hkind]
  | _ =>
      rw [hkind] at h
      cases h

theorem rewrite_logBlock {block : LogBlock} {tag : Entry} {attrs rest : List Outline}
    (h : e.kind = .logBlock block) :
    rewrite o inTag (.node e (.node tag attrs :: rest)) =
      Work.andThen (fun n =>
        let q := (rewriteAll o true attrs).andThen (.still [markerOf o block tag]) n
        (q.1.underTag tag, q.2)) (rewriteAll o inTag rest) := by
  funext n
  rw [rewrite, h]
  rfl

theorem rewrite_literal {name value : Outline} {rest : List Outline} {call : LoggingCall}
    {calls : List LoggingCall} {text : String} (h : e.kind = .htmlAttribute)
    (hcalls : loggingCalls value = call :: calls) (hname : name.label.kind = .rawText text) :
    rewrite o inTag (.node e (name :: value :: rest)) = fun n =>
      (⟨[], [], [movedCall o call n (.str text) e.location]⟩ ++
        (.only name ++ .only (placeholder call.function.placeholder e.location) ++
          (rewriteAll o inTag rest (n + 1)).1).under e, (rewriteAll o inTag rest (n + 1)).2) := by
  funext n
  rw [rewrite, h]
  simp only [valueCalls, hcalls, hname]

theorem rewrite_computed {name value : Outline} {rest : List Outline} {call : LoggingCall}
    {calls : List LoggingCall} (h : e.kind = .htmlAttribute)
    (hcalls : loggingCalls value = call :: calls)
    (hname : ∀ text, name.label.kind ≠ .rawText text) :
    rewrite o inTag (.node e (name :: value :: rest)) = fun n =>
      let varName := o.variableStart ++ toString n
      (.bound inTag [.node ⟨.letContent varName, name.label.location⟩ [name]] ++
        ⟨[], [], [movedCall o call n (.varRef varName) e.location]⟩ ++
        (.only (leaf (.print (.varRef varName) true) e.location) ++
          .only (placeholder call.function.placeholder e.location) ++
            (rewriteAll o inTag rest (n + 1)).1).under e, (rewriteAll o inTag rest (n + 1)).2) := by
  funext n
  rw [rewrite, h]
  simp only [valueCalls, hcalls]

theorem rewrite_attribute (h : e.kind = .htmlAttribute) (hcalls : valueCalls cs = []) :
    rewrite o inTag (.node e cs) =
      fun n => ((rewriteAll o inTag cs n).1.under e, (rewriteAll o inTag cs n).2) := by
  funext n
  rw [rewrite, h]
  simp only [hcalls]

theorem rewrite_plain (h : e.kind.isPlain = true) :
    rewrite o inTag (.node e cs) =
      fun n => ((rewriteAll o inTag cs n).1.under e, (rewriteAll o inTag cs n).2) := by
  funext n
  cases hkind : e.kind with
  | file _ _ | template _ _ | openTag _ _ | htmlAttribute | logBlock _ =>
      rw [hkind] at h
      cases h
  | _ => rw [rewrite, hkind]

/-- The instrumentation of whole outlines. -/
def instrumented (o : InstrumentOptions) (bs : List Outline) : List Outline :=
  (rewriteAll o false bs 0).1.forest

end Outline

end TemplateLogging
