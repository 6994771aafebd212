import TemplateLogging.Instrument.Basic
import TemplateLogging.Proofs.Growth

/-!
The instrumentation as a recursion over subtrees. `Rose.rewrite` says what a subtree grows into,
with all ids, and how far ids, numbers and report have come after it.
-/

namespace TemplateLogging

open Instrument

/-- How far a walk has come: the next id, the next number in the template, and the report. -/
structure Tally where
  next : Nat
  number : Nat
  report : InstrumentReport

namespace Tally

def enterFile (s : Tally) : Tally :=
  { s with report := { s.report with files := s.report.files + 1 } }

def enterTemplate (s : Tally) : Tally :=
  { s with number := 0 }

/-- After the six ids of a marker. -/
def markBlock (s : Tally) : Tally :=
  { s with next := s.next + 6, report := { s.report with logBlocks := s.report.logBlocks + 1 } }

/-- After the ids of a conditional attribute and a placeholder, and of a variable if there is
one. -/
def moveCall (s : Tally) (hoisted : Bool) : Tally where
  next := s.next + if hoisted then 10 else 8
  number := s.number + 1
  report := {
    s.report with
    functionAttributes := s.report.functionAttributes + 1
    letBindings := s.report.letBindings + if hoisted then 1 else 0 }

end Tally

namespace Rose

def leaf (next : Nat) (kind : NodeKind) (location : Location) : Branch :=
  node ⟨⟨next⟩, kind, location⟩ []

def printedAttribute (next : Nat) (name value : Expr) (location : Location) : Branch :=
  node ⟨⟨next⟩, .htmlAttribute, location⟩
    [leaf (next + 1) (.print name true) location,
      node ⟨⟨next + 2⟩, .attributeValue .none, location⟩
        [leaf (next + 3) (.print value true) location]]

def metadataIf (next : Nat) (body : Branch) (location : Location) : Branch :=
  node ⟨⟨next⟩, .ifBlock, location⟩
    [node ⟨⟨next + 1⟩, .ifCond (.call (.builtin .hasLoggingMetadata) []), location⟩ [body]]

def conditionalAttribute (next : Nat) (name value : Expr) (location : Location) : Branch :=
  metadataIf (next + 4) (printedAttribute next name value location) location

def placeholder (next : Nat) (text : String) (location : Location) : Branch :=
  node ⟨⟨next⟩, .attributeValue .double, location⟩ [leaf (next + 1) (.rawText text) location]

/-- The variable that the computed name of an attribute goes into. -/
def binding (next : Nat) (varName : String) (name : Branch) : Branch :=
  node ⟨⟨next⟩, .letContent varName, name.label.location⟩ [name]

def isLiteral (b : Branch) : Bool :=
  match b.kind with
  | .rawText _ => true
  | _ => false

theorem exists_text_of_isLiteral {b : Branch} (h : b.isLiteral = true) :
    ∃ text, b.kind = .rawText text := by
  rw [isLiteral] at h
  split at h
  · exact ⟨_, ‹_›⟩
  · cases h

end Rose

/-- The marker that an open tag gets: its first id, its value and its place. -/
structure Mark where
  next : Nat
  value : Expr
  place : Location

def Mark.branch (o : InstrumentOptions) (m : Mark) : Branch :=
  Rose.conditionalAttribute m.next (markerName o) m.value m.place

/-- Whether nodes of the kind keep what comes from below in its place, and are not changed. -/
def NodeKind.isPlain : NodeKind → Bool
  | .file _ _ => false
  | .template _ _ => false
  | .openTag _ _ => false
  | .htmlAttribute => false
  | .logBlock _ => false
  | _ => true

theorem NodeKind.isPlain_of_fileSet {k : NodeKind} (h : k = .fileSet) : k.isPlain = true := by
  rw [h]
  rfl

theorem NodeKind.isOpenTag_of_isPlain {k : NodeKind} (h : k.isPlain = true) :
    k.isOpenTag = false := by
  cases k with
  | openTag _ _ => cases h
  | _ => rfl

theorem NodeKind.isTemplate_of_isPlain {k : NodeKind} (h : k.isPlain = true) :
    k.isTemplate = false := by
  cases k with
  | template _ _ => cases h
  | _ => rfl

theorem NodeKind.isOpenTag_of_attribute {k : NodeKind} (h : k = .htmlAttribute) :
    k.isOpenTag = false := by
  rw [h]
  rfl

theorem NodeKind.isTemplate_of_attribute {k : NodeKind} (h : k = .htmlAttribute) :
    k.isTemplate = false := by
  rw [h]
  rfl

def NodeKind.selfCloses : NodeKind → Bool
  | .openTag _ selfClosing => selfClosing
  | _ => false

def LogBlock.mark (block : LogBlock) (tag : Branch) (next : Nat) : Mark where
  next
  value := marker (block.loggingId.getD 0) block
  place := tagEnd tag.label.location tag.kind.selfCloses

/-- An attribute whose logging call moves out: its name and value from then on, and what it sends
out. -/
structure Move where
  name : Branch
  value : Branch
  bindings : List Branch
  conditional : Branch
  tally : Tally

def moveOut (o : InstrumentOptions) (a : Item) (name : Branch) (call : LoggingCall) (s : Tally) :
    Move :=
  match name.kind with
  | .rawText text =>
      { name
        value := Rose.placeholder (s.next + 6) call.function.placeholder a.location
        bindings := []
        conditional := Rose.conditionalAttribute s.next (functionAttributeName o s.number)
          (renderCall call (.str text)) a.location
        tally := s.moveCall false }
  | _ =>
      let varName := variableName o s.number
      { name := Rose.leaf (s.next + 1) (.print (.varRef varName) true) a.location
        value := Rose.placeholder (s.next + 8) call.function.placeholder a.location
        bindings := [Rose.binding s.next varName name]
        conditional := Rose.conditionalAttribute (s.next + 2) (functionAttributeName o s.number)
          (renderCall call (.varRef varName)) a.location
        tally := s.moveCall true }

theorem moveOut_literal {name : Branch} {text : String} (h : name.kind = .rawText text)
    (o : InstrumentOptions) (a : Item) (call : LoggingCall) (s : Tally) :
    moveOut o a name call s =
      { name
        value := Rose.placeholder (s.next + 6) call.function.placeholder a.location
        bindings := []
        conditional := Rose.conditionalAttribute s.next (functionAttributeName o s.number)
          (renderCall call (.str text)) a.location
        tally := s.moveCall false } := by
  rw [moveOut, h]

theorem moveOut_computed {name : Branch} (h : name.isLiteral = false)
    (o : InstrumentOptions) (a : Item) (call : LoggingCall) (s : Tally) :
    moveOut o a name call s =
      { name := Rose.leaf (s.next + 1) (.print (.varRef (variableName o s.number)) true) a.location
        value := Rose.placeholder (s.next + 8) call.function.placeholder a.location
        bindings := [Rose.binding s.next (variableName o s.number) name]
        conditional := Rose.conditionalAttribute (s.next + 2) (functionAttributeName o s.number)
          (renderCall call (.varRef (variableName o s.number))) a.location
        tally := s.moveCall true } := by
  rw [moveOut]
  split
  · rename_i hkind
    rw [Rose.isLiteral, hkind] at h
    cases h
  · rfl

theorem tally_moveOut (o : InstrumentOptions) (a : Item) (name : Branch) (call : LoggingCall)
    (s : Tally) : (moveOut o a name call s).tally = s.moveCall (!name.isLiteral) := by
  rw [moveOut, Rose.isLiteral]
  split
  · rfl
  · rfl

theorem number_moveOut (o : InstrumentOptions) (a : Item) (name : Branch) (call : LoggingCall)
    (s : Tally) : (moveOut o a name call s).tally.number = s.number + 1 := by
  rw [tally_moveOut]
  rfl

theorem add_eight_le_moveOut (o : InstrumentOptions) (a : Item) (name : Branch) (call : LoggingCall)
    (s : Tally) : s.next + 8 ≤ (moveOut o a name call s).tally.next := by
  rw [tally_moveOut, Tally.moveCall]
  cases name.isLiteral <;> simp

/-- The variables go before the open tag around the attribute, or else before the attribute. -/
def Move.growth (m : Move) (inTag : Bool) : Growth Item :=
  .bound inTag m.bindings ++ ⟨[], [], [m.conditional]⟩

/-- What branches grow into, depending on how far a walk has come. -/
abbrev Work (α σ : Type) : Type :=
  σ → Growth α × σ

namespace Work

variable {α σ : Type}

def andThen (f g : Work α σ) : Work α σ := fun s =>
  ((f s).1 ++ (g (f s).2).1, (g (f s).2).2)

/-- Branches that stay as they are. -/
def still (bs : List (Rose α)) : Work α σ := fun s =>
  (⟨bs, [], []⟩, s)

/-- The same work below a node. -/
def under (f : Work Item σ) (inTag : Bool) (a : Item) : Work Item σ := fun s =>
  ((f s).1.wrap inTag a, (f s).2)

theorem still_under {a : Item} (h : a.kind.isPlain = true) (inTag : Bool) (cs : List Branch) :
    (still cs : Work Item σ).under inTag a = still [.node a cs] := by
  funext s
  rw [under, Growth.wrap_eq_under _ _ (NodeKind.isOpenTag_of_isPlain h)
    (NodeKind.isTemplate_of_isPlain h)]
  rfl

end Work

namespace Rose

/-- What the marker of an open tag grows into. Its value holds the configuration of a block, and may
hold logging calls with it. -/
def rewriteMark (o : InstrumentOptions) : Option Mark → Work Item Tally
  | none, s => (.none, s)
  | some mark, s =>
      match mark.value.loggingCalls with
      | [] => (.only (mark.branch o), s)
      | call :: _ =>
          let a : Item := ⟨⟨mark.next⟩, .htmlAttribute, mark.place⟩
          let m := moveOut o a (leaf (mark.next + 1) (.print (markerName o) true) mark.place) call s
          (m.growth true ++
            .only (metadataIf (mark.next + 4) (node a [m.name, m.value]) mark.place), m.tally)

mutual

/-- What a subtree grows into. An open tag may have got a marker just before. -/
def rewrite (o : InstrumentOptions) (inTag : Bool) (mark : Option Mark) : Branch → Work Item Tally
  | node a cs, s =>
      match a.kind with
      | .file _ .dependency => (.only (node a cs), s)
      | .file _ .source =>
          let r := rewriteAll o inTag cs s.enterFile
          (r.1.wrap inTag a, r.2)
      | .template _ _ =>
          let r := rewriteAll o inTag cs s.enterTemplate
          (r.1.wrap inTag a, r.2)
      | .openTag _ _ =>
          let r := rewriteAll o true cs s
          let q := rewriteMark o mark r.2
          ((r.1 ++ q.1).wrap inTag a, q.2)
      | .logBlock block =>
          match cs with
          | tag :: rest =>
              let q := rewrite o inTag (some (block.mark tag s.next)) tag s.markBlock
              let r := rewriteAll o inTag rest q.2
              (q.1 ++ r.1, r.2)
          | [] => (.none, s)
      | .htmlAttribute =>
          let plain := rewriteAll o inTag cs s
          match cs, valueCalls cs with
          | name :: _ :: rest, call :: _ =>
              let m := moveOut o a name call s
              let q := if name.isLiteral then rewrite o inTag none name m.tally
                else (.only m.name, m.tally)
              let r := rewriteAll o inTag rest q.2
              (m.growth inTag ++ (q.1 ++ .only m.value ++ r.1).wrap inTag a, r.2)
          | _, _ => (plain.1.wrap inTag a, plain.2)
      | _ =>
          let r := rewriteAll o inTag cs s
          (r.1.wrap inTag a, r.2)

def rewriteAll (o : InstrumentOptions) (inTag : Bool) : List Branch → Work Item Tally
  | [], s => (.none, s)
  | b :: bs, s =>
      let q := rewrite o inTag none b s
      let r := rewriteAll o inTag bs q.2
      (q.1 ++ r.1, r.2)

end

end Rose

namespace Rose

variable {o : InstrumentOptions} {inTag : Bool} {mark : Option Mark} {a : Item} {cs : List Branch}

theorem rewriteAll_nil : rewriteAll o inTag [] = .still [] := by
  funext s
  rw [rewriteAll]
  rfl

theorem rewriteAll_cons (b : Branch) (bs : List Branch) :
    rewriteAll o inTag (b :: bs) =
      (rewrite o inTag none b).andThen (rewriteAll o inTag bs) := by
  funext s
  rw [rewriteAll]
  rfl

theorem rewrite_dependency {path : String} (h : a.kind = .file path .dependency) :
    rewrite o inTag mark (node a cs) = .still [node a cs] := by
  funext s
  rw [rewrite, h]
  rfl

theorem rewrite_source {path : String} (h : a.kind = .file path .source) :
    rewrite o inTag mark (node a cs) =
      fun s => (rewriteAll o inTag cs).under inTag a s.enterFile := by
  funext s
  rw [rewrite, h]
  rfl

theorem rewrite_template {name : String} {contentKind : ContentKind}
    (h : a.kind = .template name contentKind) :
    rewrite o inTag mark (node a cs) =
      fun s => (rewriteAll o inTag cs).under inTag a s.enterTemplate := by
  funext s
  rw [rewrite, h]
  rfl

theorem rewrite_openTag (h : a.kind.isOpenTag = true) :
    rewrite o inTag mark (node a cs) =
      ((rewriteAll o true cs).andThen (rewriteMark o mark)).under inTag a := by
  funext s
  cases hkind : a.kind with
  | openTag name selfClosing =>
      rw [rewrite, hkind]
      rfl
  | _ =>
      rw [hkind] at h
      cases h

theorem rewrite_logBlock {block : LogBlock} {tag : Branch} {rest : List Branch}
    (h : a.kind = .logBlock block) :
    rewrite o inTag mark (node a (tag :: rest)) = fun s =>
      ((rewrite o inTag (some (block.mark tag s.next)) tag).andThen (rewriteAll o inTag rest))
        s.markBlock := by
  funext s
  rw [rewrite, h]
  rfl

theorem rewrite_block {block : LogBlock} {tag : Item} {attrs rest : List Branch}
    (h : a.kind = .logBlock block) (htag : tag.kind.isOpenTag = true) :
    rewrite o inTag mark (node a (node tag attrs :: rest)) = fun s =>
      ((((rewriteAll o true attrs).andThen
        (rewriteMark o (some (block.mark (node tag attrs) s.next)))).under inTag tag).andThen
          (rewriteAll o inTag rest)) s.markBlock := by
  funext s
  rw [rewrite_logBlock h]
  beta_reduce
  rw [rewrite_openTag htag]

theorem rewrite_move {name value : Branch} {rest : List Branch} {call : LoggingCall}
    {calls : List LoggingCall} (h : a.kind = .htmlAttribute)
    (hcalls : value.loggingCalls = call :: calls) :
    rewrite o inTag mark (node a (name :: value :: rest)) = fun s =>
      let m := moveOut o a name call s
      let kept : Work Item Tally :=
        if name.isLiteral then rewrite o inTag none name else .still [m.name]
      let r := ((kept.andThen (.still [m.value])).andThen (rewriteAll o inTag rest)).under inTag a
        m.tally
      (m.growth inTag ++ r.1, r.2) := by
  funext s
  rw [rewrite, h]
  simp only [valueCalls, hcalls]
  cases name.isLiteral with
  | true => rfl
  | false => rfl

theorem rewrite_attribute (h : a.kind = .htmlAttribute) (hcalls : valueCalls cs = []) :
    rewrite o inTag mark (node a cs) = (rewriteAll o inTag cs).under inTag a := by
  funext s
  rw [rewrite, h]
  simp only [hcalls]
  rfl

theorem rewrite_plain (h : a.kind.isPlain = true) :
    rewrite o inTag mark (node a cs) = (rewriteAll o inTag cs).under inTag a := by
  funext s
  cases hkind : a.kind with
  | file _ _ | template _ _ | openTag _ _ | htmlAttribute | logBlock _ =>
      rw [hkind] at h
      cases h
  | _ =>
      rw [rewrite, hkind]
      rfl

end Rose

end TemplateLogging
