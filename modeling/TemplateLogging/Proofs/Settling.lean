import TemplateLogging.Proofs.Silence

/-!
Branches with nothing left to instrument. They stay as they are, and everything grows into such
branches.
-/

namespace TemplateLogging

open Instrument Rose

namespace Rose

mutual

/-- There is no logging block, and no attribute with a logging call in its value. Dependencies only
keep their contracts. -/
def Settled (covered : Bool) : Branch → Prop
  | node a cs =>
      match a.kind with
      | .file _ .dependency => ReadyAll covered cs
      | .logBlock _ => False
      | .htmlAttribute => valueCalls cs = [] ∧ SettledAll covered cs
      | kind => SettledAll (kind.isOpenTag || kind.isTemplate || covered) cs

def SettledAll (covered : Bool) : List Branch → Prop
  | [] => True
  | b :: bs => b.Settled covered ∧ SettledAll covered bs

end

/-- The same for a file, which may also be a dependency. -/
def FileSettled (b : Branch) : Prop :=
  b.kind.isDependencyFile = true ∨ b.Settled false

variable {covered : Bool} {a : Item} {cs bs : List Branch}

theorem settledAll_append : SettledAll covered (bs ++ cs) ↔
    SettledAll covered bs ∧ SettledAll covered cs := by
  induction bs with
  | nil => simp [SettledAll]
  | cons b bs ih => rw [List.cons_append, SettledAll, SettledAll, ih, and_assoc]

theorem SettledAll.of_mem (h : SettledAll covered bs) {b : Branch} (hb : b ∈ bs) :
    b.Settled covered := by
  induction bs with
  | nil => cases hb
  | cons c bs ih =>
      rcases List.mem_cons.mp hb with rfl | hb
      · exact h.1
      · exact ih h.2 hb

theorem settledAll_singleton {b : Branch} : SettledAll covered [b] ↔ b.Settled covered := by
  simp [SettledAll]

theorem settled_plain (h : a.kind.isPlain = true) :
    (node a cs).Settled covered ↔ SettledAll covered cs := by
  rw [Settled]
  cases hkind : a.kind with
  | file _ _ | template _ _ | openTag _ _ | htmlAttribute | logBlock _ =>
      rw [hkind] at h
      cases h
  | _ => rfl

theorem settled_openTag (h : a.kind.isOpenTag = true) :
    (node a cs).Settled covered ↔ SettledAll true cs := by
  rw [Settled]
  cases hkind : a.kind with
  | openTag name selfClosing => rfl
  | _ =>
      rw [hkind] at h
      cases h

theorem settled_template {name : String} {contentKind : ContentKind}
    (h : a.kind = .template name contentKind) :
    (node a cs).Settled covered ↔ SettledAll true cs := by
  rw [Settled, h]
  rfl

theorem settled_source {path : String} (h : a.kind = .file path .source) :
    (node a cs).Settled covered ↔ SettledAll covered cs := by
  rw [Settled, h]
  rfl

theorem settled_dependency {path : String} (h : a.kind = .file path .dependency) :
    (node a cs).Settled covered ↔ ReadyAll covered cs := by
  rw [Settled, h]

theorem settled_attribute (h : a.kind = .htmlAttribute) :
    (node a cs).Settled covered ↔ valueCalls cs = [] ∧ SettledAll covered cs := by
  rw [Settled, h]

mutual

theorem Settled.ready : ∀ {covered : Bool} {b : Branch}, b.Settled covered → b.Ready covered
  | covered, node a cs, h => by
      rw [Settled] at h
      rw [Ready, Sound]
      cases hkind : a.kind with
      | file path kind =>
          rw [hkind] at h
          cases kind with
          | dependency => exact ⟨trivial, h⟩
          | source => exact ⟨trivial, SettledAll.readyAll h⟩
      | logBlock block =>
          rw [hkind] at h
          cases h
      | htmlAttribute =>
          rw [hkind] at h
          exact ⟨fun hcalls => absurd h.1 hcalls, SettledAll.readyAll h.2⟩
      | _ =>
          rw [hkind] at h
          exact ⟨trivial, SettledAll.readyAll h⟩

theorem SettledAll.readyAll : ∀ {covered : Bool} {bs : List Branch}, SettledAll covered bs →
    ReadyAll covered bs
  | _, [], _ => trivial
  | _, _ :: _, h => ⟨Settled.ready h.1, SettledAll.readyAll h.2⟩

end

theorem FileSettled.fileReady {b : Branch} (h : b.FileSettled) : b.FileReady :=
  h.imp_right Settled.ready

end Rose

/-- The work leaves the branches alone and counts nothing but files. -/
def Rests (f : Work Item Tally) (bs : List Branch) : Prop :=
  ∀ s, (f s).1 = ⟨bs, [], []⟩ ∧ (f s).2.next = s.next ∧
    (f s).2.report = { s.report with files := (f s).2.report.files }

namespace Rests

variable {f g : Work Item Tally} {bs cs : List Branch} {a : Item}

theorem still (bs : List Branch) : Rests (.still bs) bs := by
  intro s
  exact ⟨rfl, rfl, rfl⟩

theorem andThen (h : Rests f bs) (h' : Rests g cs) : Rests (f.andThen g) (bs ++ cs) := by
  intro s
  obtain ⟨hgrowth, hnext, hreport⟩ := h s
  obtain ⟨hgrowth', hnext', hreport'⟩ := h' (f s).2
  rw [Work.andThen, hgrowth, hgrowth']
  refine ⟨rfl, hnext'.trans hnext, ?_⟩
  rw [hreport', hreport]

theorem under (h : Rests f cs) (inTag : Bool) (a : Item) :
    Rests (f.under inTag a) [.node a cs] := by
  intro s
  obtain ⟨hgrowth, hnext, hreport⟩ := h s
  rw [Work.under, hgrowth]
  refine ⟨?_, hnext, hreport⟩
  rw [Growth.wrap]
  split
  · rw [Growth.underTag, List.append_nil, List.nil_append]
  · split
    · rw [Growth.underTemplate, List.append_nil]
    · rfl

end Rests

theorem hereditary_rests (o : InstrumentOptions) : Hereditary
    (fun inTag covered b => b.Settled covered → Rests (rewrite o inTag none b) [b])
    (fun inTag covered bs => SettledAll covered bs → Rests (rewriteAll o inTag bs) bs) where
  nil _ := by
    rw [rewriteAll_nil]
    exact .still []
  cons hb hbs h := by
    rw [rewriteAll_cons]
    exact (hb h.1).andThen (hbs h.2)
  dependency {_ _ a cs _} hkind _ := by
    rw [rewrite_dependency hkind]
    exact .still [.node a cs]
  source hkind hcs h := by
    have hunder := (hcs ((settled_source hkind).mp h)).under
    rw [rewrite_source hkind]
    intro s
    obtain ⟨hgrowth, hnext, hreport⟩ := hunder _ _ s.enterFile
    exact ⟨hgrowth, hnext, hreport⟩
  template hkind hcs h := by
    have hunder := (hcs ((settled_template hkind).mp h)).under
    rw [rewrite_template hkind]
    intro s
    obtain ⟨hgrowth, hnext, hreport⟩ := hunder _ _ s.enterTemplate
    exact ⟨hgrowth, hnext, hreport⟩
  openTag htag hcs h := by
    rw [rewrite_openTag htag, andThen_rewriteMark_none]
    exact (hcs ((settled_openTag htag).mp h)).under _ _
  block hkind _ _ _ _ h := by
    rw [Settled, hkind] at h
    cases h
  unmoved hkind hcalls hcs h := by
    rw [rewrite_attribute hkind hcalls]
    exact (hcs ((settled_attribute hkind).mp h).2).under _ _
  moved {_ _ name value rest _} hkind hcalls _ _ h := by
    have hnone : value.loggingCalls = [] := ((settled_attribute hkind).mp h).1
    rw [hcalls] at hnone
    cases hnone
  plain hplain hcs h := by
    rw [rewrite_plain hplain]
    exact (hcs ((settled_plain hplain).mp h)).under _ _

/-- All parts of the growth are settled, wherever they go. -/
structure Growth.Settled (covered : Bool) (g : Growth Item) : Prop where
  forest : SettledAll covered g.forest
  bindings : ∀ c, SettledAll c g.bindings
  attributes : ∀ c, SettledAll c g.attributes

namespace Growth.Settled

variable {covered below : Bool} {g h : Growth Item} {a : Item} {bs : List Branch}

theorem still (hbs : SettledAll covered bs) : Growth.Settled covered ⟨bs, [], []⟩ :=
  ⟨hbs, fun _ => trivial, fun _ => trivial⟩

theorem append (hg : g.Settled covered) (hh : h.Settled covered) : (g ++ h).Settled covered where
  forest := settledAll_append.mpr ⟨hg.forest, hh.forest⟩
  bindings c := settledAll_append.mpr ⟨hg.bindings c, hh.bindings c⟩
  attributes c := settledAll_append.mpr ⟨hg.attributes c, hh.attributes c⟩

theorem bound (inTag : Bool) (hbs : ∀ c, SettledAll c bs) :
    (Growth.bound inTag bs).Settled covered := by
  cases inTag with
  | true => exact ⟨trivial, hbs, fun _ => trivial⟩
  | false => exact still (hbs covered)

theorem sent (hbs : ∀ c, SettledAll c bs) : Growth.Settled covered ⟨[], [], bs⟩ :=
  ⟨trivial, fun _ => trivial, hbs⟩

theorem under (hg : g.Settled below) (ha : (Rose.node a g.forest).Settled covered) :
    (g.under a).Settled covered :=
  ⟨settledAll_singleton.mpr ha, hg.bindings, hg.attributes⟩

theorem underTag (hg : g.Settled true) (htag : a.kind.isOpenTag = true) :
    (g.underTag a).Settled covered := by
  refine ⟨?_, fun _ => trivial, fun _ => trivial⟩
  rw [Growth.underTag, settledAll_append, settledAll_singleton, settled_openTag htag,
    settledAll_append]
  exact ⟨hg.bindings covered, hg.forest, hg.attributes true⟩

theorem underTemplate {name : String} {contentKind : ContentKind} (hg : g.Settled true)
    (hkind : a.kind = .template name contentKind) : (g.underTemplate a).Settled covered := by
  refine ⟨?_, hg.bindings, fun _ => trivial⟩
  rw [Growth.underTemplate, settledAll_singleton, settled_template hkind, settledAll_append]
  exact ⟨hg.forest, hg.attributes true⟩

end Growth.Settled

namespace Rose

variable {covered : Bool}

theorem settled_leaf {next : Nat} {kind : NodeKind} {place : Location}
    (h : kind.isPlain = true) : (leaf next kind place).Settled covered := by
  rw [leaf, settled_plain h]
  trivial

theorem settled_placeholder (next : Nat) (text : String) (place : Location) :
    (placeholder next text place).Settled covered := by
  rw [placeholder, settled_plain rfl, settledAll_singleton]
  exact settled_leaf rfl

theorem settled_conditionalAttribute {value : Expr} (h : value.loggingCalls = []) (next : Nat)
    (name : Expr) (place : Location) :
    (conditionalAttribute next name value place).Settled covered := by
  rw [conditionalAttribute, metadataIf, settled_plain rfl, settledAll_singleton, settled_plain rfl,
    settledAll_singleton, printedAttribute, settled_attribute rfl]
  refine ⟨?_, settled_leaf rfl, ?_⟩
  · simp [valueCalls, leaf, loggingCalls, loggingCallsAll, NodeKind.exprs, h]
  · rw [settledAll_singleton, settled_plain rfl, settledAll_singleton]
    exact settled_leaf rfl

theorem settled_childless {b : Branch} (hchildren : b.children = [])
    (hplain : b.kind.isPlain = true) : b.Settled covered := by
  obtain ⟨a, cs⟩ := b
  rw [children_node] at hchildren
  subst hchildren
  rw [kind_node] at hplain
  rw [settled_plain hplain]
  trivial

end Rose

/-- The work leaves nothing to instrument. -/
def Settles (covered : Bool) (f : Work Item Tally) : Prop :=
  ∀ s, (f s).1.Settled covered

namespace Settles

variable {covered below : Bool} {f g : Work Item Tally} {a : Item}

theorem andThen (h : Settles covered f) (h' : Settles covered g) :
    Settles covered (f.andThen g) := by
  intro s
  exact (h s).append (h' _)

theorem under (h : Settles below f) (htag : a.kind.isOpenTag = false)
    (htemplate : a.kind.isTemplate = false)
    (ha : ∀ s, (Rose.node a (f s).1.forest).Settled covered) (inTag : Bool) :
    Settles covered (f.under inTag a) := by
  intro s
  rw [Work.under, Growth.wrap_eq_under _ _ htag htemplate]
  exact (h s).under (ha s)

theorem underTag (h : Settles true f) (htag : a.kind.isOpenTag = true) (inTag : Bool) :
    Settles covered (f.under inTag a) := by
  intro s
  rw [Work.under, Growth.wrap, if_pos htag]
  exact (h s).underTag htag

theorem underTemplate {name : String} {contentKind : ContentKind} (h : Settles true f)
    (hkind : a.kind = .template name contentKind) (inTag : Bool) :
    Settles covered (f.under inTag a) := by
  intro s
  rw [Work.under, Growth.wrap, hkind]
  cases inTag with
  | true => exact (h s).under ((settled_template hkind).mpr (h s).forest)
  | false => exact (h s).underTemplate hkind

theorem enter (h : Settles covered f) (next : Tally → Tally) :
    Settles covered fun s => f (next s) := by
  intro s
  exact h (next s)

end Settles

variable {o : InstrumentOptions}

theorem settles_tag {inTag covered : Bool} {mark : Option Mark} {a : Item} {cs : List Branch}
    (htag : a.kind.isOpenTag = true) (hmark : ∀ m ∈ mark, m.value.loggingCalls = [])
    (hcs : Settles true (rewriteAll o true cs)) :
    Settles covered (rewrite o inTag mark (.node a cs)) := by
  rw [rewrite_openTag htag]
  refine Settles.underTag (hcs.andThen ?_) htag inTag
  intro s
  cases mark with
  | none => exact .still trivial
  | some m =>
      have hvalue := hmark m rfl
      rw [rewriteMark_still hvalue]
      exact .still (settledAll_singleton.mpr (settled_conditionalAttribute hvalue _ _ _))

theorem settles_attribute {inTag covered : Bool} {a : Item} {name : Branch} {rest : List Branch}
    (hkind : a.kind = .htmlAttribute) (hname : name.Settled covered)
    (hrest : Settles covered (rewriteAll o inTag rest)) (next : Nat) (text : String) :
    Settles covered (Work.under ((Work.still [name, placeholder next text a.location]).andThen
      (rewriteAll o inTag rest)) inTag a) := by
  have hcs : Settles covered ((Work.still [name, placeholder next text a.location]).andThen
      (rewriteAll o inTag rest)) := by
    refine Settles.andThen ?_ hrest
    intro s
    exact .still ⟨hname, settled_placeholder next text a.location, trivial⟩
  -- The placeholder has no call, whatever the value was.
  have hsettled : ∀ s, (Rose.node a (((Work.still [name, placeholder next text a.location]).andThen
      (rewriteAll o inTag rest)) s).1.forest).Settled covered := by
    intro s
    exact (settled_attribute hkind).mpr ⟨rfl, (hcs s).forest⟩
  exact hcs.under (NodeKind.isOpenTag_of_attribute hkind) (NodeKind.isTemplate_of_attribute hkind)
    hsettled inTag

/-- Of what is sent out, only the conditional attribute has calls in its value, those in the
arguments of the call. -/
theorem settles_moved {inTag covered : Bool} {a : Item} {name value : Branch} {rest : List Branch}
    {call : LoggingCall} (hkind : a.kind = .htmlAttribute) (hcalls : value.loggingCalls = [call])
    (hname : Plain a (name :: value :: rest)) (hrest : Settles covered (rewriteAll o inTag rest)) :
    Settles covered (rewrite o inTag none (.node a (name :: value :: rest))) := by
  have hargs := flatMap_args_eq_nil hcalls
  have hsent : ∀ next number e, e.loggingCalls = [] → ∀ c, SettledAll c
      [conditionalAttribute next (functionAttributeName o number) (renderCall call e)
        a.location] := by
    intro next number e he c
    rw [settledAll_singleton]
    apply settled_conditionalAttribute
    rw [loggingCalls_renderCall, hargs, he]
    rfl
  obtain ⟨hchildren, hplain⟩ := hname.name hkind name rfl
  cases hlit : name.isLiteral with
  | true =>
      obtain ⟨text, htext⟩ := exists_text_of_isLiteral hlit
      have hbody := settles_attribute hkind (settled_childless hchildren hplain) hrest
      rw [rewrite_literal hkind hcalls hchildren htext]
      intro s
      exact (Growth.Settled.sent (hsent _ _ _ rfl)).append (hbody _ _ _)
  | false =>
      have hbinding : ∀ next varName c, SettledAll c [binding next varName name] := by
        intro next varName c
        rw [settledAll_singleton, binding, settled_plain rfl, settledAll_singleton]
        exact settled_childless hchildren hplain
      have hcomputed : ∀ text, name.kind ≠ .rawText text := by
        intro text htext
        rw [isLiteral, htext] at hlit
        cases hlit
      rw [rewrite_computed hkind hcalls hcomputed]
      intro s
      have hleaf : (leaf (s.next + 1) (.print (.varRef (variableName o s.number)) true)
          a.location).Settled covered := settled_leaf rfl
      have hbody := settles_attribute hkind hleaf hrest (s.next + 8) call.function.placeholder
        (s.moveCall true)
      exact ((Growth.Settled.bound _ (hbinding _ _)).append (.sent (hsent _ _ _ rfl))).append hbody

theorem hereditary_settles (o : InstrumentOptions) : Hereditary
    (fun inTag covered b => b.Ready covered → b.AllPlain →
      Settles covered (rewrite o inTag none b))
    (fun inTag covered bs => ReadyAll covered bs → AllPlainIn bs →
      Settles covered (rewriteAll o inTag bs)) where
  nil _ _ := by
    rw [rewriteAll_nil]
    intro s
    exact .still trivial
  cons hb hbs hready hplain := by
    rw [rewriteAll_cons]
    exact (hb hready.1 hplain.1).andThen (hbs hready.2 hplain.2)
  dependency hkind hready _ := by
    obtain ⟨-, hready⟩ := hready
    rw [hkind] at hready
    rw [rewrite_dependency hkind]
    intro s
    exact .still (settledAll_singleton.mpr ((settled_dependency hkind).mpr hready))
  source hkind hcs hready hplain := by
    obtain ⟨-, hready⟩ := hready
    rw [hkind] at hready
    have hcs := hcs hready hplain.2
    rw [rewrite_source hkind]
    refine .enter (hcs.under ?_ ?_ ?_ _) _
    · rw [hkind]
      rfl
    · rw [hkind]
      rfl
    · intro s
      exact (settled_source hkind).mpr (hcs s).forest
  template hkind hcs hready hplain := by
    obtain ⟨-, hready⟩ := hready
    rw [hkind] at hready
    rw [rewrite_template hkind]
    exact .enter ((hcs hready hplain.2).underTemplate hkind _) _
  openTag htag hcs hready hplain := by
    obtain ⟨-, hready⟩ := hready
    rw [htag] at hready
    exact settles_tag htag (by simp) (hcs hready hplain.2)
  block {inTag covered a block tag attrs rest} hkind _ htag hattrs hrest hready hplain := by
    obtain ⟨-, ⟨-, hreadyAttrs⟩, hreadyRest⟩ := hready
    obtain ⟨hnode, ⟨-, hplainAttrs⟩, hplainRest⟩ := hplain
    rw [htag] at hreadyAttrs
    rw [hkind] at hreadyRest
    rw [Plain, hkind] at hnode
    rw [rewrite_logBlock hkind]
    intro s
    have hmarked : Settles covered
        (rewrite o inTag (some (block.mark (.node tag attrs) s.next)) (.node tag attrs)) := by
      refine settles_tag htag ?_ (hattrs hreadyAttrs hplainAttrs)
      rintro m ⟨⟩
      exact marker_loggingCalls hnode _
    exact hmarked.andThen (hrest hreadyRest hplainRest) s.markBlock
  unmoved hkind hcalls hcs hready hplain := by
    obtain ⟨-, hready⟩ := hready
    rw [hkind] at hready
    have hcs := hcs hready hplain.2
    have hname := hplain.1.name hkind
    rw [rewrite_attribute hkind hcalls]
    refine hcs.under (NodeKind.isOpenTag_of_attribute hkind)
      (NodeKind.isTemplate_of_attribute hkind) ?_ _
    intro s
    exact (settled_attribute hkind).mpr
      ⟨valueCalls_forest hname hready hcalls s, (hcs s).forest⟩
  moved hkind hcalls _ hrest hready hplain := by
    obtain ⟨-, -, -, hready⟩ := hready
    obtain ⟨hname, -, -, hplain⟩ := hplain
    rw [hkind] at hready
    exact settles_moved hkind hcalls hname (hrest hready hplain)
  plain hkept hcs hready hplain := by
    obtain ⟨-, hready⟩ := hready
    rw [NodeKind.isOpenTag_of_isPlain hkept, NodeKind.isTemplate_of_isPlain hkept] at hready
    have hcs := hcs hready hplain.2
    rw [rewrite_plain hkept]
    refine hcs.under (NodeKind.isOpenTag_of_isPlain hkept)
      (NodeKind.isTemplate_of_isPlain hkept) ?_ _
    intro s
    exact (settled_plain hkept).mpr (hcs s).forest

end TemplateLogging
