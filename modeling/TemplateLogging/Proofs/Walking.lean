import TemplateLogging.Proofs.Steps

/-!
The instrumenting walk on branches at an open place. `Performs` says that the walk makes of the
branches what a function of the tally says, wherever the place is.
-/

namespace TemplateLogging

open Instrument Rose Context

/-- A walk has come as far as the tally says, and the tree has the given content. -/
structure Tally.Fits (s : Tally) (root : NodeId) (nodes : Multiset Node) (p : Progress) (t : Tree) :
    Prop where
  progress_eq : p = ⟨⟨s.number⟩, s.report⟩
  number_le : s.number ≤ s.next
  number_lt : s.number < maxWord
  holds : t.Holds root s.next nodes

/-- The walk makes of branches what `f` says. -/
structure Performs (o : InstrumentOptions) (levels : Nat) (inTag covered : Bool) (bs : List Branch)
    (f : Work Item Tally) : Prop where
  le : ∀ s, s.next ≤ (f s).2.next
  takes : ∀ {root : NodeId} {others : Multiset Node} {ctx : Context} {s : Tally} {p : Progress}
    {t : Tree}, ctx.Rooted → ctx.inTag = inTag → ctx.covered = covered →
      s.Fits root (nodesAll none (ctx.plug bs) + others) p t →
        Walk.Takes s.next (f s).2.next
          ((visitor o).visitEach ((visitor o).walk levels) (bs.map Rose.id)) (p, t)
          fun _ => (f s).2.Fits root (nodesAll none ((ctx.grow (f s).1).plug []) + others)

variable {o : InstrumentOptions} {levels : Nat} {inTag covered : Bool} {a : Item} {b : Branch}
  {bs cs : List Branch} {f g : Work Item Tally} {root : NodeId} {others nodes : Multiset Node}
  {ctx : Context} {s : Tally} {p : Progress} {t : Tree}

theorem Tally.Fits.congr {nodes' : Multiset Node} (h : s.Fits root nodes p t)
    (heq : nodes = nodes') : s.Fits root nodes' p t :=
  heq ▸ h

theorem visitEach_append {σ : Type} (v : Visitor σ) (walk : NodeId → Walk σ Unit)
    (xs ys : List NodeId) :
    v.visitEach walk (xs ++ ys) = v.visitEach walk xs >>= fun _ => v.visitEach walk ys := by
  induction xs with
  | nil =>
      rw [List.nil_append, Visitor.visitEach, pure_bind]
  | cons x xs ih =>
      rw [List.cons_append, Visitor.visitEach, Visitor.visitEach, bind_assoc, ih]
      refine congrArg _ (funext fun t => ?_)
      split
      · rw [bind_assoc]
      · rfl

theorem hook_plain (h : a.kind.isPlain = true) (children : NodeId → Pass Unit) (id : NodeId) :
    (visitor o).hook a.kind children id = children id := by
  cases hkind : a.kind with
  | file _ _ | template _ _ | openTag _ _ | htmlAttribute | logBlock _ =>
      rw [hkind] at h
      cases h
  | _ => rfl

theorem hook_openTag (h : a.kind.isOpenTag = true) (children : NodeId → Pass Unit) (id : NodeId) :
    (visitor o).hook a.kind children id = children id := by
  cases hkind : a.kind with
  | openTag _ _ => rfl
  | _ =>
      rw [hkind] at h
      cases h

namespace Performs

theorem nil : Performs o levels inTag covered [] (.still []) where
  le s := Nat.le_refl _
  takes {root others ctx s p t} _ _ _ h := by
    refine Walk.Takes.pure (h.congr ?_)
    show _ = nodesAll none ((ctx.grow .none).plug []) + others
    rw [ctx.grow_none]

theorem append (hb : Performs o levels inTag covered bs f)
    (hc : Performs o levels inTag covered cs g) :
    Performs o levels inTag covered (bs ++ cs) (f.andThen g) where
  le s := Nat.le_trans (hb.le s) (hc.le _)
  takes {root others ctx s p t} hctx hin hcov h := by
    have hwide : s.Fits root (nodesAll none ((ctx.widen [] cs).plug bs) + others) p t := by
      refine h.congr ?_
      rw [plug_widen_of_ne_top _ _ _ _ hctx.ne_top, List.nil_append]
    rw [List.map_append, visitEach_append]
    refine Walk.Takes.bind (m := (f s).2.next) (hb.takes (hctx.widen _ _) (by simpa) (by simpa)
      hwide) ?_ (hb.le s) (hc.le _)
    rintro - p₁ t₁ h₁
    have hrest : (f s).2.Fits root (nodesAll none ((ctx.grow (f s).1).plug cs) + others) p₁ t₁ := by
      refine h₁.congr ?_
      rw [grow_widen, plug_widen_of_ne_top _ _ _ _ (hctx.grow _).ne_top, List.nil_append,
        List.nil_append]
    refine (hc.takes (hctx.grow _) (by simpa) (by simpa) hrest).mono ?_
    rintro - p₂ t₂ - h₂
    refine h₂.congr ?_
    rw [grow_grow]
    rfl

theorem of_walk (hle : ∀ s, s.next ≤ (f s).2.next)
    (hwalk : ∀ {root : NodeId} {others : Multiset Node} {ctx : Context} {s : Tally} {p : Progress}
      {t : Tree}, ctx.Rooted → ctx.inTag = inTag → ctx.covered = covered →
        s.Fits root (nodesAll none (ctx.plug [b]) + others) p t →
          Walk.Takes s.next (f s).2.next ((visitor o).hook b.kind
            ((visitor o).visitChildren ((visitor o).walk levels)) b.id) (p, t)
            fun _ => (f s).2.Fits root (nodesAll none ((ctx.grow (f s).1).plug []) + others)) :
    Performs o (levels + 1) inTag covered [b] f where
  le := hle
  takes {root others ctx s p t} hctx hin hcov h := by
    have hshows := h.holds.shows_plug
    rw [List.map_singleton, Visitor.visitEach]
    refine Walk.Takes.bind_tree ?_
    rw [hshows.contains, if_pos rfl]
    refine Walk.Takes.bind (m := (f s).2.next) ?_ (fun _ _ _ h₁ => Walk.Takes.pure h₁) (hle s)
    show Walk.Takes _ _ ((visitor o).walk (levels + 1) b.id) _ _
    rw [Visitor.walk]
    refine Walk.Takes.bind_tree ?_
    rw [hshows.get?]
    exact hwalk hctx hin hcov h

theorem children
    (hcs : Performs o levels (a.kind.isOpenTag || inTag)
      (a.kind.isOpenTag || a.kind.isTemplate || covered) cs f)
    (hctx : ctx.Rooted) (hin : ctx.inTag = inTag) (hcov : ctx.covered = covered)
    (h : s.Fits root (nodesAll none (ctx.plug [.node a cs]) + others) p t) :
    Walk.Takes s.next (f s).2.next
      ((visitor o).visitChildren ((visitor o).walk levels) a.id) (p, t)
      fun _ => (f s).2.Fits root
        (nodesAll none (((within ctx a [] []).grow (f s).1).plug []) + others) := by
  have hchildren := h.holds.shows_plug.children_eq
  rw [id_node, children_node] at hchildren
  rw [Visitor.visitChildren]
  refine Walk.Takes.bind_tree ?_
  rw [hchildren]
  refine hcs.takes (hctx.within _ _ _) ?_ ?_ (h.congr ?_)
  · rw [inTag_within, hin]
  · rw [covered_within, hcov]
  · rw [plug, List.nil_append, List.append_nil]

theorem descend (hhook : ∀ children, (visitor o).hook a.kind children a.id = children a.id)
    (hcs : Performs o levels (a.kind.isOpenTag || inTag)
      (a.kind.isOpenTag || a.kind.isTemplate || covered) cs f) :
    Performs o (levels + 1) inTag covered [.node a cs] (f.under inTag a) := by
  refine of_walk hcs.le ?_
  intro root others ctx s p t hctx hin hcov h
  rw [kind_node, id_node, hhook]
  refine (hcs.children hctx hin hcov h).mono ?_
  rintro - p₁ t₁ - h₁
  refine h₁.congr ?_
  rw [plug_grow_within _ _ _ hctx.ne_top, hin]
  rfl

theorem plain (hkind : a.kind.isPlain = true) (hcs : Performs o levels inTag covered cs f) :
    Performs o (levels + 1) inTag covered [.node a cs] (f.under inTag a) := by
  apply descend
  · intro children
    exact hook_plain hkind children a.id
  · rwa [NodeKind.isOpenTag_of_isPlain hkind, NodeKind.isTemplate_of_isPlain hkind]

theorem openTag (hkind : a.kind.isOpenTag = true) (hcs : Performs o levels true true cs f) :
    Performs o (levels + 1) inTag covered [.node a cs] (f.under inTag a) := by
  apply descend
  · intro children
    exact hook_openTag hkind children a.id
  · rwa [hkind]

theorem dependency {path : String} (ha : a.kind = .file path .dependency) :
    Performs o (levels + 1) inTag covered [.node a cs] (.still [.node a cs]) := by
  refine of_walk (fun _ => Nat.le_refl _) ?_
  intro root others ctx s p t hctx _ _ h
  have hkind := h.holds.shows_plug.kind_eq
  rw [kind_node, ha] at hkind
  rw [kind_node, ha]
  show Walk.Takes _ _ (visitFile _ _) _ _
  rw [visitFile]
  refine Walk.Takes.bind_tree (Walk.Takes.bind_ok hkind (Walk.Takes.pure (h.congr ?_)))
  rw [plug_grow_nil _ _ hctx.ne_top, Work.still, receive_forest]

theorem source {path : String} (ha : a.kind = .file path .source)
    (hcs : Performs o levels inTag covered cs f) :
    Performs o (levels + 1) inTag covered [.node a cs]
      fun s => f.under inTag a s.enterFile := by
  obtain ⟨id, kind, location⟩ := a
  subst ha
  refine of_walk (fun s => hcs.le s.enterFile) ?_
  intro root others ctx s p t hctx hin hcov h
  have hfile : s.enterFile.Fits root (nodesAll none (ctx.plug _) + others) _ t :=
    ⟨rfl, h.number_le, h.number_lt, h.holds⟩
  have hkind := h.holds.shows_plug.kind_eq
  have hp := h.progress_eq
  subst hp
  show Walk.Takes _ _ (visitFile _ _) _ _
  rw [visitFile]
  refine Walk.Takes.bind_tree (Walk.Takes.bind_ok hkind ?_)
  refine (children (f := f) hcs hctx hin hcov hfile).mono ?_
  rintro - p₁ t₁ - h₁
  refine h₁.congr ?_
  rw [plug_grow_within _ _ _ hctx.ne_top, hin]
  rfl

theorem template {name : String} {contentKind : ContentKind}
    (ha : a.kind = .template name contentKind) (hcs : Performs o levels inTag true cs f) :
    Performs o (levels + 1) inTag covered [.node a cs]
      fun s => f.under inTag a s.enterTemplate := by
  obtain ⟨id, kind, location⟩ := a
  subst ha
  refine of_walk (fun s => hcs.le s.enterTemplate) ?_
  intro root others ctx s p t hctx hin hcov h
  have htemplate : s.enterTemplate.Fits root (nodesAll none (ctx.plug _) + others) _ t :=
    ⟨rfl, Nat.zero_le _, (by decide : 0 < maxWord), h.holds⟩
  have hp := h.progress_eq
  subst hp
  show Walk.Takes _ _ (visitTemplate _ _) _ _
  rw [visitTemplate]
  refine Walk.Takes.bind_state (Walk.Takes.bind_setState ?_)
  refine (children (f := f) hcs hctx hin hcov htemplate).mono ?_
  rintro - p₁ t₁ - h₁
  refine h₁.congr ?_
  rw [plug_grow_within _ _ _ hctx.ne_top, hin]
  rfl

end Performs

theorem takes_run {start stop : Nat} {α : Type} {step : Step α} {post : α → Prop}
    (h : Takes start stop step.run fun r => ∃ x, r = .ok x ∧ post x) (hle : start ≤ stop) :
    Walk.Takes start stop (run step) (p, t) fun x p' t' => p' = p ∧ t' = t ∧ post x := by
  rw [run]
  refine Walk.Takes.bind_attempt h ?_ hle (Nat.le_refl _)
  rintro r ⟨x, rfl, hx⟩
  exact Walk.Takes.pure ⟨rfl, rfl, hx⟩

theorem takes_run_ok {next : Nat} {α : Type} {step : Step α} {x : α}
    (h : step.run = .ok (.ok x)) :
    Walk.Takes next next (run step) (p, t) fun y p' t' => p' = p ∧ t' = t ∧ y = x := by
  apply takes_run
  · exact Takes.of_eq h ⟨x, rfl, rfl⟩
  · exact Nat.le_refl _

theorem takes_instrumentBlock {block : LogBlock} {tag : Item} {tcs rest : List Branch}
    (ha : a.kind = .logBlock block) (hid : block.loggingId.isSome = true)
    (htag : tag.kind.isOpenTag = true)
    (h : s.Fits root (nodesAll none (ctx.plug [.node a (.node tag tcs :: rest)]) + others) p t) :
    Walk.Takes s.next (s.next + 6) (instrumentBlock o a.id) (p, t)
      fun _ => s.markBlock.Fits root (nodesAll none (ctx.plug
        [.node a (.node tag (tcs ++ [(block.mark (.node tag tcs) s.next).branch o]) :: rest)]) +
          others) := by
  have hkind := h.holds.shows_plug.kind_eq
  rw [kind_node, id_node, ha] at hkind
  have hp := h.progress_eq
  subst hp
  rw [instrumentBlock]
  refine Walk.Takes.bind_tree (Walk.Takes.bind_ok hkind ?_)
  refine Walk.Takes.bind (m := s.next + 6)
    (takes_run (h.holds.markBlock o hid htag) (Nat.le_add_right _ _)) ?_
  rintro t₁ _ _ ⟨rfl, rfl, h₁⟩
  refine Walk.Takes.bind_setTree (Walk.Takes.setState ?_)
  exact ⟨rfl, Nat.le_trans h.number_le (Nat.le_add_right _ _), h.number_lt, h₁⟩

namespace Performs

theorem block {block : LogBlock} {tag : Item} {tcs rest : List Branch} {f : Nat → Work Item Tally}
    (ha : a.kind = .logBlock block) (hid : block.loggingId.isSome = true)
    (htag : tag.kind.isOpenTag = true)
    (hcs : ∀ next, Performs o levels inTag covered
      (.node tag (tcs ++ [(block.mark (.node tag tcs) next).branch o]) :: rest) (f next)) :
    Performs o (levels + 1) inTag covered [.node a (.node tag tcs :: rest)]
      fun s => f s.next s.markBlock := by
  obtain ⟨id, kind, location⟩ := a
  subst ha
  refine of_walk (fun s => Nat.le_trans (Nat.le_add_right _ 6) ((hcs s.next).le s.markBlock)) ?_
  intro root others ctx s p t hctx hin hcov h
  have hle : s.next + 6 ≤ (f s.next s.markBlock).2.next := (hcs s.next).le s.markBlock
  show Walk.Takes _ _ (visitBlock o _ _) _ _
  rw [visitBlock]
  refine Walk.Takes.bind (m := s.next + 6) (takes_instrumentBlock rfl hid htag h) ?_
  rintro - p₁ t₁ h₁
  refine Walk.Takes.bind (m := (f s.next s.markBlock).2.next)
    ((hcs s.next).children hctx hin hcov h₁) ?_ hle
  rintro - p₂ t₂ h₂
  have hnode : t₂.Holds root (f s.next s.markBlock).2.next (nodesAll none
      ((ctx.receive (f s.next s.markBlock).1).plug
        [.node ⟨id, .logBlock block, location⟩ (f s.next s.markBlock).1.forest]) + others) := by
    refine h₂.holds.congr ?_
    rw [plug_grow_nil _ _ (by simp), receive_within _ _ _ _ _ rfl rfl, plug, List.append_nil,
      List.nil_append]
    rfl
  -- What came from below the block stands in the context by now, and only its children move.
  obtain ⟨t₃, hunwrap, h₃⟩ := hnode.unwrap (hctx.receive _).ne_top
  refine Walk.Takes.bind_tree (Walk.Takes.bind_ok hunwrap (Walk.Takes.setTree ?_))
  refine ⟨h₂.progress_eq, h₂.number_le, h₂.number_lt, h₃.congr ?_⟩
  rw [plug_grow_nil _ _ hctx.ne_top]

end Performs

theorem takes_takeNumber {next number : Nat} {report : InstrumentReport} (h : number < maxWord) :
    Walk.Takes next next takeNumber (⟨⟨number⟩, report⟩, t)
      fun n p' t' => n = number ∧ p' = ⟨⟨number + 1⟩, report⟩ ∧ t' = t := by
  have htake : SyntheticCounter.take ⟨number⟩ = .ok (number, ⟨number + 1⟩) := by
    rw [SyntheticCounter.take, if_pos h]
  rw [takeNumber]
  refine Walk.Takes.bind_state (Walk.Takes.bind_ok htake (Walk.Takes.bind_setState ?_))
  exact Walk.Takes.pure ⟨rfl, rfl, rfl⟩

theorem takes_instrumentAttribute {name value : Branch} {rest : List Branch} {call : LoggingCall}
    {calls : List LoggingCall} (hcalls : value.loggingCalls = call :: calls) (hctx : ctx.Rooted)
    (hcov : ctx.covered = true)
    (h : s.Fits root (nodesAll none (ctx.plug [.node a (name :: value :: rest)]) + others) p t) :
    Walk.Takes s.next (moveOut o a name call s).tally.next (instrumentAttribute o a.id) (p, t)
      fun _ => (moveOut o a name call s).tally.Fits root (nodesAll none
        ((ctx.grow ((moveOut o a name call s).growth ctx.inTag)).plug
          [.node a ((moveOut o a name call s).name :: (moveOut o a name call s).value :: rest)]) +
            others) := by
  obtain ⟨target, htarget⟩ := ctx.exists_target hcov
  have hmove := h.holds.moveCall o hctx htarget call
  have hsite := h.holds.site_eq htarget
  have hvalue : t.attributeValue? a.id = some value.id := h.holds.shows_plug.attributeValue?_eq
  have hinValue : t.loggingCallsInValue a.id = value.loggingCalls :=
    h.holds.shows_plug.loggingCallsInValue_eq h.holds.height_le_size_of_plug
  have hp := h.progress_eq
  subst hp
  have hle := add_eight_le_moveOut o a name call s
  have hruns : Walk.Takes s.next (moveOut o a name call s).tally.next (instrumentAttribute o a.id)
      (⟨⟨s.number⟩, s.report⟩, t) fun _ p' t' =>
        p' = ⟨⟨s.number + 1⟩, (moveOut o a name call s).tally.report⟩ ∧
          t'.Holds root (moveOut o a name call s).tally.next (nodesAll none
            ((ctx.grow ((moveOut o a name call s).growth ctx.inTag)).plug [.node a
              ((moveOut o a name call s).name :: (moveOut o a name call s).value :: rest)]) +
                others) := by
    rw [instrumentAttribute]
    refine Walk.Takes.bind_tree ?_
    rw [hvalue, hinValue, hcalls]
    refine Walk.Takes.bind (takes_run_ok hsite) ?_ (Nat.le_refl _)
    rintro _ _ _ ⟨rfl, rfl, rfl⟩
    refine Walk.Takes.bind (takes_takeNumber h.number_lt) ?_ (Nat.le_refl _)
    rintro _ _ _ ⟨rfl, rfl, rfl⟩
    refine Walk.Takes.bind_attempt (m := (moveOut o a name call s).tally.next) hmove ?_
    rintro ⟨t₁, moved⟩ ⟨hreport, h₁⟩
    refine Walk.Takes.bind_setTree (Walk.Takes.bind_state (Walk.Takes.setState ?_))
    refine ⟨?_, h₁⟩
    rw [hreport]
    rfl
  refine hruns.mono ?_
  rintro - p' t' henough ⟨rfl, h₁⟩
  have hnumber := h.number_le
  rw [← number_moveOut o a name call s]
  refine ⟨rfl, ?_, ?_, h₁⟩
  · rw [number_moveOut]
    omega
  · rw [number_moveOut]
    omega

theorem takes_instrumentAttribute_idle {id : NodeId} (hcalls : t.loggingCallsInValue id = [])
    (h : s.Fits root nodes p t) :
    Walk.Takes s.next s.next (instrumentAttribute o id) (p, t) fun _ => s.Fits root nodes := by
  rw [instrumentAttribute]
  refine Walk.Takes.bind_tree ?_
  rw [hcalls]
  cases t.attributeValue? id with
  | none => exact Walk.Takes.pure h
  | some value => exact Walk.Takes.pure h

namespace Performs

theorem move {name value : Branch} {rest : List Branch} {call : LoggingCall}
    {calls : List LoggingCall} {f : Tally → Work Item Tally} (ha : a.kind = .htmlAttribute)
    (hcalls : value.loggingCalls = call :: calls)
    (hcs : ∀ s, Performs o levels inTag true
      ((moveOut o a name call s).name :: (moveOut o a name call s).value :: rest) (f s)) :
    Performs o (levels + 1) inTag true [.node a (name :: value :: rest)] fun s =>
      let m := moveOut o a name call s
      (m.growth inTag ++ ((f s).under inTag a m.tally).1, ((f s).under inTag a m.tally).2) := by
  obtain ⟨id, kind, location⟩ := a
  subst ha
  have hle : ∀ s : Tally,
      s.next ≤ (moveOut o ⟨id, .htmlAttribute, location⟩ name call s).tally.next := by
    intro s
    exact Nat.le_of_add_right_le (add_eight_le_moveOut o _ name call s)
  refine of_walk (fun s => Nat.le_trans (hle s) ((hcs s).le _)) ?_
  intro root others ctx s p t hctx hin hcov h
  show Walk.Takes _ _ (visitAttribute o _ _) _ _
  rw [visitAttribute]
  refine Walk.Takes.bind (takes_instrumentAttribute hcalls hctx hcov h) ?_ (hle s) ((hcs s).le _)
  rintro - p₁ t₁ h₁
  refine (children (f := f s) (hcs s) (hctx.grow _) ?_ ?_ h₁).mono ?_
  · rw [inTag_grow, hin]
  · rw [covered_grow, hcov]
  · rintro - p₂ t₂ - h₂
    refine h₂.congr ?_
    rw [plug_grow_within _ _ _ (hctx.grow _).ne_top, grow_grow, inTag_grow, hin]
    rfl

theorem unmoved (ha : a.kind = .htmlAttribute) (hcalls : valueCalls cs = [])
    (hcs : Performs o levels inTag covered cs f) :
    Performs o (levels + 1) inTag covered [.node a cs] (f.under inTag a) := by
  obtain ⟨id, kind, location⟩ := a
  subst ha
  refine of_walk hcs.le ?_
  intro root others ctx s p t hctx hin hcov h
  have hinValue := h.holds.shows_plug.loggingCallsInValue_eq h.holds.height_le_size_of_plug
  rw [id_node, children_node, hcalls] at hinValue
  show Walk.Takes _ _ (visitAttribute o _ _) _ _
  rw [visitAttribute]
  refine Walk.Takes.bind (takes_instrumentAttribute_idle hinValue h) ?_ (Nat.le_refl _) (hcs.le s)
  rintro - p₁ t₁ h₁
  refine (children (f := f) hcs hctx hin hcov h₁).mono ?_
  rintro - p₂ t₂ - h₂
  refine h₂.congr ?_
  rw [plug_grow_within _ _ _ hctx.ne_top, hin]
  rfl

theorem still_cons (hb : Performs o levels inTag covered [b] (.still [b]))
    (hbs : Performs o levels inTag covered bs (.still bs)) :
    Performs o levels inTag covered (b :: bs) (.still (b :: bs)) :=
  hb.append hbs

theorem still_plain (hkind : a.kind.isPlain = true)
    (hcs : Performs o levels inTag covered cs (.still cs)) :
    Performs o (levels + 1) inTag covered [.node a cs] (.still [.node a cs]) :=
  Work.still_under hkind inTag cs ▸ hcs.plain hkind

theorem still_leaf {next : Nat} {kind : NodeKind} {location : Location}
    (hkind : kind.isPlain = true) :
    Performs o (levels + 1) inTag covered [leaf next kind location]
      (.still [leaf next kind location]) :=
  still_plain hkind nil

theorem still_placeholder {next : Nat} {text : String} {location : Location} :
    Performs o (levels + 2) inTag covered [placeholder next text location]
      (.still [placeholder next text location]) :=
  still_plain rfl (still_leaf rfl)

theorem mark (m : Mark) :
    Performs o (levels + 5) true true [m.branch o] (rewriteMark o (some m)) := by
  let attr : Item := ⟨⟨m.next⟩, .htmlAttribute, m.place⟩
  let name : Branch := leaf (m.next + 1) (.print (markerName o) true) m.place
  let value : Branch := .node ⟨⟨m.next + 2⟩, .attributeValue .none, m.place⟩
    [leaf (m.next + 3) (.print m.value true) m.place]
  have hvalue : value.loggingCalls = m.value.loggingCalls := by
    simp [value, leaf, loggingCalls, loggingCallsAll, NodeKind.exprs]
  have hshape : m.branch o = metadataIf (m.next + 4) (.node attr [name, value]) m.place := rfl
  cases hcalls : m.value.loggingCalls with
  | nil =>
      have hnone : valueCalls [name, value] = [] := hvalue.trans hcalls
      have hwork : rewriteMark o (some m) = .still [m.branch o] := by
        funext s
        rw [rewriteMark, hcalls]
        rfl
      have hattr : Performs o (levels + 3) true true [.node attr [name, value]]
          (.still [.node attr [name, value]]) := by
        refine unmoved rfl hnone (still_cons (still_leaf rfl) ?_)
        exact still_plain rfl (still_leaf rfl)
      rw [hwork, hshape]
      exact still_plain rfl (still_plain rfl hattr)
  | cons call calls =>
      have hwork : rewriteMark o (some m) = fun s =>
          ((moveOut o attr name call s).growth true ++ .only (metadataIf (m.next + 4)
            (.node attr [(moveOut o attr name call s).name, (moveOut o attr name call s).value])
              m.place), (moveOut o attr name call s).tally) := by
        funext s
        rw [rewriteMark, hcalls]
      have hattr : Performs o (levels + 3) true true [.node attr [name, value]] fun s =>
          ((moveOut o attr name call s).growth true ++ .only (.node attr
            [(moveOut o attr name call s).name, (moveOut o attr name call s).value]),
              (moveOut o attr name call s).tally) :=
        move rfl (hvalue.trans hcalls) fun s => still_cons (still_leaf rfl) still_placeholder
      rw [hwork, hshape]
      exact plain rfl (plain rfl hattr)

end Performs

end TemplateLogging
