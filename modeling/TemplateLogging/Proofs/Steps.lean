import TemplateLogging.Proofs.Rewriting

namespace TemplateLogging

open Instrument Rose Context

namespace Tree.Holds

variable {t : Tree} {root : NodeId} {next : Nat} {others : Multiset Node} {ctx outer : Context}
  {a : Item} {b : Branch} {bs before after : List Branch}

theorem createAttribute (h : t.Holds root next others) (name value : Expr) (location : Location) :
    Takes next (next + 4) (t.createAttribute name value location) fun r =>
      r.1 = ⟨next⟩ ∧ r.2.Holds root (next + 4)
        ((printedAttribute next name value location).nodes none + others) := by
  let attr : Item := ⟨⟨next⟩, .htmlAttribute, location⟩
  let printed : Branch := leaf (next + 1) (.print name true) location
  let quotes : Item := ⟨⟨next + 2⟩, .attributeValue .none, location⟩
  rw [Tree.createAttribute]
  refine Takes.bind (h.createNode _ _) ?_
  rintro ⟨_, t₁⟩ ⟨rfl, h₁⟩
  have h₁ : t₁.Holds root (next + 1) (nodesAll none ((within top attr [] []).plug []) + others) :=
    h₁.congr (by simp only [plug, nodesAll_singleton, List.append_nil, attr])
  refine Takes.bind (m := next + 2) (h₁.append _ _) ?_
  rintro ⟨_, t₂⟩ ⟨-, h₂⟩
  have h₂ : t₂.Holds root (next + 2)
      (nodesAll none ((within top attr [printed] []).plug []) + others) := h₂
  refine Takes.bind (m := next + 3) (h₂.append _ _) ?_
  rintro ⟨_, t₃⟩ ⟨rfl, h₃⟩
  have h₃ : t₃.Holds root (next + 3)
      (nodesAll none ((within (within top attr [printed] []) quotes [] []).plug []) + others) := h₃
  refine Takes.bind (m := next + 4) (h₃.append _ _) ?_
  rintro ⟨_, t₄⟩ ⟨-, h₄⟩
  refine Takes.pure ⟨rfl, h₄.congr ?_⟩
  rw [plug, plug, plug, nodesAll_singleton]
  rfl

theorem createIfMetadata (h : t.Holds root next (b.nodes none + others)) (location : Location) :
    Takes next (next + 2) (t.createIfMetadata b.id location) fun r =>
      r.1 = ⟨next⟩ ∧
        r.2.Holds root (next + 2) ((metadataIf next b location).nodes none + others) := by
  let block : Item := ⟨⟨next⟩, .ifBlock, location⟩
  let cond : Item := ⟨⟨next + 1⟩, .ifCond (.call (.builtin .hasLoggingMetadata) []), location⟩
  rw [Tree.createIfMetadata]
  refine Takes.bind (h.createNode _ _) ?_
  rintro ⟨_, t₁⟩ ⟨rfl, h₁⟩
  have h₁ : t₁.Holds root (next + 1)
      (nodesAll none ((within top block [] []).plug []) + (b.nodes none + others)) :=
    h₁.congr (by simp only [plug, nodesAll_singleton, List.append_nil, block])
  refine Takes.bind (m := next + 2) (h₁.append _ _) ?_
  rintro ⟨_, t₂⟩ ⟨rfl, h₂⟩
  have h₂ : t₂.Holds root (next + 2)
      (b.nodes none + nodesAll none ((within (within top block [] []) cond [] []).plug []) +
        others) := by
    refine h₂.congr ?_
    rw [add_left_comm, add_assoc]
    rfl
  obtain ⟨t₃, hadd, h₃⟩ := h₂.addChild
  refine Takes.bind_ok hadd (Takes.pure ⟨rfl, h₃.congr ?_⟩)
  rw [plug, plug, plug, nodesAll_singleton]
  rfl

theorem addConditionalAttribute
    (h : t.Holds root next (nodesAll none ((within outer a before []).plug []) + others))
    (name value : Expr) (location : Location) :
    Takes next (next + 6) (t.addConditionalAttribute a.id name value location) fun t' =>
      t'.Holds root (next + 6) (nodesAll none ((within outer a before []).plug
        [conditionalAttribute next name value location]) + others) := by
  rw [Tree.addConditionalAttribute]
  refine Takes.bind (h.createAttribute name value location) ?_
  rintro ⟨_, t₁⟩ ⟨rfl, h₁⟩
  refine Takes.bind (m := next + 6) (h₁.createIfMetadata location) ?_
  rintro ⟨_, t₂⟩ ⟨rfl, h₂⟩
  obtain ⟨t₃, hadd, h₃⟩ := (h₂.congr (add_assoc _ _ _).symm).addChild
  exact Takes.of_eq hadd h₃

theorem addToTarget (h : t.Holds root next (nodesAll none (ctx.plug bs) + others)) {target : Item}
    (htarget : ctx.target? = some target) (name value : Expr) (location : Location) :
    Takes next (next + 6) (t.addConditionalAttribute target.id name value location) fun t' =>
      t'.Holds root (next + 6) (nodesAll none
        ((ctx.grow ⟨[], [], [conditionalAttribute next name value location]⟩).plug bs) +
          others) := by
  rw [target?] at htarget
  rw [grow, widen_nil]
  cases hctx : ctx.inTag with
  | true =>
      obtain ⟨tag, outer, hfind, -, hplug⟩ := ctx.exists_tag hctx
      rw [hfind, Option.some_or, Option.some.injEq] at htarget
      subst htarget
      obtain ⟨cs, hcs, hreceive⟩ := hplug bs
      have hhole : t.Holds root next
          (nodesAll none ((within outer tag cs []).plug []) + others) := by
        rwa [plug_nil, ← hcs]
      refine (hhole.addConditionalAttribute name value location).mono ?_
      rintro t' - ht'
      refine ht'.congr ?_
      rw [receive, hctx, if_pos rfl, hreceive, widen_nil, plug, List.append_nil]
  | false =>
      rw [ctx.find?_isOpenTag_eq_none hctx, Option.none_or] at htarget
      obtain ⟨outer, hplug⟩ := ctx.exists_template htarget
      obtain ⟨cs, hcs, hreceive⟩ := hplug bs
      have hhole : t.Holds root next
          (nodesAll none ((within outer target cs []).plug []) + others) := by
        rwa [plug_nil, ← hcs]
      refine (hhole.addConditionalAttribute name value location).mono ?_
      rintro t' - ht'
      refine ht'.congr ?_
      rw [receive, hctx, if_neg Bool.false_ne_true, hreceive, plug, List.append_nil]

theorem insertBefore {c : Branch}
    (h : t.Holds root next (c.nodes none + nodesAll none (ctx.plug [b]) + others))
    (hctx : ctx ≠ .top) : ∃ parent, t.parent? b.id = some parent ∧
      ∃ t', t.insertChild parent ((t.childIndex? parent b.id).getD 0) c.id = .ok t' ∧
        t'.Holds root next (nodesAll none (ctx.plug [c, b]) + others) := by
  cases ctx with
  | top => exact absurd rfl hctx
  | within outer a l r =>
      have hplug : t.Holds root next
          (nodesAll none ((within outer a l r).plug [b]) + (c.nodes none + others)) :=
        h.congr (by abel)
      have hhole : t.Holds root next
          (c.nodes none + nodesAll none ((within outer a l (b :: r)).plug []) + others) := by
        refine h.congr ?_
        rw [plug, plug, List.append_nil, List.append_assoc, List.singleton_append]
      obtain ⟨t', hinsert, ht'⟩ := hhole.insertChild
      refine ⟨a.id, hplug.shows_plug.parent?_eq, t', ?_, ?_⟩
      · rw [hplug.childIndex?_eq]
        exact hinsert
      · refine ht'.congr ?_
        simp only [plug, List.append_assoc, List.cons_append, List.nil_append]

theorem insertBinding {c : Branch}
    (h : t.Holds root next (c.nodes none + nodesAll none (ctx.plug [b]) + others))
    (hctx : ctx.Rooted) {anchor : NodeId}
    (hanchor : anchor = ((ctx.items.find? (·.kind.isOpenTag)).map (·.id)).getD b.id) :
    ∃ parent, t.parent? anchor = some parent ∧
      ∃ t', t.insertChild parent ((t.childIndex? parent anchor).getD 0) c.id = .ok t' ∧
        t'.Holds root next
          (nodesAll none ((ctx.grow (.bound ctx.inTag [c])).plug [b]) + others) := by
  cases hin : ctx.inTag with
  | true =>
      obtain ⟨tag, outer, hfind, houter, hplug⟩ := ctx.exists_tag hin
      obtain ⟨cs, hcs, hreceive⟩ := hplug [b]
      rw [hfind] at hanchor
      subst hanchor
      rw [hcs] at h
      obtain ⟨parent, hparent, t', hinsert, ht'⟩ := h.insertBefore (houter hctx).ne_top
      refine ⟨parent, hparent, t', hinsert, ht'.congr ?_⟩
      rw [Growth.bound, if_pos rfl, grow, widen_nil, receive, hin, if_pos rfl, hreceive,
        plug_widen_of_ne_top _ _ _ _ (houter hctx).ne_top, List.append_nil, List.append_nil,
        List.singleton_append]
  | false =>
      rw [ctx.find?_isOpenTag_eq_none hin] at hanchor
      subst hanchor
      obtain ⟨parent, hparent, t', hinsert, ht'⟩ := h.insertBefore hctx.ne_top
      refine ⟨parent, hparent, t', hinsert, ht'.congr ?_⟩
      rw [Growth.bound, if_neg Bool.false_ne_true, grow, receive_forest,
        plug_widen_of_ne_top _ _ _ _ hctx.ne_top, List.append_nil, List.singleton_append]

theorem hoistName {name : Branch} {rest : List Branch}
    (h : t.Holds root next (nodesAll none (ctx.plug [.node a (name :: rest)]) + others))
    (hctx : ctx.Rooted) (varName : String) :
    Takes next (next + 2) (Instrument.hoistName t a.id name.id
      ((ctx.items.find? (·.kind.isOpenTag)).map (·.id)) varName a.location) fun t' =>
        t'.Holds root (next + 2) (nodesAll none
          ((ctx.grow (.bound ctx.inTag [binding next varName name])).plug
            [.node a (leaf (next + 1) (.print (.varRef varName) true) a.location :: rest)]) +
              others) := by
  let letItem : Item := ⟨⟨next⟩, .letContent varName, name.label.location⟩
  let reference : Branch := leaf (next + 1) (.print (.varRef varName) true) a.location
  have hname := h.shows_plug.children
  rw [children_node, showsAll_cons_iff] at hname
  rw [Instrument.hoistName]
  refine Takes.bind_ok hname.1.location_eq ?_
  refine Takes.bind (h.createNode _ _) ?_
  rintro ⟨_, t₁⟩ ⟨rfl, h₁⟩
  refine Takes.bind (m := next + 2) (h₁.createNode _ _) ?_
  rintro ⟨_, t₂⟩ ⟨rfl, h₂⟩
  have h₂ : t₂.Holds root (next + 2) (reference.nodes none +
      nodesAll none ((within ctx a [] rest).plug [name]) +
        ((Rose.node letItem []).nodes none + others)) := by
    refine h₂.congr ?_
    rw [plug, List.nil_append, List.singleton_append]
    show reference.nodes none + ((Rose.node letItem []).nodes none + _) = _
    abel
  have h₃ : (t₂.replaceChild a.id name.id reference.id).Holds root (next + 2)
      (name.nodes none + nodesAll none ((within .top letItem [] []).plug []) +
        (nodesAll none ((within ctx a [] rest).plug [reference]) + others)) := by
    refine h₂.replaceChild.congr ?_
    rw [plug, plug, plug, List.append_nil, List.append_nil, nodesAll_singleton]
    abel
  obtain ⟨t₄, hadd, h₄⟩ := h₃.addChild
  have h₄ : t₄.Holds root (next + 2) ((binding next varName name).nodes none +
      nodesAll none (ctx.plug [.node a (reference :: rest)]) + others) := by
    refine h₄.congr ?_
    rw [plug, plug, plug, nodesAll_singleton, add_assoc]
    rfl
  obtain ⟨parent, hparent, t₅, hinsert, h₅⟩ := h₄.insertBinding hctx rfl
  refine Takes.bind_ok hadd ?_
  refine Takes.of_eq ?_ h₅
  rw [id_node] at hparent hinsert
  simp only [hparent]
  exact hinsert

theorem replaceValue {name value : Branch} {rest : List Branch}
    (h : t.Holds root next (nodesAll none (ctx.plug [.node a (name :: value :: rest)]) + others))
    (text : String) (location : Location) :
    Takes next (next + 2) (Instrument.replaceValue t a.id value.id text location) fun t' =>
      t'.Holds root (next + 2) (nodesAll none
        (ctx.plug [.node a (name :: placeholder next text location :: rest)]) + others) := by
  let quotes : Item := ⟨⟨next⟩, .attributeValue .double, location⟩
  rw [Instrument.replaceValue]
  refine Takes.bind (h.createNode _ _) ?_
  rintro ⟨_, t₁⟩ ⟨rfl, h₁⟩
  have h₁ : t₁.Holds root (next + 1) (nodesAll none ((within .top quotes [] []).plug []) +
      (nodesAll none (ctx.plug [.node a (name :: value :: rest)]) + others)) := by
    refine h₁.congr ?_
    rw [plug, plug, nodesAll_singleton]
    rfl
  refine Takes.bind (m := next + 2) (h₁.append _ _) ?_
  rintro ⟨_, t₂⟩ ⟨-, h₂⟩
  have h₂ : t₂.Holds root (next + 2) ((placeholder next text location).nodes none +
      nodesAll none ((within ctx a [name] rest).plug [value]) + others) := by
    refine h₂.congr ?_
    rw [plug, plug, plug, nodesAll_singleton, add_assoc]
    rfl
  have h₃ := h₂.replaceChild
  rw [add_assoc] at h₃
  have hdetach := detach_eq_self h₃.shows
  rw [← hdetach] at h₃
  exact Takes.pure h₃.removeSubtree

theorem firstTag?_eq {tag : Item} {cs rest : List Branch}
    (h : t.Holds root next (nodesAll none (ctx.plug [.node a (.node tag cs :: rest)]) + others))
    (htag : tag.kind.isOpenTag = true) :
    firstTag? t a.id = .ok (some (tag.id, tagEnd tag.location tag.kind.selfCloses)) := by
  have hshows := h.shows_plug
  have hfirst := hshows.child?_eq 0
  have hchildren := hshows.children
  rw [children_node, showsAll_cons_iff] at hchildren
  obtain ⟨id, kind, location⟩ := tag
  cases kind <;> cases htag
  rw [firstTag?, ← id_node a, hfirst]
  show ((t.node id >>= fun node => _) : Except Fault _) = _
  rw [Tree.node, show t.get? id = _ from hchildren.1.get?]
  rfl

theorem markBlock {block : LogBlock} {tag : Item} {cs rest : List Branch} (o : InstrumentOptions)
    (h : t.Holds root next (nodesAll none (ctx.plug [.node a (.node tag cs :: rest)]) + others))
    (hid : block.loggingId.isSome = true) (htag : tag.kind.isOpenTag = true) :
    Takes next (next + 6) (Instrument.markBlock o t a.id block).run fun r => ∃ t', r = .ok t' ∧
      t'.Holds root (next + 6) (nodesAll none (ctx.plug
        [.node a (.node tag (cs ++ [(block.mark (.node tag cs) next).branch o]) :: rest)]) +
          others) := by
  obtain ⟨loggingId, hid⟩ := Option.isSome_iff_exists.mp hid
  have htagHole : t.Holds root next
      (nodesAll none ((within (within ctx a [] rest) tag cs []).plug []) + others) := by
    refine h.congr ?_
    rw [plug, plug, List.append_nil, List.append_nil, List.nil_append, List.singleton_append]
  have hadd := htagHole.addConditionalAttribute (markerName o) (marker loggingId block)
    (tagEnd tag.location tag.kind.selfCloses)
  have hrun : (Instrument.markBlock o t a.id block).run =
      (t.addConditionalAttribute tag.id (markerName o) (marker loggingId block)
        (tagEnd tag.location tag.kind.selfCloses)).map Except.ok := by
    rw [Instrument.markBlock, hid, h.firstTag?_eq htag]
    rfl
  rw [hrun]
  refine Takes.bind hadd ?_
  intro t' ht'
  refine Takes.pure ⟨t', rfl, ht'.congr ?_⟩
  rw [plug, plug, List.nil_append, List.append_nil, List.singleton_append, Mark.branch,
    LogBlock.mark, hid]
  rfl

theorem site_eq {name : Branch} {rest : List Branch} {target : Item}
    (h : t.Holds root next (nodesAll none (ctx.plug [.node a (name :: rest)]) + others))
    (htarget : ctx.target? = some target) :
    (site t a.id).run = .ok (.ok ⟨name.id, a.location,
      (ctx.items.find? (·.kind.isOpenTag)).map (·.id), target.id⟩) := by
  have hshows := h.shows_plug
  have hname := hshows.child?_eq 0
  have hlocation := hshows.location_eq
  have htag := h.nearestAncestor?_eq (·.isOpenTag)
  have htemplate := h.nearestAncestor?_eq (·.isTemplate)
  rw [id_node] at hname hlocation htag htemplate
  rw [target?] at htarget
  rw [site, hname, hlocation, htag, htemplate]
  cases hfind : ctx.items.find? (·.kind.isOpenTag) with
  | some tag =>
      rw [hfind, Option.some_or, Option.some.injEq] at htarget
      subst htarget
      rfl
  | none =>
      rw [hfind, Option.none_or] at htarget
      rw [htarget]
      rfl

theorem moveValue {name value : Branch} {rest : List Branch} {target : Item}
    (h : t.Holds root next (nodesAll none (ctx.plug [.node a (name :: value :: rest)]) + others))
    (htarget : ctx.target? = some target) (attrName attrValue : Expr) (text : String)
    (location : Location) (hoisted : Bool) :
    Takes next (next + 8) (do
      let t ← t.addConditionalAttribute target.id attrName attrValue location
      let t ← Instrument.replaceValue t a.id value.id text location
      return (t, hoisted)) fun r => r.2 = hoisted ∧ r.1.Holds root (next + 8) (nodesAll none
        ((ctx.grow ⟨[], [], [conditionalAttribute next attrName attrValue location]⟩).plug
          [.node a (name :: placeholder (next + 6) text location :: rest)]) + others) := by
  refine Takes.bind (h.addToTarget htarget attrName attrValue location) ?_
  intro t₁ h₁
  refine Takes.bind (m := next + 8) (h₁.replaceValue text location) ?_
  intro t₂ h₂
  exact Takes.pure ⟨rfl, h₂⟩

theorem attributeName_literal {openTag : Option NodeId} {id nameId : NodeId} {text : String}
    (h : t.kind nameId = .ok (.rawText text)) (o : InstrumentOptions) (number : Nat)
    (location : Location) :
    attributeName o t id nameId openTag number location = .ok (.str text, t, false) := by
  rw [attributeName, h]
  rfl

theorem attributeName_computed {name : Branch} {openTag : Option NodeId} {id : NodeId}
    (h : t.kind name.id = .ok name.kind) (hlit : name.isLiteral = false) (o : InstrumentOptions)
    (number : Nat) (location : Location) :
    attributeName o t id name.id openTag number location =
      (Instrument.hoistName t id name.id openTag (variableName o number) location).map
        fun t => (.varRef (variableName o number), t, true) := by
  rw [attributeName, h]
  rw [isLiteral] at hlit
  cases hkind : name.kind with
  | rawText text =>
      rw [hkind] at hlit
      cases hlit
  | _ => rfl

theorem moveCall {name value : Branch} {rest : List Branch} {target : Item} {s : Tally}
    (o : InstrumentOptions)
    (h : t.Holds root s.next (nodesAll none (ctx.plug [.node a (name :: value :: rest)]) + others))
    (hctx : ctx.Rooted) (htarget : ctx.target? = some target) (call : LoggingCall) :
    Takes s.next (moveOut o a name call s).tally.next
      (Instrument.moveCall o t a.id value.id call ⟨name.id, a.location,
        (ctx.items.find? (·.kind.isOpenTag)).map (·.id), target.id⟩ s.number) fun r =>
      (moveOut o a name call s).tally = s.moveCall r.2 ∧
        r.1.Holds root (moveOut o a name call s).tally.next (nodesAll none
          ((ctx.grow ((moveOut o a name call s).growth ctx.inTag)).plug
            [.node a ((moveOut o a name call s).name :: (moveOut o a name call s).value :: rest)]) +
              others) := by
  have hname := h.shows_plug.children
  rw [children_node, showsAll_cons_iff] at hname
  rw [Instrument.moveCall]
  cases hlit : name.isLiteral with
  | true =>
      obtain ⟨text, htext⟩ := exists_text_of_isLiteral hlit
      rw [moveOut_literal htext]
      refine Takes.bind_ok (attributeName_literal (htext ▸ hname.1.kind_eq) o _ _) ?_
      refine (h.moveValue htarget (functionAttributeName o s.number) (renderCall call (.str text))
        call.function.placeholder a.location false).mono ?_
      rintro ⟨t', hoisted⟩ - ⟨rfl, ht'⟩
      refine ⟨rfl, ht'.congr ?_⟩
      rw [Move.growth, Growth.bound]
      cases ctx.inTag <;> rfl
  | false =>
      rw [moveOut_computed hlit, attributeName_computed hname.1.kind_eq hlit]
      refine Takes.bind (h.hoistName hctx (variableName o s.number)).map ?_ (Nat.le_add_right _ _)
        (Nat.add_le_add_left (by decide : 2 ≤ 10) _)
      rintro _ ⟨t₁, rfl, h₁⟩
      have htarget₁ := htarget
      rw [← ctx.target?_grow (.bound ctx.inTag [binding s.next (variableName o s.number) name])]
        at htarget₁
      refine (h₁.moveValue htarget₁ (functionAttributeName o s.number)
        (renderCall call (.varRef (variableName o s.number))) call.function.placeholder
          a.location true).mono ?_
      rintro ⟨t', hoisted⟩ - ⟨rfl, ht'⟩
      refine ⟨rfl, ht'.congr ?_⟩
      rw [Context.grow_grow]
      rfl

end Tree.Holds

end TemplateLogging
