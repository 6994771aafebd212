import TemplateLogging.Proofs.Erasure
import TemplateLogging.Proofs.Survival
import TemplateLogging.Proofs.Visits

namespace TemplateLogging

open Instrument Rose

/-- A condition on logging metadata around an attribute of which all but the value is known. -/
def Gates (name : NodeKind) (quotes : Quotes) (value : NodeKind) (m : Branch) : Prop :=
  ∃ next place attr nameBranch valueItem part,
    m = metadataIf next (.node attr [nameBranch, .node valueItem [part]]) place ∧
      attr.kind = .htmlAttribute ∧ nameBranch.kind = name ∧
        valueItem.kind = .attributeValue quotes ∧ part.kind = value

/-- The marker of a block as it is left behind. A logging call in it has made it an attribute like
any other, with a placeholder in the place of its value. -/
def MarkerOf (o : InstrumentOptions) (block : LogBlock) (m : Branch) : Prop :=
  match (NodeKind.logBlock block).exprs.flatMap Expr.loggingCalls with
  | [] => Gates (.print (markerName o) true) .none
      (.print (marker (block.loggingId.getD 0) block) true) m
  | call :: _ => ∃ number, Gates (.print (.varRef (variableName o number)) true) .double
      (.rawText call.function.placeholder) m

/-- The branch is a condition on logging metadata. -/
def IsGate (b : Branch) : Prop :=
  ∃ next body place, b = metadataIf next body place

/-- If the branch is a logging block, its open tag is among the given ones, with the marker. Only
other conditions on logging metadata come after the marker. -/
def Marked (o : InstrumentOptions) (x : Branch) (bs : List Branch) : Prop :=
  ∀ block, x.kind = .logBlock block → block.loggingId.isSome = true ∧
    ∃ tag rest, x.children = tag :: rest ∧ ∃ y path, Occurs y path bs ∧ y.label = tag.label ∧
      ∃ before m after, y.children = before ++ m :: after ∧ MarkerOf o block m ∧
        ∀ b ∈ after, IsGate b

variable {o : InstrumentOptions} {x : Branch} {xs ys : List Branch} {inTag : Bool} {a : Item}
  {cs : List Branch}

theorem Marked.of_ne {bs : List Branch} (h : ∀ block, x.kind ≠ .logBlock block) :
    Marked o x bs :=
  fun block hkind => absurd hkind (h block)

theorem Marked.imp {bs bs' : List Branch} (h : Marked o x bs)
    (hocc : ∀ y path, Occurs y path bs → ∃ path, Occurs y path bs') : Marked o x bs' := by
  intro block hkind
  obtain ⟨hid, tag, rest, hx, y, path, hy, hlabel, hmarker⟩ := h block hkind
  obtain ⟨path, hy⟩ := hocc y path hy
  exact ⟨hid, tag, rest, hx, y, path, hy, hlabel, hmarker⟩

/-- The work leaves the markers of all the blocks among the branches. -/
structure Marks (o : InstrumentOptions) (xs : List Branch) (f : Work Item Tally) : Prop where
  gates : ∀ s, ∀ b ∈ (f s).1.attributes, IsGate b
  marked : ∀ s, ∀ x ∈ xs, Marked o x (f s).1.whole

namespace Marks

variable {f g : Work Item Tally}

theorem still (bs : List Branch) : Marks o [] (.still bs) where
  gates s b hb := by
    cases hb
  marked s x hx := by
    cases hx

theorem andThen (h : Marks o xs f) (h' : Marks o ys g) : Marks o (xs ++ ys) (f.andThen g) where
  gates s b hb := by
    rcases List.mem_append.mp hb with hb | hb
    · exact h.gates s b hb
    · exact h'.gates _ b hb
  marked s x hx := by
    rcases List.mem_append.mp hx with hx | hx
    · exact (h.marked s x hx).imp fun y path hy => ⟨path, hy.mono (Growth.whole_subset_left _ _)⟩
    · exact (h'.marked _ x hx).imp fun y path hy => ⟨path, hy.mono (Growth.whole_subset_right _ _)⟩

theorem under (h : Marks o xs f) (inTag : Bool) (a : Item) : Marks o xs (f.under inTag a) where
  gates s b hb := by
    rw [Work.under, Growth.wrap] at hb
    split at hb
    · cases hb
    · split at hb
      · cases hb
      · exact h.gates s b hb
  marked s x hx := (h.marked s x hx).imp fun y path hy => Growth.occurs_wrap hy inTag a

theorem enter (h : Marks o xs f) (next : Tally → Tally) : Marks o xs fun s => f (next s) where
  gates s := h.gates (next s)
  marked s := h.marked (next s)

theorem cons (h : Marks o xs f) (hx : ∀ block, x.kind ≠ .logBlock block) :
    Marks o (x :: xs) f where
  gates := h.gates
  marked s := List.forall_mem_cons.mpr ⟨.of_ne hx, h.marked s⟩

end Marks

theorem isGate_conditional (a : Item) (name : Branch) (call : LoggingCall) (s : Tally) :
    IsGate (moveOut o a name call s).conditional := by
  rw [moveOut]
  split
  · exact ⟨_, _, _, rfl⟩
  · exact ⟨_, _, _, rfl⟩

theorem isGate_of_mem_growth {name : Branch} {call : LoggingCall} {s : Tally} {b : Branch}
    (hb : b ∈ ((moveOut o a name call s).growth inTag).attributes) : IsGate b := by
  have hsent : b ∈ [(moveOut o a name call s).conditional] := by
    cases inTag with
    | true => exact hb
    | false => exact hb
  rw [List.mem_singleton.mp hsent]
  exact isGate_conditional a name call s

theorem marks_rewriteMark (mark : Option Mark) : Marks o [] (rewriteMark o mark) where
  gates s b hb := by
    rw [rewriteMark.eq_def] at hb
    split at hb
    · cases hb
    · split at hb
      · cases hb
      · rw [Growth.attributes_append, Growth.only, List.append_nil] at hb
        exact isGate_of_mem_growth hb
  marked s x hx := by
    cases hx

theorem exists_markerOf (o : InstrumentOptions) (block : LogBlock) (tag : Branch) (next : Nat)
    (s : Tally) :
    ∃ m, (rewriteMark o (some (block.mark tag next)) s).1.forest = [m] ∧ MarkerOf o block m := by
  have hvalue := loggingCalls_marker (block.loggingId.getD 0) block
  cases hcalls : (NodeKind.logBlock block).exprs.flatMap Expr.loggingCalls with
  | nil =>
      rw [hcalls] at hvalue
      rw [rewriteMark_still hvalue]
      refine ⟨_, rfl, ?_⟩
      rw [MarkerOf, hcalls]
      exact ⟨_, _, _, _, _, _, rfl, rfl, rfl, rfl, rfl⟩
  | cons call calls =>
      rw [hcalls] at hvalue
      have hmoved : (block.mark tag next).value.loggingCalls = call :: calls := hvalue
      rw [rewriteMark, hmoved]
      refine ⟨_, rfl, ?_⟩
      rw [MarkerOf, hcalls, moveOut_computed rfl]
      exact ⟨s.number, _, _, _, _, _, _, rfl, rfl, rfl, rfl, rfl⟩

theorem marked_block {block : LogBlock} {tag : Item} {attrs rest : List Branch}
    (hkind : a.kind = .logBlock block) (hid : block.loggingId.isSome = true)
    (htag : tag.kind.isOpenTag = true) {xs : List Branch}
    (hattrs : Marks o xs (rewriteAll o true attrs)) (s : Tally) :
    Marked o (.node a (.node tag attrs :: rest))
      (rewrite o inTag none (.node a (.node tag attrs :: rest)) s).1.whole := by
  intro block' hkind'
  obtain rfl : block = block' := NodeKind.logBlock.inj (hkind.symm.trans hkind')
  let work := (rewriteAll o true attrs).andThen
    (rewriteMark o (some (block.mark (.node tag attrs) s.next)))
  obtain ⟨m, hm, hmarker⟩ := exists_markerOf o block (.node tag attrs) s.next
    (rewriteAll o true attrs s.markBlock).2
  have hwork : Marks o (xs ++ []) work := hattrs.andThen (marks_rewriteMark _)
  let before := (rewriteAll o true attrs s.markBlock).1.forest
  have hforest : (work s.markBlock).1.forest = before ++ [m] := congrArg _ hm
  refine ⟨hid, .node tag attrs, rest, rfl, .node tag ((work s.markBlock).1.forest ++
    (work s.markBlock).1.attributes), [], ?_, rfl, before, m, (work s.markBlock).1.attributes, ?_,
    hmarker, hwork.gates s.markBlock⟩
  · rw [rewrite_block hkind htag]
    refine Occurs.here (Growth.whole_subset_left _ _ ?_)
    rw [Work.under, Growth.wrap, if_pos htag, Growth.underTag, Growth.whole_forest]
    exact List.mem_append_right _ (List.mem_singleton_self _)
  · rw [children_node, hforest, List.append_assoc]
    rfl

theorem marks_attribute {name value : Branch} {rest : List Branch} {call : LoggingCall}
    (hkind : a.kind = .htmlAttribute) (hcalls : value.loggingCalls = [call])
    (hname : Marks o name.walked (rewrite o inTag none name))
    (hrest : Marks o (walkedAll rest) (rewriteAll o inTag rest)) :
    Marks o (node a (name :: value :: rest)).walked
      (rewrite o inTag none (.node a (name :: value :: rest))) := by
  rw [rewrite_move hkind hcalls, walked_move hkind hcalls]
  refine Marks.cons ?_ (by simp [hkind])
  have hbody : ∀ s, Marks o ((if name.isLiteral then name.walked else []) ++ walkedAll rest)
      (((if name.isLiteral then rewrite o inTag none name
        else .still [(moveOut o a name call s).name]).andThen
          (.still [(moveOut o a name call s).value])).andThen (rewriteAll o inTag rest)) := by
    intro s
    rw [← List.append_nil (if name.isLiteral then name.walked else [])]
    refine (Marks.andThen ?_ (.still _)).andThen hrest
    split
    · exact hname
    · exact .still _
  constructor
  · intro s b hb
    rcases List.mem_append.mp hb with hb | hb
    · exact isGate_of_mem_growth hb
    · exact ((hbody s).under inTag a).gates _ b hb
  · intro s x hx
    exact (((hbody s).under inTag a).marked _ x hx).imp
      fun y path hy => ⟨path, hy.mono (Growth.whole_subset_right _ _)⟩

theorem hereditary_marks (o : InstrumentOptions) : Hereditary
    (fun inTag _ b => Marks o b.walked (rewrite o inTag none b))
    (fun inTag _ bs => Marks o (walkedAll bs) (rewriteAll o inTag bs)) where
  nil {_ _} := by
    rw [rewriteAll_nil, walkedAll]
    exact .still []
  cons hb hbs := by
    rw [rewriteAll_cons, walkedAll]
    exact hb.andThen hbs
  dependency hkind := by
    rw [rewrite_dependency hkind, walked_dependency hkind]
    exact (Marks.still _).cons (by simp [hkind])
  source hkind hcs := by
    rw [rewrite_source hkind, walked_source hkind]
    exact ((hcs.under _ _).enter _).cons (by simp [hkind])
  template hkind hcs := by
    rw [rewrite_template hkind, walked_template hkind]
    exact ((hcs.under _ _).enter _).cons (by simp [hkind])
  openTag htag hcs := by
    rw [rewrite_openTag htag, andThen_rewriteMark_none, walked_openTag htag]
    exact (hcs.under _ _).cons (NodeKind.ne_logBlock_of_isOpenTag htag)
  block {inTag _ a block tag attrs rest} hkind hid htag hattrs hrest := by
    rw [walked_block hkind, walkedAll, walked_openTag htag]
    have hall : ∀ mark, Marks o ((node tag attrs :: walkedAll attrs) ++ walkedAll rest)
        ((((rewriteAll o true attrs).andThen (rewriteMark o mark)).under inTag tag).andThen
          (rewriteAll o inTag rest)) := by
      intro mark
      have hmarked := (hattrs.andThen (marks_rewriteMark mark)).under inTag tag
      rw [List.append_nil] at hmarked
      have htagKind : ∀ block, (Rose.node tag attrs).kind ≠ .logBlock block :=
        NodeKind.ne_logBlock_of_isOpenTag htag
      exact (hmarked.cons htagKind).andThen hrest
    constructor
    · intro s
      rw [rewrite_block hkind htag]
      exact (hall _).gates s.markBlock
    · intro s
      refine List.forall_mem_cons.mpr ⟨marked_block hkind hid htag hattrs s, ?_⟩
      rw [rewrite_block hkind htag]
      exact (hall _).marked s.markBlock
  unmoved hkind hcalls hcs := by
    rw [rewrite_attribute hkind hcalls, walked_attribute hkind hcalls]
    exact (hcs.under _ _).cons (by simp [hkind])
  moved hkind hcalls hname hrest := marks_attribute hkind hcalls hname hrest
  plain hplain hcs := by
    rw [rewrite_plain hplain, walked_plain hplain]
    exact (hcs.under _ _).cons (NodeKind.ne_logBlock_of_isPlain hplain)

namespace Tree

/-- The node asks for logging metadata around another one. -/
def IsGateOf (t : Tree) (gate body : NodeId) : Prop :=
  t.kind gate = .ok .ifBlock ∧ ∃ branch, t.children gate = [branch] ∧
    t.kind branch = .ok (.ifCond (.call (.builtin .hasLoggingMetadata) [])) ∧
      t.children branch = [body]

/-- A tag ends with a child that asks for logging metadata around an attribute with the given name
and value, apart from other such conditions that come after it. -/
def HasGated (t : Tree) (tag : NodeId) (name : NodeKind) (quotes : Quotes) (value : NodeKind) :
    Prop :=
  ∃ before gate after attr nameId valueId part, t.children tag = before ++ gate :: after ∧
    (∀ other ∈ after, ∃ body, t.IsGateOf other body) ∧ t.IsGateOf gate attr ∧
      t.kind attr = .ok .htmlAttribute ∧ t.children attr = [nameId, valueId] ∧
        t.kind nameId = .ok name ∧ t.kind valueId = .ok (.attributeValue quotes) ∧
          t.children valueId = [part] ∧ t.kind part = .ok value

variable {t t' : Tree} {report : InstrumentReport} {parent : Option NodeId}

theorem Shows.isGateOf {next : Nat} {body : Branch} {place : Location}
    (h : t.Shows parent (metadataIf next body place)) : t.IsGateOf ⟨next⟩ body.id := by
  have hbranch := h.children.of_mem (List.mem_singleton_self _)
  exact ⟨h.kind_eq, _, h.children_eq, hbranch.kind_eq, hbranch.children_eq⟩

theorem Shows.hasGated {y m : Branch} {before after : List Branch} {name value : NodeKind}
    {quotes : Quotes} (h : t.Shows parent y) (hm : y.children = before ++ m :: after)
    (hgates : Gates name quotes value m) (hafter : ∀ b ∈ after, IsGate b) :
    t.HasGated y.id name quotes value := by
  obtain ⟨next, place, attr, nameBranch, valueItem, part, rfl, hattr, rfl, hvalue, rfl⟩ := hgates
  have hcs := h.children
  rw [hm] at hcs
  have hgate := hcs.of_mem (List.mem_append_right _ List.mem_cons_self)
  have hbranch := hgate.children.of_mem (List.mem_singleton_self _)
  have hattribute := hbranch.children.of_mem (List.mem_singleton_self _)
  have hname := hattribute.children.of_mem (b := nameBranch) List.mem_cons_self
  have hvalueNode := hattribute.children.of_mem (b := .node valueItem [part])
    (List.mem_cons_of_mem _ (List.mem_singleton_self _))
  have hpart := hvalueNode.children.of_mem (List.mem_singleton_self part)
  refine ⟨before.map Rose.id, _, after.map Rose.id, attr.id, nameBranch.id, valueItem.id, part.id,
    ?_, ?_, hgate.isGateOf, ?_, hattribute.children_eq, hname.kind_eq, ?_, hvalueNode.children_eq,
    hpart.kind_eq⟩
  · rw [h.children_eq, hm, List.map_append, List.map_cons]
    rfl
  · intro other hother
    obtain ⟨b, hb, rfl⟩ := List.mem_map.mp hother
    have hshows := hcs.of_mem (List.mem_append_right _ (List.mem_cons_of_mem _ hb))
    obtain ⟨next, body, place, rfl⟩ := hafter b hb
    exact ⟨body.id, hshows.isGateOf⟩
  · rw [← hattr]
    exact hattribute.kind_eq
  · rw [← hvalue]
    exact hvalueNode.kind_eq

/-- Every block that the walk comes to leaves a marker on its open tag. The marker stays as it is if
there is no logging call in the configuration of the block or in its condition. Otherwise the first
of these calls is taken for the value of an attribute, and the name and the value of the marker
are replaced. -/
theorem instrument_marks (hwf : t.WellFormed) (hrun : t.instrument o = .ok (.ok report, t'))
    {v : NodeId} {block : LogBlock} (hv : v ∈ t.visits) (hkind : t.kind v = .ok (.logBlock block)) :
    ∃ id tag, block.loggingId = some id ∧ t.child? v 0 = some tag ∧
      match (NodeKind.logBlock block).exprs.flatMap Expr.loggingCalls with
      | [] => t'.HasGated tag (.print (markerName o) true) .none (.print (marker id block) true)
      | call :: _ => ∃ number, t'.HasGated tag (.print (.varRef (variableName o number)) true)
          .double (.rawText call.function.placeholder) := by
  obtain ⟨a, cs, others, hroot, hfileSet, -, hready, h, -, h'⟩ := hwf.exists_run hrun
  obtain ⟨x, hx, rfl, parent, hshows⟩ := h.exists_walked hroot hv
  have hblock : x.kind = .logBlock block := Except.ok.inj (hshows.kind_eq.symm.trans hkind)
  have hplain := NodeKind.isPlain_of_fileSet hfileSet
  rw [walked_plain hplain, List.mem_cons] at hx
  have hx : x ∈ walkedAll cs := by
    refine hx.resolve_left ?_
    rintro rfl
    exact NodeKind.ne_logBlock_of_isPlain hplain block hblock
  have hmarks : Marks o (walkedAll cs) (rewriteAll o false cs) :=
    (hereditary_marks o).of_files hready
  obtain ⟨hid, tag, rest, hchildren, y, path, hy, hlabel, before, m, after, hm, hmarker, hafter⟩ :=
    hmarks.marked (.start t.ids.next) x hx block hblock
  rw [whole_files hready] at hy
  obtain ⟨id, hid⟩ := Option.isSome_iff_exists.mp hid
  have hy := h'.shows.children.of_occurs hy
  have htag : y.id = tag.id := congrArg Item.id hlabel
  refine ⟨id, tag.id, hid, ?_, ?_⟩
  · rw [hshows.child?_eq, hchildren]
    rfl
  · rw [MarkerOf, hid] at hmarker
    rw [← htag]
    split at hmarker
    · exact hy.hasGated hm hmarker hafter
    · obtain ⟨number, hgates⟩ := hmarker
      exact ⟨number, hy.hasGated hm hgates hafter⟩

theorem instrument_marks_page : ∃ report t', (page (some 7)).instrument {} = .ok (.ok report, t') ∧
    ∃ id tag, some 7 = some id ∧ (page (some 7)).child? ⟨3⟩ 0 = some tag ∧
      t'.HasGated tag (.print (markerName {}) true) .none
        (.print (marker id ⟨"Page", some 7, none, none⟩) true) := by
  have hwf : (page (some 7)).WellFormed := by
    decide
  have hvisit : ⟨3⟩ ∈ (page (some 7)).visits := by
    decide
  have hblock : (page (some 7)).kind ⟨3⟩ = .ok (.logBlock ⟨"Page", some 7, none, none⟩) := rfl
  obtain ⟨report, t', hrun⟩ := instrument_page
  exact ⟨report, t', hrun, instrument_marks hwf hrun hvisit hblock⟩

/-- A block that a logging function configures. -/
def trackedBlock : LogBlock :=
  ⟨"Page", some 7, some (.call (.logging ⟨"track", "none"⟩) []), none⟩

/-- A page with such a block around a link. -/
def trackedPage : Tree :=
  ofNodes [
    .numbered 0 none [1] .fileSet,
    .numbered 1 (some 0) [2] (.file "page.soy" .source),
    .numbered 2 (some 1) [3] (.template "page" .html),
    .numbered 3 (some 2) [4, 5] (.logBlock trackedBlock),
    .numbered 4 (some 3) [] (.openTag "a" false),
    .numbered 5 (some 3) [] (.closeTag "a")]

def isMarkerPrint : NodeKind → Bool
  | .print (.call (.builtin .makeLoggingMarker) _) _ => true
  | _ => false

/-- The marker of the block is lost: there is none in the whole tree. -/
theorem trackedPage_unmarked : trackedPage.WellFormed ∧ ⟨3⟩ ∈ trackedPage.visits ∧
    trackedPage.kind ⟨3⟩ = .ok (.logBlock trackedBlock) ∧ trackedPage.child? ⟨3⟩ 0 = some ⟨4⟩ ∧
      ∃ report t', trackedPage.instrument {} = .ok (.ok report, t') ∧
        ¬ t'.HasGated ⟨4⟩ (.print (markerName {}) true) .none
          (.print (marker 7 trackedBlock) true) := by
  have hwf : trackedPage.WellFormed := by
    decide
  obtain ⟨report, t', hrun⟩ := instrument_ok_of_le (o := {}) hwf rfl (by decide)
  have hnone : (match trackedPage.instrument {} with
      | .ok (.ok _, t') => t'.nodes.entries.any (isMarkerPrint ·.2.kind)
      | _ => true) = false := by
    decide +kernel
  refine ⟨hwf, by decide, rfl, rfl, report, t', hrun, ?_⟩
  rintro ⟨_, _, _, _, _, _, part, -, -, -, -, -, -, -, -, hpart⟩
  rw [hrun] at hnone
  obtain ⟨n, hget, hn⟩ := exists_get?_of_kind hpart
  refine List.any_eq_false.mp hnone (part, n) (Table.mem_entries_iff.mpr hget) ?_
  rw [hn]
  rfl

end Tree

end TemplateLogging
