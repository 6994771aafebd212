import TemplateLogging.Instrument.Preflight
import TemplateLogging.Proofs.Reading
import TemplateLogging.Proofs.Simulation

namespace TemplateLogging

open Rose

namespace Tree

/-- The first node is somewhere above the second one. -/
def Above (t : Tree) (above id : NodeId) : Prop :=
  Relation.TransGen (fun x y => t.parent? x = some y) id above

/-- The logging calls in the value of an attribute and below it. -/
def callsInValue (t : Tree) (id : NodeId) : List LoggingCall :=
  ((t.child? id 1).toList.flatMap (t.preorder t.size)).flatMap t.nodeLoggingCalls

/-- A node breaks a contract, which is reported with the message. -/
inductive Breaks (t : Tree) (id : NodeId) : Contract → String → Prop where
  | idAssigned {block : LogBlock} (hkind : t.kind id = .ok (.logBlock block))
      (hid : block.loggingId = none) :
      Breaks t id .idAssigned ("\x7bvelog " ++ block.name ++ "\x7d has no logging id.")
  | openTagFirst {block : LogBlock} (hkind : t.kind id = .ok (.logBlock block))
      (hid : block.loggingId ≠ none)
      (hfirst : ¬ ∃ tag kind, t.child? id 0 = some tag ∧ t.kind tag = .ok kind ∧
        kind.isOpenTag = true) :
      Breaks t id .openTagFirst
        ("The first child of \x7bvelog " ++ block.name ++ "\x7d is not an HTML open tag.")
  | oneLoggingCall (hkind : t.kind id = .ok .htmlAttribute)
      (hcalls : 2 ≤ (t.callsInValue id).length) :
      Breaks t id .oneLoggingCall
        ("Attribute value calls " ++ toString (t.callsInValue id).length ++
          " logging functions: " ++
            ", ".intercalate ((t.callsInValue id).map (·.function.name)) ++ ".")
  | insideTarget (hkind : t.kind id = .ok .htmlAttribute) (hcalls : (t.callsInValue id).length = 1)
      (habove : ¬ ∃ above kind, t.Above above id ∧ t.kind above = .ok kind ∧
        (kind.isOpenTag || kind.isTemplate) = true) :
      Breaks t id .insideTarget "Logging function attribute is outside any open tag or template."

/-- A node keeps all contracts. -/
def Keeps (t : Tree) (id : NodeId) : Prop :=
  ∀ contract message, ¬ t.Breaks id contract message

variable {t : Tree} {root : NodeId} {next : Nat} {others : Multiset Node} {ctx : Context}
  {b : Branch} {a : Item} {cs : List Branch} {parent : Option NodeId}

theorem Holds.above_iff (h : t.Holds root next (nodesAll none (ctx.plug [b]) + others))
    (above : NodeId) : t.Above above b.id ↔ ∃ a ∈ ctx.items, a.id = above := by
  induction ctx generalizing b with
  | top =>
      rw [Above, Relation.TransGen.head'_iff, h.shows_plug.parent?_eq]
      simp [Context.parent?, Context.items]
  | within outer c before after ih =>
      have houter := ih h
      rw [id_node, Above] at houter
      rw [Above, Relation.TransGen.head'_iff, h.shows_plug.parent?_eq, Context.items]
      simp only [Context.parent?, Option.some.injEq, exists_eq_left',
        Relation.reflTransGen_iff_eq_or_transGen, houter, List.mem_cons, exists_eq_or_imp]
      rw [eq_comm]

theorem Holds.kind_of_mem_items (h : t.Holds root next (nodesAll none (ctx.plug [b]) + others)) :
    ∀ a ∈ ctx.items, t.kind a.id = .ok a.kind := by
  induction ctx generalizing b with
  | top =>
      intro a ha
      cases ha
  | within outer c before after ih =>
      intro a ha
      rcases List.mem_cons.mp ha with rfl | ha
      · exact h.shows_within.kind_eq
      · exact ih h a ha

theorem Holds.exists_above_iff (h : t.Holds root next (nodesAll none (ctx.plug [b]) + others)) :
    (∃ above kind, t.Above above b.id ∧ t.kind above = .ok kind ∧
      (kind.isOpenTag || kind.isTemplate) = true) ↔ ctx.covered = true := by
  rw [Context.covered, List.any_eq_true]
  constructor
  · rintro ⟨above, kind, habove, hkind, htarget⟩
    obtain ⟨a, ha, rfl⟩ := (h.above_iff above).mp habove
    rw [h.kind_of_mem_items a ha, Except.ok.injEq] at hkind
    subst hkind
    exact ⟨a, ha, htarget⟩
  · rintro ⟨a, ha, htarget⟩
    exact ⟨a.id, a.kind, (h.above_iff a.id).mpr ⟨a, ha, rfl⟩, h.kind_of_mem_items a ha, htarget⟩

theorem Shows.callsInValue_eq (h : t.Shows parent b) (hsize : b.height ≤ t.size) :
    t.callsInValue b.id = valueCalls b.children := by
  rw [callsInValue, h.child?_eq 1]
  obtain ⟨a, cs⟩ := b
  match cs, hsize, h.children with
  | [], _, _ => rfl
  | [_], _, _ => rfl
  | name :: value :: rest, hsize, hcs =>
      obtain ⟨-, hcs⟩ := showsAll_cons_iff.mp hcs
      obtain ⟨hvalue, -⟩ := showsAll_cons_iff.mp hcs
      rw [height, heightAll, heightAll] at hsize
      show ([value.id].flatMap (t.preorder t.size)).flatMap t.nodeLoggingCalls = value.loggingCalls
      rw [List.flatMap_cons, List.flatMap_nil, List.append_nil,
        preorder_eq_ids hvalue (by omega), flatMap_nodeLoggingCalls hvalue]

theorem Shows.first_isOpenTag_iff (h : t.Shows parent b) :
    (∃ tag kind, t.child? b.id 0 = some tag ∧ t.kind tag = .ok kind ∧ kind.isOpenTag = true) ↔
      ∃ tag rest, b.children = tag :: rest ∧ tag.kind.isOpenTag = true := by
  have hchildren := h.children
  rw [h.child?_eq 0]
  cases hcs : b.children with
  | nil => simp
  | cons c rest =>
      rw [hcs, showsAll_cons_iff] at hchildren
      simp [hchildren.1.kind_eq]

variable {id : NodeId}

theorem keeps_logBlock_iff {block : LogBlock} (hkind : t.kind id = .ok (.logBlock block)) :
    t.Keeps id ↔ block.loggingId ≠ none ∧ ∃ tag kind, t.child? id 0 = some tag ∧
      t.kind tag = .ok kind ∧ kind.isOpenTag = true := by
  constructor
  · intro hkeeps
    have hid : block.loggingId ≠ none := fun hid => hkeeps _ _ (.idAssigned hkind hid)
    refine ⟨hid, ?_⟩
    by_contra hfirst
    exact hkeeps _ _ (.openTagFirst hkind hid hfirst)
  · rintro ⟨hid, hfirst⟩ contract message hbreaks
    cases hbreaks with
    | idAssigned hkind' hid' =>
        rw [hkind, Except.ok.injEq, NodeKind.logBlock.injEq] at hkind'
        subst hkind'
        exact hid hid'
    | openTagFirst _ _ hfirst' => exact hfirst' hfirst
    | oneLoggingCall hkind' _ | insideTarget hkind' _ _ =>
        rw [hkind, Except.ok.injEq] at hkind'
        cases hkind'

theorem keeps_htmlAttribute_iff (hkind : t.kind id = .ok .htmlAttribute) :
    t.Keeps id ↔ t.callsInValue id = [] ∨ (t.callsInValue id).length = 1 ∧
      ∃ above kind, t.Above above id ∧ t.kind above = .ok kind ∧
        (kind.isOpenTag || kind.isTemplate) = true := by
  rw [← List.length_eq_zero_iff]
  constructor
  · intro hkeeps
    have hone : (t.callsInValue id).length < 2 := by
      by_contra hcalls
      exact hkeeps _ _ (.oneLoggingCall hkind (Nat.le_of_not_lt hcalls))
    by_cases hcalls : (t.callsInValue id).length = 1
    · refine Or.inr ⟨hcalls, ?_⟩
      by_contra habove
      exact hkeeps _ _ (.insideTarget hkind hcalls habove)
    · omega
  · rintro hcalls contract message hbreaks
    cases hbreaks with
    | idAssigned hkind' _ | openTagFirst hkind' _ _ =>
        rw [hkind, Except.ok.injEq] at hkind'
        cases hkind'
    | oneLoggingCall _ hmany => omega
    | insideTarget _ hone hnone =>
        rcases hcalls with hzero | ⟨-, habove⟩
        · omega
        · exact hnone habove

theorem keeps_of_kind {k : NodeKind} (hkind : t.kind id = .ok k)
    (hblock : ∀ block, k ≠ .logBlock block) (hattr : k ≠ .htmlAttribute) : t.Keeps id := by
  intro contract message hbreaks
  cases hbreaks with
  | idAssigned hkind' _ | openTagFirst hkind' _ _ =>
      rw [hkind, Except.ok.injEq] at hkind'
      exact hblock _ hkind'
  | oneLoggingCall hkind' _ | insideTarget hkind' _ _ =>
      rw [hkind, Except.ok.injEq] at hkind'
      exact hattr hkind'

theorem Holds.keeps_iff (h : t.Holds root next (nodesAll none (ctx.plug [.node a cs]) + others)) :
    t.Keeps a.id ↔ Sound ctx.covered a cs := by
  have hshows := h.shows_plug
  have hkind := hshows.kind_eq
  have hfirst := hshows.first_isOpenTag_iff
  have hcalls := hshows.callsInValue_eq h.height_le_size_of_plug
  have habove := h.exists_above_iff
  rw [id_node] at hkind hfirst hcalls habove
  rw [kind_node] at hkind
  rw [Sound]
  cases hk : a.kind with
  | logBlock block =>
      rw [hk] at hkind
      rw [keeps_logBlock_iff hkind, hfirst, ← Option.isSome_iff_ne_none]
      rfl
  | htmlAttribute =>
      rw [hk] at hkind
      rw [keeps_htmlAttribute_iff hkind, habove, hcalls, children_node]
      constructor
      · rintro (hnone | ⟨hone, hcov⟩) hsome
        · exact absurd hnone hsome
        · exact ⟨Nat.le_of_eq hone, hcov⟩
      · intro hsound
        by_cases hnone : valueCalls cs = []
        · exact Or.inl hnone
        · obtain ⟨hone, hcov⟩ := hsound hnone
          have hpos := List.length_pos_iff.mpr hnone
          exact Or.inr ⟨by omega, hcov⟩
  | _ =>
      rw [hk] at hkind
      simp only [iff_true]
      exact keeps_of_kind hkind (by simp) (by simp)

mutual

theorem Holds.ready_iff : ∀ {ctx : Context} {b : Branch},
    t.Holds root next (nodesAll none (ctx.plug [b]) + others) →
      (b.Ready ctx.covered ↔ ∀ id ∈ b.ids, t.Keeps id)
  | ctx, .node a cs, h => by
      have hcs : t.Holds root next
          (nodesAll none ((Context.within ctx a [] []).plug cs) + others) := by
        refine h.congr ?_
        rw [Context.plug, List.nil_append, List.append_nil]
      rw [Ready, ids_node, List.forall_mem_cons, ← h.keeps_iff,
        ← Context.covered_within ctx a [] [], Holds.readyAll_iff hcs]

theorem Holds.readyAll_iff : ∀ {outer : Context} {a : Item} {before bs : List Branch},
    t.Holds root next (nodesAll none ((Context.within outer a before []).plug bs) + others) →
      (ReadyAll (Context.within outer a before []).covered bs ↔ ∀ id ∈ idsAll bs, t.Keeps id)
  | outer, a, before, [], _ => by
      simp [ReadyAll]
  | outer, a, before, b :: bs, h => by
      have hb : t.Holds root next
          (nodesAll none ((Context.within outer a before bs).plug [b]) + others) := by
        rwa [Context.plug_singleton]
      have hbs : t.Holds root next
          (nodesAll none ((Context.within outer a (before ++ [b]) []).plug bs) + others) := by
        rwa [Context.plug_snoc]
      have hready := Holds.ready_iff hb
      have hreadyAll := Holds.readyAll_iff hbs
      rw [Context.covered_within] at hready hreadyAll ⊢
      rw [ReadyAll, idsAll_cons]
      simp only [List.mem_append, or_imp, forall_and]
      exact and_congr hready hreadyAll

end

end Tree

end TemplateLogging
