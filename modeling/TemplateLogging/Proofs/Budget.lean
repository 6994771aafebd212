import TemplateLogging.Proofs.Repetition
import TemplateLogging.Proofs.Visits

namespace TemplateLogging

open Instrument Rose

@[ext]
structure Workload where
  blocks : Nat
  attributes : Nat
  bindings : Nat
deriving DecidableEq

namespace Workload

instance : Zero Workload where
  zero := ⟨0, 0, 0⟩

instance : Add Workload where
  add v w := ⟨v.blocks + w.blocks, v.attributes + w.attributes, v.bindings + w.bindings⟩

variable (v w : Workload)

@[simp] theorem blocks_zero : (0 : Workload).blocks = 0 :=
  rfl

@[simp] theorem attributes_zero : (0 : Workload).attributes = 0 :=
  rfl

@[simp] theorem bindings_zero : (0 : Workload).bindings = 0 :=
  rfl

@[simp] theorem blocks_add : (v + w).blocks = v.blocks + w.blocks :=
  rfl

@[simp] theorem attributes_add : (v + w).attributes = v.attributes + w.attributes :=
  rfl

@[simp] theorem bindings_add : (v + w).bindings = v.bindings + w.bindings :=
  rfl

instance : AddCommMonoid Workload where
  add_assoc u v w := by ext <;> simp [Nat.add_assoc]
  zero_add w := by ext <;> simp
  add_zero w := by ext <;> simp
  add_comm v w := by ext <;> simp [Nat.add_comm]
  nsmul := nsmulRec

def ids (w : Workload) : Nat :=
  6 * w.blocks + 8 * w.attributes + 2 * w.bindings

theorem ids_add : (v + w).ids = v.ids + w.ids := by
  simp only [ids, blocks_add, attributes_add, bindings_add]
  omega

/-- There is nothing to change. -/
def Idle (w : Workload) : Prop :=
  w.blocks = 0 ∧ w.attributes = 0

theorem idle_add : (v + w).Idle ↔ v.Idle ∧ w.Idle := by
  simp only [Idle, blocks_add, attributes_add]
  omega

end Workload

namespace Rose

/-- A walk takes the marker of a block for an attribute with a computed name. -/
def marking (block : LogBlock) : Workload :=
  if ((NodeKind.logBlock block).exprs.flatMap Expr.loggingCalls).isEmpty then 0 else ⟨0, 1, 1⟩

/-- What a walk does at a branch itself. -/
def work : Branch → Workload
  | node a cs =>
      match a.kind with
      | .logBlock block => ⟨1, 0, 0⟩ + marking block
      | .htmlAttribute =>
          if (valueCalls cs).isEmpty then 0
          else ⟨0, 1, if cs.head?.any isLiteral then 0 else 1⟩
      | _ => 0

def workload (bs : List Branch) : Workload :=
  (bs.map work).sum

theorem workload_cons (b : Branch) (bs : List Branch) :
    workload (b :: bs) = b.work + workload bs := by
  rw [workload, List.map_cons, List.sum_cons, workload]

theorem workload_append (bs cs : List Branch) :
    workload (bs ++ cs) = workload bs + workload cs := by
  rw [workload, List.map_append, List.sum_append, workload, workload]

variable {a : Item} {cs : List Branch}

theorem work_idle (hblock : ∀ block, a.kind ≠ .logBlock block) (hattr : a.kind ≠ .htmlAttribute) :
    (node a cs).work = 0 := by
  rw [work]
  cases hkind : a.kind with
  | logBlock block => exact absurd hkind (hblock block)
  | htmlAttribute => exact absurd hkind hattr
  | _ => rfl

theorem work_unmoved (h : a.kind = .htmlAttribute) (hcalls : valueCalls cs = []) :
    (node a cs).work = 0 := by
  rw [work, h]
  simp only [hcalls]
  rfl

theorem work_moved {name value : Branch} {rest : List Branch} {call : LoggingCall}
    {calls : List LoggingCall} (h : a.kind = .htmlAttribute)
    (hcalls : value.loggingCalls = call :: calls) :
    (node a (name :: value :: rest)).work = ⟨0, 1, if name.isLiteral then 0 else 1⟩ := by
  rw [work, h]
  simp only [valueCalls, hcalls]
  rfl

theorem work_block {block : LogBlock} (h : a.kind = .logBlock block) :
    (node a cs).work = ⟨1, 0, 0⟩ + marking block := by
  rw [work, h]

end Rose

/-- The work takes ids and counts as the workload says. -/
def Spends (w : Workload) (f : Work Item Tally) : Prop :=
  ∀ s, (f s).2.next = s.next + w.ids ∧
    (f s).2.report.logBlocks = s.report.logBlocks + w.blocks ∧
      (f s).2.report.functionAttributes = s.report.functionAttributes + w.attributes ∧
        (f s).2.report.letBindings = s.report.letBindings + w.bindings

namespace Spends

variable {v w : Workload} {f g : Work Item Tally}

theorem still (bs : List Branch) : Spends 0 (.still bs) := by
  intro s
  exact ⟨rfl, rfl, rfl, rfl⟩

theorem andThen (h : Spends v f) (h' : Spends w g) : Spends (v + w) (f.andThen g) := by
  intro s
  obtain ⟨hnext, hblocks, hattributes, hbindings⟩ := h s
  obtain ⟨hnext', hblocks', hattributes', hbindings'⟩ := h' (f s).2
  rw [hnext] at hnext'
  rw [hblocks] at hblocks'
  rw [hattributes] at hattributes'
  rw [hbindings] at hbindings'
  rw [Workload.ids_add, ← Nat.add_assoc]
  refine ⟨hnext', ?_, ?_, ?_⟩
  · rw [Workload.blocks_add, ← Nat.add_assoc]
    exact hblocks'
  · rw [Workload.attributes_add, ← Nat.add_assoc]
    exact hattributes'
  · rw [Workload.bindings_add, ← Nat.add_assoc]
    exact hbindings'

theorem under (h : Spends w f) (inTag : Bool) (a : Item) : Spends w (f.under inTag a) :=
  h

theorem after {next : Tally → Tally} (hnext : Spends v fun s => (.none, next s))
    (h : Spends w f) : Spends (v + w) fun s => f (next s) :=
  hnext.andThen h

theorem enter {next : Tally → Tally} (hnext : Spends 0 fun s => (.none, next s))
    (h : Spends w f) : Spends w fun s => f (next s) := by
  have hall := hnext.after h
  rwa [zero_add] at hall

theorem enterFile : Spends 0 fun s => (.none, s.enterFile) := by
  intro s
  exact ⟨rfl, rfl, rfl, rfl⟩

theorem enterTemplate : Spends 0 fun s => (.none, s.enterTemplate) := by
  intro s
  exact ⟨rfl, rfl, rfl, rfl⟩

theorem markBlock : Spends ⟨1, 0, 0⟩ fun s => (.none, s.markBlock) := by
  intro s
  exact ⟨rfl, rfl, rfl, rfl⟩

theorem moveCall (hoisted : Bool) :
    Spends ⟨0, 1, if hoisted then 1 else 0⟩ fun s => (.none, s.moveCall hoisted) := by
  intro s
  cases hoisted with
  | true => exact ⟨rfl, rfl, rfl, rfl⟩
  | false => exact ⟨rfl, rfl, rfl, rfl⟩

end Spends

variable {o : InstrumentOptions} {inTag : Bool} {a : Item} {cs : List Branch}

theorem spends_rewriteMark (block : LogBlock) (tag : Branch) (next : Nat) :
    Spends (marking block) (rewriteMark o (some (block.mark tag next))) := by
  rw [marking, ← loggingCalls_marker (block.loggingId.getD 0) block]
  split
  · rename_i hcalls
    rw [rewriteMark_still (List.isEmpty_iff.mp hcalls)]
    exact .still _
  · rename_i hcalls
    intro s
    rw [rewriteMark]
    split
    · rename_i hvalue
      exact absurd (List.isEmpty_iff.mpr hvalue) hcalls
    · exact Spends.moveCall true s

theorem workload_through (hwalked : (node a cs).walked = node a cs :: walkedAll cs)
    (hblock : ∀ block, a.kind ≠ .logBlock block) (hattr : a.kind ≠ .htmlAttribute) :
    workload (node a cs).walked = workload (walkedAll cs) := by
  rw [hwalked, workload_cons, work_idle hblock hattr, zero_add]

theorem workload_source {path : String} (h : a.kind = .file path .source) :
    workload (node a cs).walked = workload (walkedAll cs) :=
  workload_through (walked_source h) (by simp [h]) (by simp [h])

theorem workload_template {name : String} {contentKind : ContentKind}
    (h : a.kind = .template name contentKind) :
    workload (node a cs).walked = workload (walkedAll cs) :=
  workload_through (walked_template h) (by simp [h]) (by simp [h])

theorem workload_openTag (h : a.kind.isOpenTag = true) :
    workload (node a cs).walked = workload (walkedAll cs) := by
  refine workload_through (walked_openTag h) (NodeKind.ne_logBlock_of_isOpenTag h) ?_
  intro hattr
  rw [NodeKind.isOpenTag_of_attribute hattr] at h
  cases h

theorem workload_plain (h : a.kind.isPlain = true) :
    workload (node a cs).walked = workload (walkedAll cs) := by
  refine workload_through (walked_plain h) (NodeKind.ne_logBlock_of_isPlain h) ?_
  intro hattr
  rw [hattr] at h
  cases h

theorem workload_block {block : LogBlock} {tag : Item} {attrs rest : List Branch}
    (h : a.kind = .logBlock block) :
    workload (node a (node tag attrs :: rest)).walked = ⟨1, 0, 0⟩ +
      (workload (node tag attrs).walked + marking block + workload (walkedAll rest)) := by
  rw [walked_block h, workload_cons, work_block h, walkedAll, workload_append]
  abel

theorem spends_tag {w : Workload} {mark : Option Mark} (htag : a.kind.isOpenTag = true)
    (hcs : Spends (workload (walkedAll cs)) (rewriteAll o true cs))
    (hmark : Spends w (rewriteMark o mark)) :
    Spends (workload (node a cs).walked + w) (rewrite o inTag mark (.node a cs)) := by
  rw [workload_openTag htag, rewrite_openTag htag]
  exact (hcs.andThen hmark).under inTag a

theorem hereditary_spends (o : InstrumentOptions) : Hereditary
    (fun inTag _ b => Spends (workload b.walked) (rewrite o inTag none b))
    (fun inTag _ bs => Spends (workload (walkedAll bs)) (rewriteAll o inTag bs)) where
  nil {_ _} := by
    rw [rewriteAll_nil]
    exact .still []
  cons hb hbs := by
    rw [rewriteAll_cons, walkedAll, workload_append]
    exact hb.andThen hbs
  dependency {_ _ a cs _} hkind := by
    rw [rewrite_dependency hkind, walked_dependency hkind, workload_cons, work_idle]
    · exact .still [.node a cs]
    · simp [hkind]
    · simp [hkind]
  source hkind hcs := by
    rw [rewrite_source hkind, workload_source hkind]
    exact Spends.enterFile.enter (hcs.under _ _)
  template hkind hcs := by
    rw [rewrite_template hkind, workload_template hkind]
    exact Spends.enterTemplate.enter (hcs.under _ _)
  openTag htag hcs := by
    rw [← add_zero (workload _)]
    exact spends_tag htag hcs (.still [])
  block {inTag _ a block tag attrs rest} hkind _ htag hattrs hrest := by
    intro s
    have hmarked : Spends _ (rewrite o inTag _ (.node tag attrs)) :=
      spends_tag htag hattrs (spends_rewriteMark block (.node tag attrs) s.next)
    have hall := Spends.markBlock.andThen (hmarked.andThen hrest) s
    rw [rewrite_logBlock hkind, workload_block hkind]
    exact hall
  unmoved hkind hcalls hcs := by
    rw [rewrite_attribute hkind hcalls, walked_attribute hkind hcalls, workload_cons,
      work_unmoved hkind hcalls, zero_add]
    exact hcs.under _ _
  moved {inTag a name value rest call} hkind hcalls hname hrest := by
    rw [rewrite_move hkind hcalls, walked_move hkind hcalls, workload_cons, work_moved hkind hcalls,
      workload_append]
    have hkept : ∀ stays, Spends (workload (if name.isLiteral then name.walked else []))
        (if name.isLiteral then rewrite o inTag none name else .still [stays]) := by
      intro stays
      split
      · exact hname
      · exact .still [stays]
    intro s
    have hbody := ((hkept (moveOut o a name call s).name).andThen
      (.still [(moveOut o a name call s).value])).andThen hrest
    have hall := (Spends.moveCall (!name.isLiteral)).andThen hbody s
    rw [add_zero] at hall
    simp only [tally_moveOut]
    generalize name.isLiteral = literal at hall ⊢
    cases literal with
    | true => exact hall
    | false => exact hall
  plain hplain hcs := by
    rw [rewrite_plain hplain, workload_plain hplain]
    exact hcs.under _ _

theorem hereditary_idle : Hereditary
    (fun _ covered b => b.Ready covered → (workload b.walked).Idle → b.Settled covered)
    (fun _ covered bs => ReadyAll covered bs → (workload (walkedAll bs)).Idle →
      SettledAll covered bs) where
  nil _ _ := trivial
  cons hb hbs hready hidle := by
    rw [walkedAll, workload_append, Workload.idle_add] at hidle
    exact ⟨hb hready.1 hidle.1, hbs hready.2 hidle.2⟩
  dependency hkind hready _ := by
    obtain ⟨-, hready⟩ := hready
    rw [hkind] at hready
    exact (settled_dependency hkind).mpr hready
  source hkind hcs hready hidle := by
    obtain ⟨-, hready⟩ := hready
    rw [hkind] at hready
    rw [workload_source hkind] at hidle
    exact (settled_source hkind).mpr (hcs hready hidle)
  template hkind hcs hready hidle := by
    obtain ⟨-, hready⟩ := hready
    rw [hkind] at hready
    rw [workload_template hkind] at hidle
    exact (settled_template hkind).mpr (hcs hready hidle)
  openTag htag hcs hready hidle := by
    obtain ⟨-, hready⟩ := hready
    rw [htag] at hready
    rw [workload_openTag htag] at hidle
    exact (settled_openTag htag).mpr (hcs hready hidle)
  block {_ _ a block tag attrs rest} hkind _ _ _ _ _ hidle := by
    rw [workload_block hkind, Workload.idle_add] at hidle
    cases hidle.1.1
  unmoved hkind hcalls hcs hready hidle := by
    obtain ⟨-, hready⟩ := hready
    rw [hkind] at hready
    rw [walked_attribute hkind hcalls, workload_cons, Workload.idle_add] at hidle
    exact (settled_attribute hkind).mpr ⟨hcalls, hcs hready hidle.2⟩
  moved hkind hcalls _ _ _ hidle := by
    rw [walked_move hkind hcalls, workload_cons, work_moved hkind hcalls,
      Workload.idle_add] at hidle
    cases hidle.1.2
  plain hplain hcs hready hidle := by
    obtain ⟨-, hready⟩ := hready
    rw [NodeKind.isOpenTag_of_isPlain hplain, NodeKind.isTemplate_of_isPlain hplain] at hready
    rw [workload_plain hplain] at hidle
    exact (settled_plain hplain).mpr (hcs hready hidle)

theorem fileSettled_of_idle {bs : List Branch} (hready : ∀ b ∈ bs, b.FileReady)
    (hidle : (workload (walkedAll bs)).Idle) : ∀ b ∈ bs, b.FileSettled := by
  induction bs with
  | nil => simp
  | cons b bs ih =>
      rw [walkedAll, workload_append, Workload.idle_add] at hidle
      have hbs := ih (fun c hc => hready c (List.mem_cons_of_mem _ hc)) hidle.2
      refine List.forall_mem_cons.mpr ⟨?_, hbs⟩
      exact (hready b List.mem_cons_self).imp_right fun hb =>
        @Hereditary.of_ready _ _ hereditary_idle b false false hb hb hidle.1

namespace Tree

/-- What an instrumentation of the tree has to do. -/
def workload (t : Tree) : Workload :=
  Rose.workload (walkedAll (t.read t.size t.root))

variable {t : Tree} {root : NodeId} {next : Nat} {others : Multiset Node}

theorem Holds.workload_eq (h : t.Holds root next ((Rose.node a cs).nodes none + others))
    (hroot : a.id = root) (hkind : a.kind = .fileSet) :
    t.workload = Rose.workload (walkedAll cs) := by
  rw [workload, h.read_eq hroot, walkedAll, walkedAll, List.append_nil,
    workload_plain (NodeKind.isPlain_of_fileSet hkind)]

theorem Holds.unchanged_iff {t' : Tree}
    (h : t.Holds root next ((Rose.node a cs).nodes none + others)) (hroot : a.id = root)
    (hkind : a.kind = .fileSet) (hready : ∀ b ∈ cs, b.FileReady)
    (h' : t'.Holds root (rewriteAll o false cs (.start next)).2.next
      ((Rose.node a (rewriteAll o false cs (.start next)).1.forest).nodes none + others)) :
    t' = t ↔ t.workload.Idle := by
  constructor
  · rintro rfl
    have hspends : Spends (Rose.workload (walkedAll cs)) (rewriteAll o false cs) :=
      (hereditary_spends o).of_files hready
    have hids : _ = next + _ := (hspends (.start next)).1
    rw [← h'.next_eq, h.next_eq, ← h.workload_eq hroot hkind, Workload.ids] at hids
    rw [Workload.Idle]
    omega
  · intro hidle
    rw [h.workload_eq hroot hkind] at hidle
    obtain ⟨hgrowth, hnext, -⟩ :=
      rests_files (o := o) (fileSettled_of_idle hready hidle) (.start next)
    rw [hgrowth, hnext] at h'
    exact h'.unique h

/-- A tree that passes the check can only run out of ids, and does so when there are not enough for
its workload. Otherwise the report is the workload, and where that is idle nothing changes. -/
theorem instrument_workload (hwf : t.WellFormed) (hpreflight : t.preflight? = .ok none)
    (hword : t.ids.next ≤ maxWord) (o : InstrumentOptions) :
    ((∃ fault, t.instrument o = .error fault) ↔ maxWord < t.ids.next + t.workload.ids) ∧
    (∀ fault, t.instrument o = .error fault → fault = .idsExhausted) ∧
    (t.ids.next + t.workload.ids ≤ maxWord → ∃ report t', t.instrument o = .ok (.ok report, t') ∧
      report.logBlocks = t.workload.blocks ∧ report.functionAttributes = t.workload.attributes ∧
        report.letBindings = t.workload.bindings ∧
          t'.ids.next = t.ids.next + t.workload.ids ∧ (report.isNoop = true ↔ t' = t)) := by
  obtain ⟨a, cs, others, hroot, hkind, h, -⟩ := hwf.exists_holds
  have hready := h.fileReady_of_preflight hroot hkind hpreflight
  have hspends : Spends (Rose.workload (walkedAll cs)) (rewriteAll o false cs) :=
    (hereditary_spends o).of_files hready
  rw [← h.workload_eq hroot hkind] at hspends
  obtain ⟨hids, hblocks, hattributes, hbindings⟩ := hspends (.start t.ids.next)
  have htakes := h.takes_instrument (o := o) hroot hkind hready
  by_cases henough : t.ids.next + t.workload.ids ≤ maxWord
  · obtain ⟨⟨result, t'⟩, hrun, rfl, h'⟩ := htakes.ok (Or.inr (hids ▸ henough))
    have hnever : ∀ fault, t.instrument o ≠ .error fault := by
      rw [hrun]
      nofun
    refine ⟨⟨?_, ?_⟩, fun fault hfault => absurd hfault (hnever fault), fun _ => ?_⟩
    · rintro ⟨fault, hfault⟩
      exact absurd hfault (hnever fault)
    · intro hlt
      exact absurd henough (Nat.not_le.mpr hlt)
    · have hblocks : _ = 0 + _ := hblocks
      have hattributes : _ = 0 + _ := hattributes
      have hbindings : _ = 0 + _ := hbindings
      rw [Nat.zero_add] at hblocks hattributes hbindings
      refine ⟨_, t', hrun, hblocks, hattributes, hbindings, h'.next_eq.trans hids, ?_⟩
      rw [h.unchanged_iff hroot hkind hready h', InstrumentReport.isNoop, hblocks, hattributes,
        Bool.and_eq_true, beq_iff_eq, beq_iff_eq, Workload.Idle]
  · have hlt : maxWord < (rewriteAll o false cs (.start t.ids.next)).2.next := by
      rw [hids]
      exact Nat.not_le.mp henough
    have hrun : t.instrument o = .error .idsExhausted :=
      htakes.error (Nat.lt_of_le_of_lt hword hlt) hlt
    refine ⟨⟨fun _ => Nat.not_le.mp henough, fun _ => ⟨_, hrun⟩⟩, ?_, ?_⟩
    · intro fault hfault
      rw [hrun] at hfault
      exact (Except.error.inj hfault).symm
    · intro hle
      exact absurd hle henough

theorem instrument_workload_page : (page (some 7)).workload = ⟨1, 1, 0⟩ ∧
    ∃ report t', (page (some 7)).instrument {} = .ok (.ok report, t') ∧ t'.ids.next = 24 := by
  have hwf : (page (some 7)).WellFormed := by
    decide
  have hwork : (page (some 7)).workload = ⟨1, 1, 0⟩ := by
    decide
  obtain ⟨-, -, hok⟩ := instrument_workload hwf rfl (by decide) {}
  rw [hwork] at hok
  obtain ⟨report, t', hrun, -, -, -, hnext, -⟩ := hok (by decide)
  exact ⟨hwork, report, t', hrun, hnext⟩

end Tree

end TemplateLogging
