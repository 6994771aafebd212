import TemplateLogging.Proofs.Erasure

namespace TemplateLogging

open Rose

namespace Tree

/-- The tree below the root, without ids. -/
def outline (t : Tree) : List Outline :=
  mapAll Item.entry (t.read t.size t.root)

/-- A name of an attribute is text or a print, and has no children. -/
def Named (t : Tree) (id : NodeId) : Prop :=
  ∀ name, t.child? id 0 = some name → t.children name = [] ∧
    ((∃ text, t.kind name = .ok (.rawText text)) ∨
      ∃ e isImplicit, t.kind name = .ok (.print e isImplicit))

/-- What the parser gives: attributes have proper names, and the expressions of a logging block call
no logging function. -/
structure Regular (t : Tree) : Prop where
  named : ∀ id, t.Reaches id → t.kind id = .ok .htmlAttribute → t.Named id
  silent : ∀ id block, t.Reaches id → t.kind id = .ok (.logBlock block) →
    (NodeKind.logBlock block).exprs.flatMap Expr.loggingCalls = []

variable {t : Tree} {root : NodeId} {next : Nat} {others : Multiset Node} {a : Item}
  {cs : List Branch} {parent : Option NodeId}

/-- A check for regular trees that goes through the table. -/
def isRegularAt (t : Tree) (id : NodeId) : NodeKind → Bool
  | .htmlAttribute => (t.child? id 0).all fun name => (t.children name).isEmpty &&
      (t.get? name).any (·.kind matches .rawText _ | .print _ _)
  | .logBlock block => ((NodeKind.logBlock block).exprs.flatMap Expr.loggingCalls).isEmpty
  | _ => true

theorem regular_of_entries (h : ∀ e ∈ t.nodes.entries, t.isRegularAt e.1 e.2.kind = true) :
    t.Regular := by
  have hkind : ∀ id k, t.kind id = .ok k → t.isRegularAt id k = true := by
    intro id k hk
    rw [kind, node] at hk
    cases hget : t.get? id with
    | none =>
        rw [hget] at hk
        cases hk
    | some node =>
        rw [hget] at hk
        cases hk
        exact h (id, node) (Table.mem_entries_iff.mpr hget)
  constructor
  · intro id _ hattr name hname
    have hcheck := hkind id _ hattr
    rw [isRegularAt, hname, Option.all_some, Bool.and_eq_true, List.isEmpty_iff] at hcheck
    refine ⟨hcheck.1, ?_⟩
    obtain ⟨node, hget, hnode⟩ := (Option.any_eq_true _ _).mp hcheck.2
    rw [kind, Tree.node, hget]
    cases hk : node.kind with
    | rawText text => exact Or.inl ⟨text, congrArg Except.ok hk⟩
    | print e isImplicit => exact Or.inr ⟨e, isImplicit, congrArg Except.ok hk⟩
    | _ => simp [hk] at hnode
  · intro id block _ hblock
    exact List.isEmpty_iff.mp (hkind id _ hblock)

theorem regular_page : (page (some 7)).Regular :=
  regular_of_entries (by decide)

theorem Shows.plain (h : t.Shows parent (.node a cs))
    (hnamed : t.kind a.id = .ok .htmlAttribute → t.Named a.id)
    (hsilent : ∀ block, t.kind a.id = .ok (.logBlock block) →
      (NodeKind.logBlock block).exprs.flatMap Expr.loggingCalls = []) : Plain a cs := by
  have hkind := h.kind_eq
  rw [id_node, kind_node] at hkind
  rw [Plain]
  cases hk : a.kind with
  | htmlAttribute =>
      rw [hk] at hkind
      intro name hname
      have hshows : t.Shows (some a.id) name := h.children.of_mem (List.mem_of_mem_head? hname)
      have hfirst : t.child? a.id 0 = some name.id := by
        have hchild := h.child?_eq 0
        rw [id_node, children_node] at hchild
        rw [hchild, ← List.head?_eq_getElem?, hname]
        rfl
      obtain ⟨hchildren, hkinds⟩ := hnamed hkind name.id hfirst
      rw [hshows.children_eq, List.map_eq_nil_iff] at hchildren
      rw [hshows.kind_eq] at hkinds
      refine ⟨hchildren, hkinds.imp ?_ ?_⟩
      · rintro ⟨text, htext⟩
        exact ⟨text, Except.ok.inj htext⟩
      · rintro ⟨e, isImplicit, hprint⟩
        exact ⟨e, isImplicit, Except.ok.inj hprint⟩
  | logBlock block =>
      rw [hk] at hkind
      exact hsilent block hkind
  | _ => trivial

mutual

theorem Shows.allPlain : ∀ {parent : Option NodeId} {b : Branch}, t.Shows parent b →
    (∀ id ∈ b.ids, t.kind id = .ok .htmlAttribute → t.Named id) →
      (∀ id ∈ b.ids, ∀ block, t.kind id = .ok (.logBlock block) →
        (NodeKind.logBlock block).exprs.flatMap Expr.loggingCalls = []) → b.AllPlain
  | parent, .node a cs, h, hnamed, hsilent => by
      rw [ids_node, List.forall_mem_cons] at hnamed hsilent
      exact ⟨h.plain hnamed.1 hsilent.1, ShowsAll.allPlain h.children hnamed.2 hsilent.2⟩

theorem ShowsAll.allPlain : ∀ {parent : Option NodeId} {bs : List Branch}, t.ShowsAll parent bs →
    (∀ id ∈ idsAll bs, t.kind id = .ok .htmlAttribute → t.Named id) →
      (∀ id ∈ idsAll bs, ∀ block, t.kind id = .ok (.logBlock block) →
        (NodeKind.logBlock block).exprs.flatMap Expr.loggingCalls = []) → AllPlainIn bs
  | parent, [], _, _, _ => trivial
  | parent, b :: bs, h, hnamed, hsilent => by
      obtain ⟨hb, hbs⟩ := showsAll_cons_iff.mp h
      rw [idsAll_cons, List.forall_mem_append] at hnamed hsilent
      exact ⟨Shows.allPlain hb hnamed.1 hsilent.1, ShowsAll.allPlain hbs hnamed.2 hsilent.2⟩

end

theorem Regular.allPlainIn (hregular : t.Regular)
    (h : t.Holds root next ((Rose.node a cs).nodes none + others)) (hroot : a.id = root) :
    AllPlainIn cs := by
  have hplain : (Rose.node a cs).AllPlain := by
    refine h.shows.allPlain ?_ ?_
    · intro id hid
      exact hregular.named id ((h.reaches_iff hroot id).mpr hid)
    · intro id hid block
      exact hregular.silent id block ((h.reaches_iff hroot id).mpr hid)
  exact hplain.2

theorem Holds.outline_eq (h : t.Holds root next ((Rose.node a cs).nodes none + others))
    (hroot : a.id = root) : t.outline = [.node a.entry (mapAll Item.entry cs)] := by
  rw [outline, h.read_eq hroot]
  rfl

theorem instrumented_fileSet {o : InstrumentOptions} {e : Entry} {bs : List Outline}
    (h : e.kind = .fileSet) : Outline.instrumented o [.node e bs] =
      [.node e (Outline.rewriteAll o false bs 0).1.forest] := by
  rw [Outline.instrumented, Outline.rewriteAll_cons, Outline.rewriteAll_nil,
    Outline.rewrite_plain (NodeKind.isPlain_of_fileSet h)]
  rfl

/-- An instrumentation that passes the check and does not run out of ids does the same as the
instrumentation of outlines. -/
theorem instrument_outline (hwf : t.WellFormed) (hregular : t.Regular) (o : InstrumentOptions)
    (hpreflight : t.preflight? = .ok none) (hids : t.instrument o ≠ .error .idsExhausted) :
    ∃ report t', t.instrument o = .ok (.ok report, t') ∧
      t'.outline = Outline.instrumented o t.outline := by
  obtain ⟨a, cs, others, hroot, hkind, h, -⟩ := hwf.exists_holds
  have hready : ∀ b ∈ cs, b.FileReady := by
    rcases h.preflight?_cases hroot hkind with ⟨fault, hfault, -⟩ | ⟨-, hready⟩
    · rw [hpreflight] at hfault
      cases hfault
    · exact hready
  obtain ⟨t', hrun, h'⟩ :=
    (h.instrument_ok_or_exhausted (o := o) hroot hkind hready).resolve_right hids
  obtain ⟨herased, -⟩ := (hereditary_erases o).of_files hready (hregular.allPlainIn h hroot)
    (.start t.ids.next)
  refine ⟨_, t', hrun, ?_⟩
  rw [h.outline_eq hroot, h'.outline_eq hroot, instrumented_fileSet hkind]
  exact congrArg (fun g => [Rose.node a.entry g.forest]) herased

theorem instrument_outline_page : (page (some 7)).preflight? = .ok none ∧
    ∃ report t', (page (some 7)).instrument {} = .ok (.ok report, t') ∧
      t'.outline = Outline.instrumented {} (page (some 7)).outline := by
  have hwf : (page (some 7)).WellFormed := by
    decide
  have hpreflight : (page (some 7)).preflight? = .ok none := rfl
  have hids : (page (some 7)).instrument {} ≠ .error .idsExhausted := by
    obtain ⟨report, t', hrun⟩ := instrument_page
    rw [hrun]
    nofun
  exact ⟨hpreflight, instrument_outline hwf regular_page {} hpreflight hids⟩

end Tree

end TemplateLogging
