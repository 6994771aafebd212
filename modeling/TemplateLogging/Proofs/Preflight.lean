import TemplateLogging.Proofs.Contracts

namespace TemplateLogging

open Rose

namespace Context

mutual

theorem exists_plug : ∀ {b : Branch} (ctx : Context) {x : NodeId}, x ∈ b.ids →
    ∃ (inner : Context) (c : Branch), ctx.plug [b] = inner.plug [c] ∧ c.id = x
  | .node a cs, ctx, x, h => by
      rw [ids_node] at h
      rcases List.mem_cons.mp h with rfl | h
      · exact ⟨ctx, .node a cs, rfl, rfl⟩
      · exact exists_plug_within ctx a [] h

theorem exists_plug_within : ∀ {bs : List Branch} (ctx : Context) (a : Item) (before : List Branch)
    {x : NodeId}, x ∈ idsAll bs → ∃ (inner : Context) (c : Branch),
      ctx.plug [.node a (before ++ bs)] = inner.plug [c] ∧ c.id = x
  | [], _, _, _, _, h => by
      cases h
  | b :: bs, ctx, a, before, x, h => by
      rw [idsAll_cons] at h
      rcases List.mem_append.mp h with h | h
      · obtain ⟨inner, c, hplug, hid⟩ := exists_plug (within ctx a before bs) h
        refine ⟨inner, c, ?_, hid⟩
        rw [← hplug, plug, List.append_assoc, List.singleton_append]
      · obtain ⟨inner, c, hplug, hid⟩ := exists_plug_within ctx a (before ++ [b]) h
        refine ⟨inner, c, ?_, hid⟩
        rw [← hplug, List.append_assoc, List.singleton_append]

end

theorem covered_eq_isSome (ctx : Context) :
    ctx.covered = (ctx.items.find? fun a => a.kind.isOpenTag || a.kind.isTemplate).isSome := by
  rw [Bool.eq_iff_iff, covered, List.any_eq_true, List.find?_isSome]

end Context

namespace Tree

/-- The fault is that of the first of the nodes that breaks a contract. -/
def Reports (t : Tree) (ids : List NodeId) (fault : CompilerFault) : Prop :=
  ∃ before id after contract message, ids = before ++ id :: after ∧ (∀ x ∈ before, t.Keeps x) ∧
    t.Breaks id contract message ∧ CompilerFault.atNode contract.code message t id = .ok fault

/-- What a check of nodes answers. -/
inductive Answers (t : Tree) (ids : List NodeId) : Except Fault (Option CompilerFault) → Prop where
  | none (h : ∀ id ∈ ids, t.Keeps id) : Answers t ids (.ok .none)
  | some {fault : CompilerFault} (h : t.Reports ids fault) : Answers t ids (.ok (.some fault))

variable {t : Tree} {root : NodeId} {next : Nat} {others : Multiset Node} {ctx : Context}
  {b : Branch} {a : Item} {cs : List Branch} {parent : Option NodeId} {ids ids' : List NodeId}

theorem Answers.append {r r' : Except Fault (Option CompilerFault)} (h : t.Answers ids r)
    (h' : t.Answers ids' r') : t.Answers (ids ++ ids') (r >>= fun
      | .some fault => .ok (.some fault)
      | .none => r') := by
  cases h with
  | none hkeeps =>
      cases h' with
      | none hkeeps' =>
          refine .none ?_
          intro id hid
          exact (List.mem_append.mp hid).elim (hkeeps id) (hkeeps' id)
      | some hreports =>
          obtain ⟨before, id, after, contract, message, rfl, hbefore, hbreaks, hfault⟩ := hreports
          refine .some ⟨ids ++ before, id, after, contract, message, ?_, ?_, hbreaks, hfault⟩
          · rw [List.append_assoc]
          · intro x hx
            exact (List.mem_append.mp hx).elim (hkeeps x) (hbefore x)
  | some hreports =>
      obtain ⟨before, id, after, contract, message, rfl, hbefore, hbreaks, hfault⟩ := hreports
      refine .some ⟨before, id, after ++ ids', contract, message, ?_, hbefore, hbreaks, hfault⟩
      rw [List.append_assoc, List.cons_append]

theorem Reports.not_keeps {fault : CompilerFault} (h : t.Reports ids fault) :
    ∃ id ∈ ids, ∃ contract message, t.Breaks id contract message := by
  obtain ⟨before, id, after, contract, message, rfl, -, hbreaks, -⟩ := h
  exact ⟨id, List.mem_append_right _ List.mem_cons_self, contract, message, hbreaks⟩

theorem Reports.code_ne {fault : CompilerFault} (h : t.Reports ids fault) :
    fault.code ≠ Contract.attributeNamed.code := by
  obtain ⟨before, id, after, contract, message, -, -, hbreaks, hfault⟩ := h
  have hcode : fault.code = contract.code := by
    rw [CompilerFault.atNode] at hfault
    cases hlocation : t.location id with
    | error e =>
        rw [hlocation] at hfault
        cases hfault
    | ok location =>
        rw [hlocation] at hfault
        cases hfault
        rfl
  rw [hcode]
  cases hbreaks with
  | idAssigned _ _ | openTagFirst _ _ _ | oneLoggingCall _ _ | insideTarget _ _ _ => decide

theorem Answers.eq_none {r : Except Fault (Option CompilerFault)} (h : t.Answers ids r)
    (hkeeps : ∀ id ∈ ids, t.Keeps id) : r = .ok .none := by
  cases h with
  | none _ => rfl
  | some hreports =>
      obtain ⟨id, hid, contract, message, hbreaks⟩ := hreports.not_keeps
      exact absurd hbreaks (hkeeps id hid contract message)

theorem Answers.of_breaks {id : NodeId} {contract : Contract} {message : String}
    {location : Location} (hlocation : t.location id = .ok location)
    (hbreaks : t.Breaks id contract message) :
    t.Answers [id] (CompilerFault.atNode contract.code message t id >>= fun fault =>
      .ok (.some fault)) := by
  have hfault : ∃ fault, CompilerFault.atNode contract.code message t id = .ok fault := by
    rw [CompilerFault.atNode, hlocation]
    exact ⟨_, rfl⟩
  obtain ⟨fault, hfault⟩ := hfault
  rw [hfault]
  exact .some ⟨[], id, [], contract, message, rfl, by simp, hbreaks, hfault⟩

theorem Answers.of_keeps {id : NodeId} (h : t.Keeps id) : t.Answers [id] (.ok .none) := by
  refine .none ?_
  intro x hx
  rwa [List.mem_singleton.mp hx]

theorem Holds.answers_logBlockFault? {block : LogBlock}
    (h : t.Holds root next (nodesAll none (ctx.plug [.node a cs]) + others))
    (hkind : a.kind = .logBlock block) : t.Answers [a.id] (t.logBlockFault? a.id block) := by
  have hshows := h.shows_plug
  have hk := hshows.kind_eq
  have hlocation := hshows.location_eq
  have hfirst := hshows.first_isOpenTag_iff
  have hchild := hshows.child?_eq 0
  rw [kind_node, hkind] at hk
  rw [id_node] at hk hlocation hfirst hchild
  rw [logBlockFault?]
  cases hid : block.loggingId with
  | none => exact .of_breaks hlocation (.idAssigned hk hid)
  | some loggingId =>
      have hsome : block.loggingId ≠ none := by
        rw [hid]
        exact Option.some_ne_none _
      cases cs with
      | nil =>
          rw [hchild]
          refine .of_breaks hlocation (.openTagFirst hk hsome ?_)
          rw [hfirst]
          simp
      | cons c rest =>
          have hcs := hshows.children
          rw [children_node, showsAll_cons_iff] at hcs
          have hc : t.child? a.id 0 = some c.id := hchild
          have hkindOf : (·.isOpenTag) <$> t.kind c.id = Except.ok c.kind.isOpenTag := by
            rw [hcs.1.kind_eq]
            rfl
          simp only [hc, hkindOf]
          cases hopen : c.kind.isOpenTag with
          | true =>
              refine .of_keeps ((keeps_logBlock_iff hk).mpr ⟨hsome, hfirst.mpr ?_⟩)
              exact ⟨c, rest, rfl, hopen⟩
          | false =>
              refine .of_breaks hlocation (.openTagFirst hk hsome ?_)
              rw [hfirst]
              rintro ⟨tag, rest', heq, htag⟩
              cases heq
              rw [hopen] at htag
              cases htag

theorem Holds.answers_attributeFault?
    (h : t.Holds root next (nodesAll none (ctx.plug [.node a cs]) + others))
    (hkind : a.kind = .htmlAttribute) : t.Answers [a.id] (t.attributeFault? a.id) := by
  have hshows := h.shows_plug
  have hk := hshows.kind_eq
  have hlocation := hshows.location_eq
  have hcalls := hshows.callsInValue_eq h.height_le_size_of_plug
  have hinValue := hshows.loggingCallsInValue_eq h.height_le_size_of_plug
  have habove := h.exists_above_iff
  have hname := hshows.child?_eq 0
  have hsearch := h.nearestAncestor?_eq fun k => k.isOpenTag || k.isTemplate
  rw [kind_node, hkind] at hk
  rw [id_node] at hk hlocation hcalls hinValue habove hname hsearch
  rw [← hcalls] at hinValue
  rw [attributeFault?, hinValue]
  cases hlist : t.callsInValue a.id with
  | nil => exact .of_keeps ((keeps_htmlAttribute_iff hk).mpr (Or.inl hlist))
  | cons call calls =>
      cases calls with
      | cons call' calls =>
          have hmany : 2 ≤ (t.callsInValue a.id).length := by
            rw [hlist]
            simp
          have hbreaks := Breaks.oneLoggingCall hk hmany
          rw [hlist] at hbreaks
          exact .of_breaks hlocation hbreaks
      | nil =>
          have hone : (t.callsInValue a.id).length = 1 := by
            rw [hlist]
            rfl
          cases cs with
          | nil =>
              rw [hcalls] at hlist
              cases hlist
          | cons name rest =>
              have hnamed : t.child? a.id 0 = some name.id := hname
              cases hfind : ctx.items.find? fun a => a.kind.isOpenTag || a.kind.isTemplate with
              | some target =>
                  have hcov : ctx.covered = true := by
                    rw [ctx.covered_eq_isSome, hfind]
                    rfl
                  rw [hfind] at hsearch
                  simp only [hnamed, hsearch]
                  refine .of_keeps ((keeps_htmlAttribute_iff hk).mpr (Or.inr ⟨hone, ?_⟩))
                  exact habove.mpr hcov
              | none =>
                  have hcov : ¬ ctx.covered = true := by
                    rw [ctx.covered_eq_isSome, hfind]
                    exact Bool.false_ne_true
                  rw [hfind] at hsearch
                  simp only [hnamed, hsearch]
                  exact .of_breaks hlocation (.insideTarget hk hone (habove.not.mpr hcov))

theorem Holds.answers_nodeFault? (h : t.Holds root next (nodesAll none (ctx.plug [b]) + others)) :
    t.Answers [b.id] (t.nodeFault? b.id) := by
  have hkind := h.shows_plug.kind_eq
  obtain ⟨a, cs⟩ := b
  rw [kind_node, id_node] at hkind
  rw [id_node, nodeFault?, hkind]
  cases hk : a.kind with
  | logBlock block => exact h.answers_logBlockFault? hk
  | htmlAttribute => exact h.answers_attributeFault? hk
  | _ =>
      rw [hk] at hkind
      exact .of_keeps (keeps_of_kind hkind (by simp) (by simp))

theorem answers_firstFault? (h : ∀ id ∈ ids, t.Answers [id] (t.nodeFault? id)) :
    t.Answers ids (t.firstFault? ids) := by
  induction ids with
  | nil => exact .none (by simp)
  | cons id ids ih =>
      rw [List.forall_mem_cons] at h
      exact h.1.append (ih h.2)

theorem Holds.answers_descendants (h : t.Holds root next (nodesAll none (ctx.plug [b]) + others)) :
    t.Answers b.ids (t.firstFault? (t.descendants b.id)) := by
  rw [h.shows_plug.descendants_eq h.height_le_size_of_plug]
  apply answers_firstFault?
  intro id hid
  obtain ⟨inner, c, hplug, rfl⟩ := ctx.exists_plug hid
  rw [hplug] at h
  exact h.answers_nodeFault?

/-- The nodes in files that are not dependencies, in document order. -/
def sourceNodes (t : Tree) : List NodeId :=
  ((t.children t.root).filter fun file => !(t.get? file).any (·.kind.isDependencyFile)).flatMap
    (t.preorder t.size)

theorem Holds.answers_firstFileFault? {outer : Context} {before files : List Branch}
    (h : t.Holds root next
      (nodesAll none ((Context.within outer a before []).plug files) + others)) :
    t.Answers
      (((files.map Rose.id).filter fun file => !(t.get? file).any (·.kind.isDependencyFile)).flatMap
        (t.preorder t.size)) (t.firstFileFault? (files.map Rose.id)) := by
  induction files generalizing before with
  | nil => exact .none (by simp)
  | cons b files ih =>
      have hb : t.Holds root next
          (nodesAll none ((Context.within outer a before files).plug [b]) + others) := by
        rwa [Context.plug_singleton]
      have hfiles : t.Holds root next
          (nodesAll none ((Context.within outer a (before ++ [b]) []).plug files) + others) := by
        rwa [Context.plug_snoc]
      have hget := hb.shows_plug.get?
      have hkind := hb.shows_plug.kind_eq
      have hdep : (t.get? b.id).any (·.kind.isDependencyFile) = b.kind.isDependencyFile := by
        rw [hget]
        rfl
      rw [List.map_cons, firstFileFault?, hkind, List.filter_cons, hdep]
      show t.Answers _ (if b.kind.isDependencyFile = true then _ else _)
      cases b.kind.isDependencyFile with
      | true => exact ih hfiles
      | false =>
          have hanswers := hb.answers_descendants.append (ih hfiles)
          rw [← preorder_eq_ids hb.shows_plug hb.height_le_size_of_plug] at hanswers
          exact hanswers

/-- The check finds the first node that breaks a contract. -/
theorem Holds.answers_preflight? (h : t.Holds root next ((Rose.node a cs).nodes none + others))
    (hroot : a.id = root) : t.Answers t.sourceNodes t.preflight? := by
  rw [sourceNodes, preflight?, h.children_root hroot]
  exact h.within_top.answers_firstFileFault?

theorem Holds.mem_sourceNodes_iff (h : t.Holds root next ((Rose.node a cs).nodes none + others))
    (hroot : a.id = root) (id : NodeId) :
    id ∈ t.sourceNodes ↔ ∃ b ∈ cs, b.kind.isDependencyFile = false ∧ id ∈ b.ids := by
  have hcs := h.shows.children
  have hsize := h.height_le_size
  rw [height] at hsize
  have hfile : ∀ b ∈ cs, (t.get? b.id).any (·.kind.isDependencyFile) = b.kind.isDependencyFile ∧
      t.preorder t.size b.id = b.ids := by
    intro b hb
    have hshows := hcs.of_mem hb
    have hheight := height_le_heightAll hb
    refine ⟨?_, preorder_eq_ids hshows (by omega)⟩
    rw [hshows.get?]
    rfl
  rw [sourceNodes, h.children_root hroot, List.mem_flatMap]
  constructor
  · rintro ⟨file, hmem, hid⟩
    obtain ⟨hmem, hkind⟩ := List.mem_filter.mp hmem
    obtain ⟨b, hb, rfl⟩ := List.mem_map.mp hmem
    rw [(hfile b hb).1, Bool.not_eq_true'] at hkind
    rw [(hfile b hb).2] at hid
    exact ⟨b, hb, hkind, hid⟩
  · rintro ⟨b, hb, hkind, hid⟩
    refine ⟨b.id, List.mem_filter.mpr ⟨List.mem_map_of_mem hb, ?_⟩, ?_⟩
    · rw [(hfile b hb).1, hkind]
      rfl
    · rwa [(hfile b hb).2]

/-- The node is a child of the root that is no dependency, or below one. -/
def InSource (t : Tree) (id : NodeId) : Prop :=
  ∃ file ∈ t.children t.root, (∀ path, t.kind file ≠ .ok (.file path .dependency)) ∧
    t.Below file id

theorem Holds.inSource_iff (h : t.Holds root next ((Rose.node a cs).nodes none + others))
    (hroot : a.id = root) (id : NodeId) :
    t.InSource id ↔ ∃ b ∈ cs, b.kind.isDependencyFile = false ∧ id ∈ b.ids := by
  have hcs := h.shows.children
  rw [InSource, h.children_root hroot]
  constructor
  · rintro ⟨file, hmem, hfile, hbelow⟩
    obtain ⟨b, hb, rfl⟩ := List.mem_map.mp hmem
    refine ⟨b, hb, ?_, ((hcs.of_mem hb).below_iff id).mp hbelow⟩
    rw [(hcs.of_mem hb).kind_eq] at hfile
    rw [Bool.eq_false_iff]
    intro hdep
    obtain ⟨path, hkind⟩ := exists_path_of_isDependencyFile hdep
    exact hfile path (congrArg _ hkind)
  · rintro ⟨b, hb, hfile, hid⟩
    refine ⟨b.id, List.mem_map_of_mem hb, ?_, ((hcs.of_mem hb).below_iff id).mpr hid⟩
    intro path hkind
    rw [(hcs.of_mem hb).kind_eq, Except.ok.injEq] at hkind
    rw [hkind] at hfile
    cases hfile

theorem WellFormed.mem_sourceNodes_iff (hwf : t.WellFormed) (id : NodeId) :
    id ∈ t.sourceNodes ↔ ∃ file ∈ t.children t.root,
      (∀ path, t.kind file ≠ .ok (.file path .dependency)) ∧ t.Below file id := by
  obtain ⟨a, cs, others, hroot, -, h, -⟩ := hwf.exists_holds
  exact (h.mem_sourceNodes_iff hroot id).trans (h.inSource_iff hroot id).symm

theorem Holds.files_ready_iff (h : t.Holds root next ((Rose.node a cs).nodes none + others))
    (hroot : a.id = root) (hkind : a.kind = .fileSet) :
    (∀ id ∈ t.sourceNodes, t.Keeps id) ↔ ∀ b ∈ cs, b.FileReady := by
  have hready : ∀ b ∈ cs, (b.Ready false ↔ ∀ id ∈ b.ids, t.Keeps id) := by
    intro b hb
    obtain ⟨before, after, rfl⟩ := List.append_of_mem hb
    have hplug : t.Holds root next
        (nodesAll none ((Context.within .top a before after).plug [b]) + others) := by
      refine h.congr ?_
      rw [Context.plug, Context.plug, nodesAll_singleton, List.append_assoc, List.singleton_append]
    rw [← hplug.ready_iff, Context.covered_within, hkind]
    rfl
  constructor
  · intro hkeeps b hb
    cases hfile : b.kind.isDependencyFile with
    | true => exact Or.inl hfile
    | false =>
        refine Or.inr ((hready b hb).mpr ?_)
        intro id hid
        exact hkeeps id ((h.mem_sourceNodes_iff hroot id).mpr ⟨b, hb, hfile, hid⟩)
  · intro hfiles id hid
    obtain ⟨b, hb, hfile, hid⟩ := (h.mem_sourceNodes_iff hroot id).mp hid
    rcases hfiles b hb with hdep | hb'
    · rw [hfile] at hdep
      cases hdep
    · exact (hready b hb).mp hb' id hid

end Tree

end TemplateLogging
