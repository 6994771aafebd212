import Mathlib.Data.Set.Card
import TemplateLogging.Proofs.Configured

namespace TemplateLogging

open Rose

namespace ValidLoggingConfig

variable {c : ValidLoggingConfig} {d e : LoggingElement} {name : String}

theorem eq_of_name_eq (hd : d ∈ c.elements) (he : e ∈ c.elements) (h : d.name = e.name) :
    d = e := by
  by_contra hne
  exact (apart hd he hne).1 h

theorem find?_eq_none_iff : c.find? name = none ↔ ∀ e ∈ c.elements, e.name ≠ name := by
  simp [find?]

theorem find?_eq_some_iff : c.find? name = some e ↔ e ∈ c.elements ∧ e.name = name := by
  refine ⟨mem_of_find?, ?_⟩
  rintro ⟨he, hname⟩
  cases hfind : c.find? name with
  | none => exact absurd hname (find?_eq_none_iff.mp hfind e he)
  | some d =>
      obtain ⟨hd, hname'⟩ := mem_of_find? hfind
      rw [eq_of_name_eq hd he (hname'.trans hname.symm)]

/-- The block is the element's, and it has no other id. -/
structure Resolves (c : ValidLoggingConfig) (block : LogBlock) (e : LoggingElement) : Prop where
  mem : e ∈ c.elements
  name_eq : e.name = block.name
  id_free : block.loggingId = none ∨ block.loggingId = some e.id

/-- Why a block at a location is not given an id. -/
inductive Refuses (c : ValidLoggingConfig) (location : Location) (block : LogBlock) :
    LoggingError → Prop where
  | unknownElement (hname : ∀ e ∈ c.elements, e.name ≠ block.name) :
      Refuses c location block (.unknownElement block.name location.file location.start.line)
  | idAlreadyAssigned {e : LoggingElement} {existing : Int64} (he : e ∈ c.elements)
      (hname : e.name = block.name) (hid : block.loggingId = some existing)
      (hne : existing ≠ e.id) :
      Refuses c location block (.idAlreadyAssigned block.name existing e.id)

theorem resolves_or_refuses (c : ValidLoggingConfig) (location : Location) (block : LogBlock) :
    (∃ e, c.Resolves block e) ∨ ∃ error, c.Refuses location block error := by
  by_cases hnone : ∀ e ∈ c.elements, e.name ≠ block.name
  · exact Or.inr ⟨_, .unknownElement hnone⟩
  · obtain ⟨e, he, hname⟩ : ∃ e ∈ c.elements, e.name = block.name := by simpa using hnone
    cases hid : block.loggingId with
    | none => exact Or.inl ⟨e, he, hname, Or.inl hid⟩
    | some existing =>
        by_cases heq : existing = e.id
        · exact Or.inl ⟨e, he, hname, Or.inr (heq ▸ hid)⟩
        · exact Or.inr ⟨_, .idAlreadyAssigned he hname hid heq⟩

end ValidLoggingConfig

namespace Tree

variable {t t' s : Tree} {c : ValidLoggingConfig} {location : Location} {block : LogBlock}
  {e : LoggingElement} {error : LoggingError} {n count : Nat} {ids : List NodeId}
  {assignments : List (NodeId × Int64)} {v : NodeId}

theorem configuredId_of_resolves (h : c.Resolves block e) :
    configuredId c location block = .ok e.id := by
  rw [configuredId, ValidLoggingConfig.find?_eq_some_iff.mpr ⟨h.mem, h.name_eq⟩]
  rcases h.id_free with hid | hid
  · simp [hid]
  · simp [hid]

theorem configuredId_of_refuses (h : c.Refuses location block error) :
    configuredId c location block = .error error := by
  rw [configuredId]
  cases h with
  | unknownElement hname => rw [ValidLoggingConfig.find?_eq_none_iff.mpr hname]
  | idAlreadyAssigned he hname hid hne =>
      rw [ValidLoggingConfig.find?_eq_some_iff.mpr ⟨he, hname⟩]
      simp [hid, hne]

theorem configuredId_eq_ok_iff {id : Int64} :
    configuredId c location block = .ok id ↔ ∃ e, c.Resolves block e ∧ e.id = id := by
  constructor
  · intro h
    rcases c.resolves_or_refuses location block with ⟨e, hresolves⟩ | ⟨error, hrefuses⟩
    · rw [configuredId_of_resolves hresolves] at h
      exact ⟨e, hresolves, Except.ok.inj h⟩
    · rw [configuredId_of_refuses hrefuses] at h
      cases h
  · rintro ⟨e, hresolves, rfl⟩
    exact configuredId_of_resolves hresolves

theorem configuredId_eq_error_iff :
    configuredId c location block = .error error ↔ c.Refuses location block error := by
  refine ⟨?_, configuredId_of_refuses⟩
  intro h
  rcases c.resolves_or_refuses location block with ⟨e, hresolves⟩ | ⟨error, hrefuses⟩
  · rw [configuredId_of_resolves hresolves] at h
    cases h
  · rw [configuredId_of_refuses hrefuses] at h
    exact Except.error.inj h ▸ hrefuses

/-- The node is a block that is not given an id. -/
def Offends (t : Tree) (c : ValidLoggingConfig) (v : NodeId) (error : LoggingError) : Prop :=
  ∃ node block, t.get? v = some node ∧ node.kind = .logBlock block ∧
    c.Refuses node.location block error

/-- The error is that of the first of the nodes that offends. -/
def OffendsFirst (t : Tree) (c : ValidLoggingConfig) (ids : List NodeId) (error : LoggingError) :
    Prop :=
  ∃ before v after, ids = before ++ v :: after ∧ (∀ u ∈ before, ∀ e, ¬t.Offends c u e) ∧
    t.Offends c v error

theorem OffendsFirst.cons {id : NodeId} (h : t.OffendsFirst c ids error)
    (hid : ∀ e, ¬t.Offends c id e) : t.OffendsFirst c (id :: ids) error := by
  obtain ⟨before, v, after, rfl, hbefore, hv⟩ := h
  exact ⟨id :: before, v, after, rfl, List.forall_mem_cons.mpr ⟨hid, hbefore⟩, hv⟩

theorem offendsFirst_of_nodeAssignments (h : t.nodeAssignments c ids = .error error) :
    t.OffendsFirst c ids error := by
  induction ids with
  | nil => cases h
  | cons id ids ih =>
      rw [nodeAssignments] at h
      split at h
      · rename_i _ location _ _ block hget
        cases hid : configuredId c location block with
        | error e =>
            rw [hid] at h
            cases h
            exact ⟨[], id, ids, rfl, by simp, _, block, hget, rfl,
              configuredId_eq_error_iff.mp hid⟩
        | ok n =>
            have hrest : t.nodeAssignments c ids = .error error := by
              rw [hid] at h
              cases hrest : t.nodeAssignments c ids with
              | error e =>
                  rw [hrest] at h
                  cases h
                  rfl
              | ok rest =>
                  rw [hrest] at h
                  cases h
            refine (ih hrest).cons ?_
            rintro e ⟨node, block', hget', hkind, hrefuses⟩
            rw [hget, Option.some.injEq] at hget'
            subst hget'
            obtain rfl := NodeKind.logBlock.inj hkind
            rw [configuredId_of_refuses hrefuses] at hid
            cases hid
      · rename_i hnone
        refine (ih h).cons ?_
        rintro e ⟨⟨_, _, _, _, kind⟩, block, hget, hkind, -⟩
        simp only at hkind
        subst hkind
        exact hnone _ _ _ _ _ hget

theorem resolves_of_nodeAssignments (h : t.nodeAssignments c ids = .ok assignments) (hv : v ∈ ids)
    (hkind : t.kind v = .ok (.logBlock block)) :
    ∃ e, c.Resolves block e ∧ (v, e.id) ∈ assignments := by
  obtain ⟨id, hid⟩ := exists_mem_of_nodeAssignments h hv hkind
  obtain ⟨-, node, block', hget, hnode, hconfigured⟩ := (mem_nodeAssignments_iff h _).mp hid
  obtain ⟨node', hget', hnode'⟩ := exists_get?_of_kind hkind
  rw [hget, Option.some.injEq] at hget'
  subst hget'
  obtain rfl := NodeKind.logBlock.inj (hnode.symm.trans hnode')
  obtain ⟨e, hresolves, rfl⟩ := configuredId_eq_ok_iff.mp hconfigured
  exact ⟨e, hresolves, hid⟩

theorem map_fst_nodeAssignments (h : t.nodeAssignments c ids = .ok assignments) :
    assignments.map Prod.fst = ids.filter fun v => (t.get? v).any (·.kind.isLogBlock) := by
  induction ids generalizing assignments with
  | nil =>
      cases h
      rfl
  | cons id ids ih =>
      rw [nodeAssignments] at h
      split at h
      · rename_i hget
        obtain ⟨n, -, h⟩ := Except.exists_of_bind_eq_ok h
        obtain ⟨rest, hrest, h⟩ := Except.exists_of_bind_eq_ok h
        cases h
        rw [List.map_cons, ih hrest, List.filter_cons, hget]
        rfl
      · rename_i hnone
        have hid : (t.get? id).any (·.kind.isLogBlock) = false := by
          rw [Option.any_eq_false]
          rintro ⟨_, _, _, _, kind⟩ hget
          cases kind with
          | logBlock block => exact absurd hget (hnone _ _ _ _ _)
          | _ => rfl
        rw [ih h, List.filter_cons, hid, if_neg Bool.false_ne_true]

theorem WellFormed.nodup_sourceNodes (hwf : t.WellFormed) : t.sourceNodes.Nodup := by
  obtain ⟨a, cs, others, hroot, -, h, -⟩ := hwf.exists_holds
  have hids : (idsAll cs).Nodup := by
    have hnodup := h.nodup_ids
    rw [ids_node, List.nodup_cons] at hnodup
    exact hnodup.2
  have hcs : t.ShowsAll (some a.id) cs := h.shows.children
  have hflat : (cs.map Rose.id).flatMap (t.preorder t.size) = idsAll cs :=
    preorder_eq_idsAll hcs (Nat.le_of_lt h.heightAll_lt_size)
  rw [sourceNodes, h.children_root hroot]
  rw [← hflat] at hids
  exact hids.sublist (List.filter_sublist.flatMap _)

/-- The blocks in the sources. -/
def sourceBlocks (t : Tree) : Set NodeId :=
  {v | t.InSource v ∧ ∃ block, t.kind v = .ok (.logBlock block)}

/-- What it is for all blocks in the sources to have been given the ids that are configured for
their names, and for all else to be as it was. -/
structure Assigned (t : Tree) (c : ValidLoggingConfig) (count : Nat) (t' : Tree) : Prop where
  count_eq : count = t.sourceBlocks.ncard
  root_eq : t'.root = t.root
  ids_eq : t'.ids = t.ids
  get?_block : ∀ v node block, t.InSource v → t.get? v = some node →
    node.kind = .logBlock block → ∃ e ∈ c.elements, e.name = block.name ∧
      t'.get? v = some { node with kind := .logBlock { block with loggingId := some e.id } }
  get?_other : ∀ v, v ∉ t.sourceBlocks → t'.get? v = t.get? v

theorem links_foldl_setLoggingId (t : Tree) (assignments : List (NodeId × Int64)) :
    (assignments.foldl (fun t p => t.setLoggingId p.1 p.2) t).root = t.root ∧
      (assignments.foldl (fun t p => t.setLoggingId p.1 p.2) t).ids = t.ids := by
  induction assignments generalizing t with
  | nil => exact ⟨rfl, rfl⟩
  | cons p assignments ih => exact ih (t.setLoggingId p.1 p.2)

theorem isLogBlock_iff : (t.get? v).any (·.kind.isLogBlock) = true ↔
    ∃ block, t.kind v = .ok (.logBlock block) := by
  rw [Option.any_eq_true]
  constructor
  · rintro ⟨node, hget, hblock⟩
    rw [kind_of_get? hget]
    cases hkind : node.kind with
    | logBlock block => exact ⟨block, rfl⟩
    | _ =>
        rw [hkind] at hblock
        cases hblock
  · rintro ⟨block, hkind⟩
    obtain ⟨node, hget, hnode⟩ := exists_get?_of_kind hkind
    exact ⟨node, hget, by rw [hnode]; rfl⟩

theorem WellFormed.nodup_assigned (hwf : t.WellFormed)
    (h : t.nodeAssignments c t.sourceNodes = .ok assignments) :
    (assignments.map Prod.fst).Nodup := by
  rw [map_fst_nodeAssignments h]
  exact hwf.nodup_sourceNodes.filter _

theorem WellFormed.length_assignments (hwf : t.WellFormed)
    (h : t.nodeAssignments c t.sourceNodes = .ok assignments) :
    assignments.length = t.sourceBlocks.ncard := by
  have hset : t.sourceBlocks = (assignments.map Prod.fst).toFinset := by
    ext v
    rw [map_fst_nodeAssignments h, List.coe_toFinset, Set.mem_ofPred_eq, List.mem_filter,
      hwf.mem_sourceNodes_iff, isLogBlock_iff]
    rfl
  rw [hset, Set.ncard_coe_finset, List.toFinset_card_of_nodup (hwf.nodup_assigned h),
    List.length_map]

/-- The ids that were collected are what is asked for, and to write them changes nothing else. -/
theorem WellFormed.assigned (hwf : t.WellFormed)
    (h : t.nodeAssignments c t.sourceNodes = .ok assignments) :
    t.Assigned c assignments.length
      (assignments.foldl (fun t p => t.setLoggingId p.1 p.2) t) where
  count_eq := hwf.length_assignments h
  root_eq := (links_foldl_setLoggingId t assignments).1
  ids_eq := (links_foldl_setLoggingId t assignments).2
  get?_block := by
    intro v node block hv hget hnode
    have hkind : t.kind v = .ok (.logBlock block) := by
      rw [kind_of_get? hget, hnode]
    have hsource : v ∈ t.sourceNodes := (hwf.mem_sourceNodes_iff v).mpr hv
    obtain ⟨e, ⟨he, hname, -⟩, hmem⟩ := resolves_of_nodeAssignments h hsource hkind
    have hsame : ∀ n, (v, n) ∈ assignments → n = e.id := by
      intro n hn
      exact congrArg Prod.snd (List.inj_on_of_nodup_map (hwf.nodup_assigned h) hn hmem rfl)
    refine ⟨e, he, hname, ?_⟩
    rw [get?_foldl_setLoggingId_of_mem hmem hsame, hget, Option.map_some, Node.withLoggingId, hnode]
  get?_other := by
    intro v hv
    apply get?_foldl_setLoggingId
    rintro ⟨id, n⟩ hp rfl
    obtain ⟨hmem, node, block, hget, hnode, -⟩ := (mem_nodeAssignments_iff h _).mp hp
    refine hv ⟨(hwf.mem_sourceNodes_iff id).mp hmem, block, ?_⟩
    rw [kind_of_get? hget, hnode]

theorem mem_sourceBlocks {node : Node} (hv : t.InSource v) (hget : t.get? v = some node)
    (hnode : node.kind = .logBlock block) : v ∈ t.sourceBlocks :=
  ⟨hv, block, by rw [kind_of_get? hget, hnode]⟩

namespace Assigned

theorem exists_get? (h : t.Assigned c count t') (hv : v ∈ t.sourceBlocks) :
    ∃ (node : Node) (block : LogBlock), ∃ e ∈ c.elements, e.name = block.name ∧ t'.get? v =
      some { node with kind := .logBlock { block with loggingId := some e.id } } := by
  obtain ⟨hin, block, hkind⟩ := hv
  obtain ⟨node, hget, hnode⟩ := exists_get?_of_kind hkind
  exact ⟨node, block, h.get?_block v node block hin hget hnode⟩

theorem sourceBlocks_eq (h : t.Assigned c count t')
    (hsource : ∀ x, t'.InSource x ↔ t.InSource x) : t'.sourceBlocks = t.sourceBlocks := by
  ext v
  by_cases hv : v ∈ t.sourceBlocks
  · obtain ⟨node, block, e, -, -, hget⟩ := h.exists_get? hv
    exact iff_of_true (mem_sourceBlocks ((hsource v).mpr hv.1) hget rfl) hv
  · have hkind : t'.kind v = t.kind v := by
      rw [kind, Tree.node, h.get?_other v hv, kind, Tree.node]
    rw [sourceBlocks, Set.mem_ofPred_eq, hsource v, hkind]
    rfl

theorem exists_resolves (h : t.Assigned c count t') (hsource : ∀ x, t'.InSource x ↔ t.InSource x)
    (hv : t'.InSource v) (hkind : t'.kind v = .ok (.logBlock block)) :
    ∃ e, c.Resolves block e := by
  have hmem : v ∈ t'.sourceBlocks := ⟨hv, block, hkind⟩
  rw [h.sourceBlocks_eq hsource] at hmem
  obtain ⟨node, old, e, he, hname, hget⟩ := h.exists_get? hmem
  rw [kind_of_get? hget] at hkind
  cases hkind
  exact ⟨e, he, hname, Or.inr rfl⟩

theorem again (h : t.Assigned c count t') (hsource : ∀ x, t'.InSource x ↔ t.InSource x)
    (h' : t'.Assigned c n s) : n = count ∧ s = t' := by
  have hblocks := h.sourceBlocks_eq hsource
  refine ⟨by rw [h'.count_eq, hblocks, h.count_eq], Tree.ext h'.root_eq h'.ids_eq ?_⟩
  intro v
  by_cases hv : v ∈ t.sourceBlocks
  · obtain ⟨node, block, e, he, hname, hget⟩ := h.exists_get? hv
    obtain ⟨e', he', hname', hget'⟩ := h'.get?_block v _ _ ((hsource v).mpr hv.1) hget rfl
    have hsame : e' = e := ValidLoggingConfig.eq_of_name_eq he' he (hname'.trans hname.symm)
    rw [hget', hget, hsame]
  · rw [← hblocks] at hv
    exact h'.get?_other v hv

end Assigned

theorem not_offends (hblocks : ∀ block, t.kind v = .ok (.logBlock block) → ∃ e, c.Resolves block e)
    (error : LoggingError) : ¬t.Offends c v error := by
  rintro ⟨node, block, hget, hnode, hrefuses⟩
  obtain ⟨e, hresolves⟩ := hblocks block (by rw [kind_of_get? hget, hnode])
  have hok := (configuredId_of_resolves hresolves).symm.trans (configuredId_of_refuses hrefuses)
  cases hok

theorem WellFormed.exists_assigned_iff (hwf : t.WellFormed) :
    (∃ count t', t.assignLoggingIds c = .ok (.ok (count, t'))) ↔
      ∀ v block, t.InSource v → t.kind v = .ok (.logBlock block) → ∃ e, c.Resolves block e := by
  rw [hwf.assignLoggingIds_eq]
  cases h : t.nodeAssignments c t.sourceNodes with
  | ok assignments =>
      refine iff_of_true ⟨_, _, rfl⟩ ?_
      intro v block hv hkind
      obtain ⟨e, hresolves, -⟩ :=
        resolves_of_nodeAssignments h ((hwf.mem_sourceNodes_iff v).mpr hv) hkind
      exact ⟨e, hresolves⟩
  | error error =>
      refine iff_of_false ?_ ?_
      · rintro ⟨count, t', herror⟩
        cases herror
      · intro hblocks
        obtain ⟨before, v, after, hnodes, -, hv⟩ := offendsFirst_of_nodeAssignments h
        have hsource : v ∈ t.sourceNodes := by
          rw [hnodes]
          exact List.mem_append_right _ List.mem_cons_self
        have hin : t.InSource v := (hwf.mem_sourceNodes_iff v).mp hsource
        exact not_offends (fun block => hblocks v block hin) error hv

theorem WellFormed.assigned_of_eq_ok (hwf : t.WellFormed)
    (h : t.assignLoggingIds c = .ok (.ok (count, t'))) :
    t.Assigned c count t' ∧ t'.WellFormed ∧ ∀ x, t'.InSource x ↔ t.InSource x := by
  rw [hwf.assignLoggingIds_eq] at h
  cases hassignments : t.nodeAssignments c t.sourceNodes with
  | error error =>
      rw [hassignments] at h
      cases h
  | ok assignments =>
      rw [hassignments] at h
      cases h
      exact ⟨hwf.assigned hassignments, hwf.foldl_setLoggingId assignments⟩

theorem WellFormed.offendsFirst_of_eq_error (hwf : t.WellFormed)
    (h : t.assignLoggingIds c = .ok (.error error)) : t.OffendsFirst c t.sourceNodes error := by
  rw [hwf.assignLoggingIds_eq] at h
  cases hassignments : t.nodeAssignments c t.sourceNodes with
  | ok assignments =>
      rw [hassignments] at h
      cases h
  | error error =>
      rw [hassignments] at h
      cases h
      exact offendsFirst_of_nodeAssignments hassignments

/-- The ids are written one after the other. -/
def writeIds (assignments : List (NodeId × Int64)) : StateT Tree (Except Fault) Unit :=
  assignments.forM fun p => modifyThe Tree (·.setLoggingId p.1 p.2)

/-- The assignment as it is done to a tree in place. No id is written before all are collected. -/
def assignInPlace (c : ValidLoggingConfig) :
    StateT Tree (Except Fault) (Except LoggingError Nat) := do
  let t ← get
  match ← (t.fileAssignments c (t.children t.root)).run with
  | .error error => return .error error
  | .ok assignments =>
      writeIds assignments
      return .ok assignments.length

theorem run_writeIds (t : Tree) (assignments : List (NodeId × Int64)) :
    (writeIds assignments).run t =
      .ok ((), assignments.foldl (fun t p => t.setLoggingId p.1 p.2) t) := by
  induction assignments generalizing t with
  | nil => rfl
  | cons p assignments ih => exact ih (t.setLoggingId p.1 p.2)

/-- The tree in place is afterwards the one that the assignment answers, or what it was before. -/
theorem run_assignInPlace (t : Tree) (c : ValidLoggingConfig) :
    (assignInPlace c).run t = (t.assignLoggingIds c).map fun
      | .error error => (.error error, t)
      | .ok (count, t') => (.ok count, t') := by
  rw [assignLoggingIds, assignInPlace, StateT.run_bind, StateT.run_get, pure_bind, StateT.run_bind,
    StateT.run_monadLift]
  cases (t.fileAssignments c (t.children t.root)).run with
  | error fault => rfl
  | ok r =>
      cases r with
      | error error => rfl
      | ok assignments =>
          show ((writeIds assignments).run t >>= _) = _
          rw [run_writeIds]
          rfl

/-- On a sound tree and for any valid configuration the assignment of logging ids gives all blocks
in the sources their ids or leaves the tree as it is. It succeeds exactly when each of the blocks
has a name that is configured and no other id than the one configured. It then answers how many
there are, each of them has the id that is configured for its name, and all else is as it was; to
assign the ids again has the same answer and changes nothing. When it fails, the error is that of
the first block in document order that cannot be given its id. -/
theorem WellFormed.assignLoggingIds_all_or_none (hwf : t.WellFormed) (c : ValidLoggingConfig) :
    (∀ fault, t.assignLoggingIds c ≠ .error fault) ∧
    ((∃ count t', t.assignLoggingIds c = .ok (.ok (count, t'))) ↔
      ∀ v block, t.InSource v → t.kind v = .ok (.logBlock block) → ∃ e, c.Resolves block e) ∧
    (∀ count t', t.assignLoggingIds c = .ok (.ok (count, t')) →
      (assignInPlace c).run t = .ok (.ok count, t') ∧ t.Assigned c count t' ∧
        t'.assignLoggingIds c = .ok (.ok (count, t'))) ∧
    ∀ error, t.assignLoggingIds c = .ok (.error error) →
      (assignInPlace c).run t = .ok (.error error, t) ∧ t.OffendsFirst c t.sourceNodes error := by
  refine ⟨?_, hwf.exists_assigned_iff, ?_, ?_⟩
  · intro fault hfault
    rw [hwf.assignLoggingIds_eq] at hfault
    cases hfault
  · intro count t' h
    obtain ⟨hassigned, hwf', hsource⟩ := hwf.assigned_of_eq_ok h
    refine ⟨by rw [run_assignInPlace, h]; rfl, hassigned, ?_⟩
    obtain ⟨n, s, hagain⟩ := hwf'.exists_assigned_iff.mpr fun v block hv hkind =>
      hassigned.exists_resolves hsource hv hkind
    obtain ⟨hassigned', -⟩ := hwf'.assigned_of_eq_ok hagain
    obtain ⟨rfl, rfl⟩ := hassigned.again hsource hassigned'
    exact hagain
  · intro error h
    exact ⟨by rw [run_assignInPlace, h]; rfl, hwf.offendsFirst_of_eq_error h⟩

/-- One of the three blocks has its id already. -/
theorem assignLoggingIds_all_or_none_nestedPage :
    (nestedPage.setLoggingId ⟨5⟩ 12).WellFormed ∧ ∃ c, nestedConfig.validate = .ok c ∧
      (nestedPage.setLoggingId ⟨5⟩ 12).assignLoggingIds c = .ok (.ok (3, nestedPageWithIds)) ∧
        nestedPageWithIds.assignLoggingIds c = .ok (.ok (3, nestedPageWithIds)) := by
  have hwf : (nestedPage.setLoggingId ⟨5⟩ 12).WellFormed := by decide
  have hclash : LoggingElement.firstClash? [] nestedConfig.elements = none := by decide
  have hassign : (nestedPage.setLoggingId ⟨5⟩ 12).assignLoggingIds ⟨nestedConfig.elements, hclash⟩ =
      .ok (.ok (3, nestedPageWithIds)) := rfl
  obtain ⟨-, -, hok, -⟩ := hwf.assignLoggingIds_all_or_none ⟨nestedConfig.elements, hclash⟩
  exact ⟨hwf, _, rfl, hassign, (hok 3 nestedPageWithIds hassign).2.2⟩

end Tree

end TemplateLogging
