import Mathlib.Data.List.Pairwise
import TemplateLogging.Proofs.Assignment
import TemplateLogging.Proofs.Budget
import TemplateLogging.Proofs.Linkage
import TemplateLogging.Proofs.Markers
import TemplateLogging.Proofs.Outcome

namespace TemplateLogging

open Instrument Rose

namespace LoggingElement

/-- The elements have neither their names nor their ids in common. -/
def Apart (d e : LoggingElement) : Prop :=
  d.name ≠ e.name ∧ d.id ≠ e.id

instance : Std.Symm Apart :=
  ⟨fun _ _ h => ⟨h.1.symm, h.2.symm⟩⟩

theorem clash?_eq_none_iff {earlier : List LoggingElement} {e : LoggingElement} :
    clash? earlier e = none ↔ ∀ d ∈ earlier, Apart d e := by
  rw [clash?]
  split_ifs with hname
  · obtain ⟨d, hd, heq⟩ := List.any_eq_true.mp hname
    refine iff_of_false not_false ?_
    intro hall
    exact (hall d hd).1 (of_decide_eq_true heq)
  · rw [Option.map_eq_none_iff, List.find?_eq_none]
    rw [List.any_eq_true] at hname
    constructor
    · intro hid d hd
      exact ⟨fun heq => hname ⟨d, hd, decide_eq_true heq⟩, fun heq => hid d hd (decide_eq_true heq)⟩
    · intro hall d hd heq
      exact (hall d hd).2 (of_decide_eq_true heq)

theorem firstClash?_eq_none_iff {earlier es : List LoggingElement} :
    firstClash? earlier es = none ↔ (∀ e ∈ es, ∀ d ∈ earlier, Apart d e) ∧ es.Pairwise Apart := by
  induction es generalizing earlier with
  | nil => simp [firstClash?]
  | cons e es ih =>
      rw [firstClash?, List.forall_mem_cons, List.pairwise_cons]
      cases hclash : clash? earlier e with
      | some error =>
          refine iff_of_false (Option.some_ne_none _) ?_
          rintro ⟨⟨hapart, -⟩, -⟩
          rw [clash?_eq_none_iff.mpr hapart] at hclash
          cases hclash
      | none =>
          have hapart := clash?_eq_none_iff.mp hclash
          simp only [ih, List.forall_mem_append, List.forall_mem_singleton]
          constructor
          · rintro ⟨hall, hes⟩
            exact ⟨⟨hapart, fun x hx => (hall x hx).1⟩, fun x hx => (hall x hx).2, hes⟩
          · rintro ⟨⟨-, hearlier⟩, he, hes⟩
            exact ⟨fun x hx => ⟨hearlier x hx, he x hx⟩, hes⟩

end LoggingElement

theorem LoggingConfig.elements_of_validate {config : LoggingConfig} {c : ValidLoggingConfig}
    (h : config.validate = .ok c) : c.elements = config.elements := by
  rw [validate] at h
  split at h
  · cases h
  · cases h
    rfl

namespace ValidLoggingConfig

variable {c : ValidLoggingConfig} {d e : LoggingElement}

theorem pairwise_apart (c : ValidLoggingConfig) : c.elements.Pairwise LoggingElement.Apart :=
  (LoggingElement.firstClash?_eq_none_iff.mp c.noClash).2

theorem apart (hd : d ∈ c.elements) (he : e ∈ c.elements) (hne : d ≠ e) : d.Apart e :=
  c.pairwise_apart.forall hd he hne

theorem id_eq_iff (hd : d ∈ c.elements) (he : e ∈ c.elements) : d.id = e.id ↔ d.name = e.name := by
  by_cases heq : d = e
  · rw [heq]
    exact iff_of_true rfl rfl
  · have hapart := apart hd he heq
    exact iff_of_false hapart.2 hapart.1

theorem mem_of_find? {name : String} (h : c.find? name = some e) :
    e ∈ c.elements ∧ e.name = name :=
  ⟨List.mem_of_find?_eq_some h, by simpa using List.find?_some h⟩

end ValidLoggingConfig

theorem Node.withLoggingId_withLoggingId (n m : Int64) (node : Node) :
    (node.withLoggingId n).withLoggingId m = node.withLoggingId m := by
  rw [withLoggingId.eq_def n]
  split
  · rename_i block hkind
    simp only [withLoggingId, hkind]
  · rfl

theorem Node.links_withLoggingId (n : Int64) (node : Node) :
    (node.withLoggingId n).id = node.id ∧ (node.withLoggingId n).parent = node.parent := by
  rw [withLoggingId]
  split
  · exact ⟨rfl, rfl⟩
  · exact ⟨rfl, rfl⟩

theorem Node.kind_withLoggingId {n : Int64} {node : Node} {block : LogBlock}
    (h : (node.withLoggingId n).kind = .logBlock block) :
    ∃ old, node.kind = .logBlock old ∧ block = { old with loggingId := some n } := by
  rw [withLoggingId] at h
  split at h
  · rename_i old hkind
    exact ⟨old, hkind, (NodeKind.logBlock.inj h).symm⟩
  · rename_i hkind
    exact absurd h (hkind block)

theorem Node.isFileSet_withLoggingId (n : Int64) (node : Node) :
    (node.withLoggingId n).kind = .fileSet ↔ node.kind = .fileSet := by
  rw [withLoggingId]
  split
  · rename_i hkind
    simp [hkind]
  · rfl

def NodeKind.isLogBlock : NodeKind → Bool
  | .logBlock _ => true
  | _ => false

theorem Rose.blocks_workload (bs : List Branch) :
    (workload bs).blocks = (bs.filter (·.kind.isLogBlock)).length := by
  induction bs with
  | nil => rfl
  | cons b bs ih =>
      rw [workload_cons, Workload.blocks_add, ih, List.filter_cons]
      obtain ⟨a, cs⟩ := b
      rw [work, kind_node]
      cases a.kind with
      | logBlock block =>
          have hmarking : (marking block).blocks = 0 := by
            rw [marking]
            split <;> rfl
          simp [NodeKind.isLogBlock, hmarking, Nat.add_comm]
      | htmlAttribute =>
          simp only [NodeKind.isLogBlock]
          split <;> simp
      | _ => simp [NodeKind.isLogBlock]

namespace Tree

variable {s t t' : Tree} {c : ValidLoggingConfig} {parent : Option NodeId} {b : Branch}
  {bs : List Branch} {ids ids' : List NodeId} {assignments : List (NodeId × Int64)}
  {o : InstrumentOptions} {report : InstrumentReport} {v : NodeId} {block : LogBlock}

theorem configuredId_eq_ok {location : Location} {n : Int64}
    (h : configuredId c location block = .ok n) :
    ∃ e ∈ c.elements, e.name = block.name ∧ e.id = n := by
  rw [configuredId] at h
  cases hfind : c.find? block.name with
  | none =>
      rw [hfind] at h
      cases h
  | some e =>
      rw [hfind] at h
      obtain ⟨hmem, hname⟩ := ValidLoggingConfig.mem_of_find? hfind
      refine ⟨e, hmem, hname, ?_⟩
      simp only at h
      split at h
      · split_ifs at h
        exact Except.ok.inj h
      · exact Except.ok.inj h

theorem mem_nodeAssignments_iff (h : t.nodeAssignments c ids = .ok assignments)
    (p : NodeId × Int64) : p ∈ assignments ↔ p.1 ∈ ids ∧ ∃ node block, t.get? p.1 = some node ∧
      node.kind = .logBlock block ∧ configuredId c node.location block = .ok p.2 := by
  induction ids generalizing assignments with
  | nil =>
      cases h
      simp
  | cons id ids ih =>
      rw [nodeAssignments] at h
      split at h
      · rename_i _ location _ _ block hget
        obtain ⟨n, hid, h⟩ := Except.exists_of_bind_eq_ok h
        obtain ⟨rest, hrest, h⟩ := Except.exists_of_bind_eq_ok h
        cases h
        rw [List.mem_cons, List.mem_cons, ih hrest, or_and_right]
        refine or_congr_left ?_
        constructor
        · rintro rfl
          exact ⟨rfl, _, block, hget, rfl, hid⟩
        · rintro ⟨hp, node, block', hget', hkind, hid'⟩
          rw [hp, hget, Option.some.injEq] at hget'
          subst hget'
          obtain rfl := NodeKind.logBlock.inj hkind
          rw [hid, Except.ok.injEq] at hid'
          exact Prod.ext hp hid'.symm
      · rename_i hnone
        rw [ih h, List.mem_cons, or_and_right, or_iff_right]
        rintro ⟨rfl, node, block, hget, hkind, -⟩
        obtain ⟨id, location, parent, children, kind⟩ := node
        simp only at hkind
        subst hkind
        exact hnone _ _ _ _ _ hget

theorem exists_mem_of_nodeAssignments (h : t.nodeAssignments c ids = .ok assignments)
    (hv : v ∈ ids) (hkind : t.kind v = .ok (.logBlock block)) : ∃ n, (v, n) ∈ assignments := by
  obtain ⟨node, hget, hnode⟩ := exists_get?_of_kind hkind
  induction ids generalizing assignments with
  | nil => cases hv
  | cons id ids ih =>
      rw [nodeAssignments] at h
      split at h
      · obtain ⟨n, -, h⟩ := Except.exists_of_bind_eq_ok h
        obtain ⟨rest, hrest, h⟩ := Except.exists_of_bind_eq_ok h
        cases h
        rcases List.mem_cons.mp hv with rfl | hv
        · exact ⟨n, List.mem_cons_self⟩
        · obtain ⟨m, hm⟩ := ih hrest hv
          exact ⟨m, List.mem_cons_of_mem _ hm⟩
      · rename_i hnone
        rcases List.mem_cons.mp hv with rfl | hv
        · obtain ⟨id, location, parent, children, kind⟩ := node
          simp only at hnode
          subst hnode
          exact absurd hget (hnone _ _ _ _ _)
        · exact ih h hv

theorem nodeAssignments_append : t.nodeAssignments c (ids ++ ids') = do
    let first ← t.nodeAssignments c ids
    return first ++ (← t.nodeAssignments c ids') := by
  induction ids with
  | nil =>
      show t.nodeAssignments c ids' = _ >>= _
      cases t.nodeAssignments c ids' <;> rfl
  | cons id ids ih =>
      rw [List.cons_append, nodeAssignments, nodeAssignments]
      split
      · rename_i _ location _ _ block _
        rw [ih]
        cases configuredId c location block with
        | error e => rfl
        | ok n =>
            cases t.nodeAssignments c ids with
            | error e => rfl
            | ok first => cases t.nodeAssignments c ids' <;> rfl
      · exact ih

theorem ShowsAll.fileAssignments_eq (h : t.ShowsAll parent bs) (hsize : heightAll bs ≤ t.size) :
    (t.fileAssignments c (bs.map Rose.id)).run = .ok (t.nodeAssignments c
      (((bs.map Rose.id).filter fun file => !(t.get? file).any (·.kind.isDependencyFile)).flatMap
        (t.preorder t.size))) := by
  induction bs with
  | nil => rfl
  | cons b bs ih =>
      obtain ⟨hb, hbs⟩ := showsAll_cons_iff.mp h
      rw [heightAll] at hsize
      have hdep : (t.get? b.id).any (·.kind.isDependencyFile) = b.kind.isDependencyFile := by
        rw [hb.get?]
        rfl
      rw [List.map_cons, hb.fileAssignments_cons, hb.descendants_eq (by omega), ih hbs (by omega),
        List.filter_cons, hdep]
      cases b.kind.isDependencyFile with
      | true => rfl
      | false =>
          rw [if_neg Bool.false_ne_true, if_pos Bool.not_false, List.flatMap_cons,
            nodeAssignments_append, preorder_eq_ids hb (by omega)]
          cases t.nodeAssignments c b.ids <;> rfl

theorem WellFormed.assignLoggingIds_eq (hwf : t.WellFormed) (c : ValidLoggingConfig) :
    t.assignLoggingIds c = .ok ((t.nodeAssignments c t.sourceNodes).map fun assignments =>
      (assignments.length, assignments.foldl (fun t p => t.setLoggingId p.1 p.2) t)) := by
  obtain ⟨a, cs, others, hroot, -, h, -⟩ := hwf.exists_holds
  apply Tree.assignLoggingIds_eq
  rw [sourceNodes, h.children_root hroot]
  exact h.shows.children.fileAssignments_eq (Nat.le_of_lt h.heightAll_lt_size)

theorem get?_foldl_setLoggingId_of_mem {x : NodeId} {n : Int64} (hmem : (x, n) ∈ assignments)
    (hsame : ∀ m, (x, m) ∈ assignments → m = n) :
    (assignments.foldl (fun t p => t.setLoggingId p.1 p.2) t).get? x =
      (t.get? x).map (Node.withLoggingId n) := by
  induction assignments generalizing t with
  | nil => cases hmem
  | cons p assignments ih =>
      have hsame' : ∀ m, (x, m) ∈ assignments → m = n :=
        fun m hm => hsame m (List.mem_cons_of_mem _ hm)
      rw [List.foldl_cons]
      by_cases hp : p.1 = x
      · have hpn : p.2 = n := hsame p.2 (by rw [← hp]; exact List.mem_cons_self)
        by_cases hmore : (x, n) ∈ assignments
        · -- A node that is looked at twice gets the same id twice.
          rw [ih hmore hsame', get?_setLoggingId, if_pos hp, Option.map_map, hpn]
          congr 1
          exact funext fun node => node.withLoggingId_withLoggingId n n
        · rw [get?_foldl_setLoggingId, get?_setLoggingId, if_pos hp, hpn]
          rintro ⟨id, m⟩ hq rfl
          rw [hsame' m hq] at hq
          exact hmore hq
      · have hmore : (x, n) ∈ assignments := by
          refine (List.mem_cons.mp hmem).resolve_left ?_
          rintro rfl
          exact hp rfl
        rw [ih hmore hsame', get?_setLoggingId, if_neg hp]

theorem parent?_setLoggingId (t : Tree) (id : NodeId) (n : Int64) (x : NodeId) :
    (t.setLoggingId id n).parent? x = t.parent? x := by
  rw [parent?, get?_setLoggingId, parent?]
  split_ifs
  · cases t.get? x with
    | none => rfl
    | some node => exact (node.links_withLoggingId n).2
  · rfl

theorem WellFormed.setLoggingId (hwf : t.WellFormed) (id : NodeId) (n : Int64) :
    (t.setLoggingId id n).WellFormed := by
  have hnode : ∀ x node, (t.setLoggingId id n).get? x = some node → ∃ old, t.get? x = some old ∧
      node.id = old.id ∧ node.children = old.children := by
    intro x node hget
    rw [get?_setLoggingId] at hget
    split_ifs at hget
    · obtain ⟨old, hold, rfl⟩ := Option.map_eq_some_iff.mp hget
      exact ⟨old, hold, (old.links_withLoggingId n).1, old.children_withLoggingId n⟩
    · exact ⟨node, hget, rfl, rfl⟩
  have hroot : (t.setLoggingId id n).parent? t.root = none := by
    rw [parent?_setLoggingId, hwf.linked.parent?_root]
  have hfileSet : (t.setLoggingId id n).kind t.root = .ok .fileSet := by
    obtain ⟨root, hget, hkind⟩ := exists_get?_of_kind hwf.fileSet
    rw [kind, node, get?_setLoggingId, hget]
    split_ifs
    · exact congrArg Except.ok ((root.isFileSet_withLoggingId n).mpr hkind)
    · exact congrArg Except.ok hkind
  have hlinked : (t.setLoggingId id n).Linked := by
    refine ⟨⟨?_⟩, ?_, ?_⟩
    · intro parent child
      rw [children_setLoggingId, parent?_setLoggingId]
      exact hwf.linked.mem_children_iff parent child
    · obtain ⟨root, hget, -⟩ := exists_get?_of_kind hfileSet
      exact ⟨root, hget, (parent?_of_get? hget).symm.trans hroot⟩
    · intro x node hget
      obtain ⟨old, hold, hid, -⟩ := hnode x node hget
      exact hid.trans (hwf.linked.id_eq x old hold)
  refine ⟨linked_iff.mp hlinked, ?_, ?_, hfileSet⟩
  · intro x node hget
    obtain ⟨old, hold, -, hchildren⟩ := hnode x node hget
    rw [hchildren]
    exact hwf.nodup x old hold
  · intro x node hget
    obtain ⟨old, hold, -⟩ := hnode x node hget
    exact hwf.fresh x old hold

theorem WellFormed.foldl_setLoggingId (hwf : t.WellFormed) (assignments : List (NodeId × Int64)) :
    (assignments.foldl (fun t p => t.setLoggingId p.1 p.2) t).WellFormed ∧
      ∀ x, (assignments.foldl (fun t p => t.setLoggingId p.1 p.2) t).InSource x ↔ t.InSource x := by
  induction assignments generalizing t with
  | nil => exact ⟨hwf, fun x => Iff.rfl⟩
  | cons p assignments ih =>
      obtain ⟨hwf', hsource⟩ := ih (hwf.setLoggingId p.1 p.2)
      exact ⟨hwf', fun x => (hsource x).trans (inSource_setLoggingId_iff t p.1 p.2 x)⟩

/-- The block has been given the id that is configured for its name. Apart from the id it is what it
was before. -/
def Configured (t : Tree) (c : ValidLoggingConfig) (v : NodeId) (block : LogBlock) : Prop :=
  ∃ e ∈ c.elements, ∃ old, t.kind v = .ok (.logBlock old) ∧ e.name = old.name ∧
    block = { old with loggingId := some e.id }

theorem WellFormed.configured (hwf : t.WellFormed)
    (h : t.nodeAssignments c t.sourceNodes = .ok assignments) (hv : t.InSource v)
    (hkind : (assignments.foldl (fun t p => t.setLoggingId p.1 p.2) t).kind v =
      .ok (.logBlock block)) : t.Configured c v block := by
  have hsource : v ∈ t.sourceNodes := (hwf.mem_sourceNodes_iff v).mpr hv
  obtain ⟨node, hget, hnode⟩ := exists_get?_of_kind hkind
  have hassigned : ∃ n, (v, n) ∈ assignments := by
    by_contra hnone
    rw [get?_foldl_setLoggingId fun p hp heq => hnone ⟨p.2, by rw [← heq]; exact hp⟩] at hget
    have hkind' : t.kind v = .ok (.logBlock block) := by
      rw [kind, Tree.node, hget]
      exact congrArg Except.ok hnode
    exact hnone (exists_mem_of_nodeAssignments h hsource hkind')
  obtain ⟨n, hn⟩ := hassigned
  obtain ⟨-, old, oldBlock, hold, holdKind, hid⟩ := (mem_nodeAssignments_iff h (v, n)).mp hn
  have hsame : ∀ m, (v, m) ∈ assignments → m = n := by
    intro m hm
    obtain ⟨-, old', oldBlock', hold', holdKind', hid'⟩ := (mem_nodeAssignments_iff h (v, m)).mp hm
    simp only at hold hold' hid hid'
    rw [hold, Option.some.injEq] at hold'
    subst hold'
    obtain rfl := NodeKind.logBlock.inj (holdKind.symm.trans holdKind')
    rw [hid, Except.ok.injEq] at hid'
    exact hid'.symm
  simp only at hold hid
  rw [get?_foldl_setLoggingId_of_mem hn hsame, hold, Option.map_some, Option.some.injEq] at hget
  rw [← hget] at hnode
  obtain ⟨_, holdKind', rfl⟩ := Node.kind_withLoggingId hnode
  obtain rfl := NodeKind.logBlock.inj (holdKind.symm.trans holdKind')
  obtain ⟨e, he, hname, rfl⟩ := configuredId_eq_ok hid
  refine ⟨e, he, oldBlock, ?_, hname, rfl⟩
  rw [kind, Tree.node, hold]
  exact congrArg Except.ok holdKind

theorem Holds.exists_walked_block {root : NodeId} {next : Nat} {others : Multiset Node} {a : Item}
    {cs : List Branch} (h : t.Holds root next ((Rose.node a cs).nodes none + others))
    (hroot : a.id = root) (hfileSet : a.kind = .fileSet) (hv : v ∈ t.visits)
    (hkind : t.kind v = .ok (.logBlock block)) :
    ∃ x ∈ walkedAll cs, x.id = v ∧ x.kind = .logBlock block ∧ ∃ parent, t.Shows parent x := by
  obtain ⟨x, hx, rfl, parent, hshows⟩ := h.exists_walked hroot hv
  have hblock : x.kind = .logBlock block := Except.ok.inj (hshows.kind_eq.symm.trans hkind)
  have hplain := NodeKind.isPlain_of_fileSet hfileSet
  rw [walked_plain hplain, List.mem_cons] at hx
  refine ⟨x, hx.resolve_left ?_, rfl, hblock, parent, hshows⟩
  rintro rfl
  exact NodeKind.ne_logBlock_of_isPlain hplain block hblock

theorem exists_file_of_mem_walkedAll {x : Branch} (hx : x ∈ walkedAll bs) :
    ∃ b ∈ bs, x ∈ b.walked := by
  induction bs with
  | nil => cases hx
  | cons b bs ih =>
      rw [walkedAll, List.mem_append] at hx
      rcases hx with hx | hx
      · exact ⟨b, List.mem_cons_self, hx⟩
      · obtain ⟨c, hc, hx⟩ := ih hx
        exact ⟨c, List.mem_cons_of_mem _ hc, hx⟩

theorem WellFormed.inSource_of_mem_visits (hwf : t.WellFormed) (hv : v ∈ t.visits)
    (hkind : t.kind v = .ok (.logBlock block)) : t.InSource v := by
  obtain ⟨a, cs, others, hroot, hfileSet, h, -⟩ := hwf.exists_holds
  obtain ⟨x, hx, rfl, hblock, -⟩ := h.exists_walked_block hroot hfileSet hv hkind
  obtain ⟨b, hb, hx⟩ := exists_file_of_mem_walkedAll hx
  rw [h.inSource_iff hroot]
  refine ⟨b, hb, ?_, ?_⟩
  · rw [Bool.eq_false_iff]
    intro hdep
    obtain ⟨path, hfile⟩ := exists_path_of_isDependencyFile hdep
    obtain ⟨c, ds⟩ := b
    rw [walked_dependency (show c.kind = _ from hfile), List.mem_singleton] at hx
    rw [hx, hfile] at hblock
    cases hblock
  · obtain ⟨path, hocc⟩ := occurs_of_mem_walked hx
    have hmem := hocc.label_mem
    rw [labelsAll, labelsAll, List.append_nil] at hmem
    exact List.mem_map_of_mem hmem

theorem WellFormed.exists_gated (hwf : t.WellFormed)
    (hrun : t.instrument o = .ok (.ok report, t')) (hv : v ∈ t.visits)
    (hkind : t.kind v = .ok (.logBlock block))
    (hsilent : (NodeKind.logBlock block).exprs.flatMap Expr.loggingCalls = []) :
    ∃ id tag, block.loggingId = some id ∧ t.child? v 0 = some tag ∧
      t'.HasGated tag (.print (markerName o) true) .none (.print (marker id block) true) := by
  obtain ⟨a, cs, others, hroot, hfileSet, -, hready, h, -, h'⟩ := hwf.exists_run hrun
  obtain ⟨x, hx, rfl, hblock, parent, hshows⟩ := h.exists_walked_block hroot hfileSet hv hkind
  have hmarks : Marks o (walkedAll cs) (rewriteAll o false cs) :=
    (hereditary_marks o).of_files hready
  obtain ⟨hid, tag, rest, hchildren, y, path, hy, hlabel, before, m, after, hm, hmarker, hafter⟩ :=
    hmarks.marked (.start t.ids.next) x hx block hblock
  obtain ⟨id, hid⟩ := Option.isSome_iff_exists.mp hid
  rw [whole_files hready] at hy
  rw [MarkerOf, hsilent, hid] at hmarker
  have hgated := (h'.shows.children.of_occurs hy).hasGated hm hmarker hafter
  rw [show y.id = tag.id from congrArg Item.id hlabel] at hgated
  refine ⟨id, tag.id, hid, ?_, hgated⟩
  rw [hshows.child?_eq, hchildren]
  rfl

/-- The blocks that the walk comes to. -/
def visitedBlocks (t : Tree) : List NodeId :=
  t.visits.filter fun v => (t.get? v).any (·.kind.isLogBlock)

theorem Holds.length_visitedBlocks {root : NodeId} {next : Nat} {others : Multiset Node} {a : Item}
    {cs : List Branch} (h : t.Holds root next ((Rose.node a cs).nodes none + others))
    (hroot : a.id = root) (hfileSet : a.kind = .fileSet) :
    t.visitedBlocks.length = (Rose.workload (walkedAll cs)).blocks := by
  have hvisits : t.visits = (a.id :: (walkedAll cs).map Rose.id) := by
    rw [visits, h.read_eq hroot, walkedAll, walkedAll, List.append_nil,
      walked_plain (NodeKind.isPlain_of_fileSet hfileSet)]
    rfl
  have ha : (t.get? a.id).any (·.kind.isLogBlock) = false := by
    have hget := h.shows.get?
    rw [id_node] at hget
    rw [hget, Option.any_some]
    show a.kind.isLogBlock = false
    rw [hfileSet]
    rfl
  have hall : ∀ x ∈ walkedAll cs, (t.get? x.id).any (·.kind.isLogBlock) = x.kind.isLogBlock := by
    intro x hx
    have hv : x.id ∈ t.visits := by
      rw [hvisits]
      exact List.mem_cons_of_mem _ (List.mem_map_of_mem hx)
    obtain ⟨path, hocc⟩ := occurs_of_mem_walkedAll hx
    rw [(h.shows.children.of_occurs hocc).get?]
    rfl
  rw [visitedBlocks, hvisits, List.filter_cons, ha, if_neg Bool.false_ne_true, List.filter_map,
    List.length_map, blocks_workload]
  exact congrArg List.length (List.filter_congr hall)

theorem WellFormed.logBlocks_eq (hwf : t.WellFormed)
    (hrun : t.instrument o = .ok (.ok report, t')) : report.logBlocks = t.visitedBlocks.length := by
  obtain ⟨a, cs, others, hroot, hfileSet, -, hready, h, rfl, -⟩ := hwf.exists_run hrun
  have hspends : Spends (Rose.workload (walkedAll cs)) (rewriteAll o false cs) :=
    (hereditary_spends o).of_files hready
  obtain ⟨-, hblocks, -⟩ := hspends (.start t.ids.next)
  rw [hblocks, h.length_visitedBlocks hroot hfileSet]
  exact Nat.zero_add _

theorem code_of_atNode {code message : String} {fault : CompilerFault}
    (h : CompilerFault.atNode code message t v = .ok fault) : fault.code = code := by
  obtain ⟨location, -, h⟩ := Except.exists_of_bind_eq_ok h
  cases h
  rfl

theorem WellFormed.code_ne_idAssigned (hwf : t.WellFormed)
    (hids : ∀ v block, t.InSource v → t.kind v = .ok (.logBlock block) → block.loggingId ≠ none)
    {fault : CompilerFault} (h : t.preflight? = .ok (some fault)) :
    fault.code ≠ Contract.idAssigned.code := by
  obtain ⟨a, cs, others, hroot, hfileSet, hholds, -⟩ := hwf.exists_holds
  rcases hholds.preflight?_cases hroot hfileSet with ⟨fault', hfault', hreports⟩ | ⟨hnone, -⟩
  · rw [h] at hfault'
    cases hfault'
    obtain ⟨before, v, after, contract, message, hnodes, -, hbreaks, hfault⟩ := hreports
    have hv : v ∈ t.sourceNodes := by
      rw [hnodes]
      exact List.mem_append_right _ List.mem_cons_self
    rw [code_of_atNode hfault]
    cases hbreaks with
    | idAssigned hkind hid => exact absurd hid (hids v _ ((hwf.mem_sourceNodes_iff v).mp hv) hkind)
    | openTagFirst _ _ _ | oneLoggingCall _ _ | insideTarget _ _ _ => decide
  · rw [h] at hnone
    cases hnone

theorem InSource.reaches (h : t.InSource v) : t.Reaches v := by
  obtain ⟨file, hfile, -, hbelow⟩ := h
  exact .head hfile hbelow

/-- The ids of a valid configuration reach the markers. Once they have been assigned, no block is
reported for want of one. When the tree has then been instrumented, each of the blocks that the walk
came to, which are those that the report counts, has left on its open tag a marker with the id that
is configured for its name, and the ids of two blocks are equal exactly when their names are. -/
theorem markers_of_assignLoggingIds {config : LoggingConfig} {count : Nat}
    (hvalid : config.validate = .ok c) (hwf : t.WellFormed) (hregular : t.Regular)
    (hassign : t.assignLoggingIds c = .ok (.ok (count, s))) :
    (∀ fault, s.preflight? = .ok (some fault) → fault.code ≠ Contract.idAssigned.code) ∧
    ∀ o report t', s.instrument o = .ok (.ok report, t') →
      report.logBlocks = s.visitedBlocks.length ∧
      (∀ v block, v ∈ s.visits → s.kind v = .ok (.logBlock block) →
        ∃ e ∈ config.elements, ∃ old tag, t.kind v = .ok (.logBlock old) ∧ e.name = old.name ∧
          block = { old with loggingId := some e.id } ∧ s.child? v 0 = some tag ∧
            t'.HasGated tag (.print (markerName o) true) .none
              (.print (marker e.id block) true)) ∧
      ∀ v w block block', v ∈ s.visits → w ∈ s.visits → s.kind v = .ok (.logBlock block) →
        s.kind w = .ok (.logBlock block') →
          (block.loggingId = block'.loggingId ↔ block.name = block'.name) := by
  rw [hwf.assignLoggingIds_eq, Except.ok.injEq] at hassign
  cases hassignments : t.nodeAssignments c t.sourceNodes with
  | error e =>
      rw [hassignments] at hassign
      cases hassign
  | ok assignments =>
      rw [hassignments] at hassign
      cases hassign
      obtain ⟨hwf', hsource⟩ := hwf.foldl_setLoggingId assignments
      generalize hs : assignments.foldl (fun t p => t.setLoggingId p.1 p.2) t = s at hwf' hsource
      have hconfigured : ∀ v block, s.InSource v → s.kind v = .ok (.logBlock block) →
          t.Configured c v block := by
        intro v block hv hkind
        rw [← hs] at hkind
        exact hwf.configured hassignments ((hsource v).mp hv) hkind
      refine ⟨?_, ?_⟩
      · intro fault
        apply hwf'.code_ne_idAssigned
        intro v block hv hkind
        obtain ⟨e, -, old, -, -, rfl⟩ := hconfigured v block hv hkind
        exact Option.some_ne_none _
      · intro o report t' hrun
        refine ⟨hwf'.logBlocks_eq hrun, ?_, ?_⟩
        · intro v block hv hkind
          have hin := hwf'.inSource_of_mem_visits hv hkind
          obtain ⟨e, he, old, hold, hname, rfl⟩ := hconfigured v block hin hkind
          have hsilent := hregular.silent v old ((hsource v).mp hin).reaches hold
          obtain ⟨id, tag, hid, htag, hgated⟩ := hwf'.exists_gated hrun hv hkind hsilent
          cases hid
          rw [LoggingConfig.elements_of_validate hvalid] at he
          exact ⟨e, he, old, tag, hold, hname, rfl, htag, hgated⟩
        · intro v w block block' hv hw hkind hkind'
          obtain ⟨e, he, old, -, hname, rfl⟩ :=
            hconfigured v block (hwf'.inSource_of_mem_visits hv hkind) hkind
          obtain ⟨e', he', old', -, hname', rfl⟩ :=
            hconfigured w block' (hwf'.inSource_of_mem_visits hw hkind') hkind'
          simp only [Option.some.injEq]
          rw [← hname, ← hname', ValidLoggingConfig.id_eq_iff he he']

/-- A page with a block that has two more in it, which have the same name. No block has an id. -/
def nestedPage : Tree :=
  ofNodes [
    .numbered 0 none [1] .fileSet,
    .numbered 1 (some 0) [2] (.file "page.soy" .source),
    .numbered 2 (some 1) [3] (.template "page" .html),
    .numbered 3 (some 2) [4, 5, 8, 11] (.logBlock ⟨"Page", none, none, none⟩),
    .numbered 4 (some 3) [] (.openTag "ul" false),
    .numbered 5 (some 3) [6, 7] (.logBlock ⟨"Item", none, none, none⟩),
    .numbered 6 (some 5) [] (.openTag "li" false),
    .numbered 7 (some 5) [] (.closeTag "li"),
    .numbered 8 (some 3) [9, 10] (.logBlock ⟨"Item", none, none, none⟩),
    .numbered 9 (some 8) [] (.openTag "li" false),
    .numbered 10 (some 8) [] (.closeTag "li"),
    .numbered 11 (some 3) [] (.closeTag "ul")]

def nestedConfig : LoggingConfig :=
  ⟨[{ name := "Item", id := 12 }, { name := "Page", id := 7 }]⟩

/-- The page with the ids that are configured. -/
def nestedPageWithIds : Tree :=
  ((nestedPage.setLoggingId ⟨3⟩ 7).setLoggingId ⟨5⟩ 12).setLoggingId ⟨8⟩ 12

theorem markers_of_assignLoggingIds_nestedPage : ∃ c report t',
    nestedConfig.validate = .ok c ∧ nestedPage.WellFormed ∧ nestedPage.Regular ∧
      nestedPage.assignLoggingIds c = .ok (.ok (3, nestedPageWithIds)) ∧
        nestedPageWithIds.instrument {} = .ok (.ok report, t') ∧
          ∃ e ∈ nestedConfig.elements, e.name = "Item" ∧
            t'.HasGated ⟨9⟩ (.print (markerName {}) true) .none
              (.print (marker e.id ⟨"Item", some e.id, none, none⟩) true) := by
  have hwf : nestedPage.WellFormed := by decide
  have hregular : nestedPage.Regular := regular_of_entries (by decide)
  have hclash : LoggingElement.firstClash? [] nestedConfig.elements = none := by decide
  have hvalid : nestedConfig.validate = .ok ⟨nestedConfig.elements, hclash⟩ := rfl
  have hassign : nestedPage.assignLoggingIds ⟨nestedConfig.elements, hclash⟩ =
      .ok (.ok (3, nestedPageWithIds)) := rfl
  obtain ⟨report, t', hrun⟩ :=
    instrument_ok_of_le (t := nestedPageWithIds) (o := {}) (by decide) rfl (by decide)
  obtain ⟨-, hmarkers⟩ := markers_of_assignLoggingIds hvalid hwf hregular hassign
  have hkind : nestedPageWithIds.kind ⟨8⟩ = .ok (.logBlock ⟨"Item", some 12, none, none⟩) := rfl
  obtain ⟨e, he, old, tag, hold, hname, hblock, htag, hgated⟩ :=
    (hmarkers {} report t' hrun).2.1 ⟨8⟩ _ (by decide) hkind
  cases hold
  cases htag
  rw [hblock] at hgated
  exact ⟨_, report, t', hvalid, hwf, hregular, hassign, hrun, e, he, hname, hgated⟩

end Tree

end TemplateLogging
