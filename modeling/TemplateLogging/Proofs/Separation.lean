import TemplateLogging.Proofs.Assignment
import TemplateLogging.Proofs.Refusal

/-!
What the passes have to do with dependencies and with nodes that do not hang in the tree: nothing.
They leave them as they are, and two trees with the same sources are answered the same and have the
same sources again.
-/

namespace TemplateLogging

open Rose

namespace Rose

/-- The branches are the same, or dependencies under the same id. -/
inductive Alike : Branch → Branch → Prop where
  | same {b : Branch} : Alike b b
  | dependencies {b b' : Branch} (hid : b.id = b'.id) (hb : b.kind.isDependencyFile = true)
      (hb' : b'.kind.isDependencyFile = true) : Alike b b'

/-- The branches that are no dependencies. -/
def sources (bs : List Branch) : List Branch :=
  bs.filter fun b => !b.kind.isDependencyFile

variable {bs bs' : List Branch} {b b' : Branch} {x : NodeId} {o : InstrumentOptions} {inTag : Bool}

theorem mem_sources_iff : b ∈ sources bs ↔ b ∈ bs ∧ b.kind.isDependencyFile = false := by
  rw [sources, List.mem_filter, Bool.not_eq_true']

theorem map_id_eq_of_alike (h : List.Forall₂ Alike bs bs') : bs.map Rose.id = bs'.map Rose.id := by
  induction h with
  | nil => rfl
  | cons hb _ ih =>
      rw [List.map_cons, List.map_cons, ih]
      cases hb with
      | same => rfl
      | dependencies hid _ _ => rw [hid]

theorem sources_eq_of_alike (h : List.Forall₂ Alike bs bs') : sources bs = sources bs' := by
  induction h with
  | nil => rfl
  | cons hb _ ih =>
      rw [sources, sources] at ih ⊢
      rw [List.filter_cons, List.filter_cons, ih]
      cases hb with
      | same => rfl
      | dependencies _ hb hb' => rw [hb, hb', if_neg (by simp), if_neg (by simp)]

theorem alike_refl (bs : List Branch) : List.Forall₂ Alike bs bs :=
  List.forall₂_same.mpr fun _ _ => .same

/-- Alike branches grow into alike ones, and the walk comes as far. -/
theorem alike_rewriteAll (h : List.Forall₂ Alike bs bs') (s : Tally) :
    List.Forall₂ Alike (rewriteAll o inTag bs s).1.forest (rewriteAll o inTag bs' s).1.forest ∧
      (rewriteAll o inTag bs s).2 = (rewriteAll o inTag bs' s).2 := by
  induction h generalizing s with
  | nil => exact ⟨alike_refl _, rfl⟩
  | @cons b _ _ _ hb _ ih =>
      rw [rewriteAll_cons, rewriteAll_cons]
      cases hb with
      | same =>
          obtain ⟨hforest, htally⟩ := ih (rewrite o inTag none b s).2
          refine ⟨?_, htally⟩
          rw [Work.andThen, Work.andThen, Growth.forest_append, Growth.forest_append]
          exact List.rel_append (alike_refl _) hforest
      | dependencies hid hb hb' =>
          obtain ⟨hforest, htally⟩ := ih s
          rw [rewrite_of_isDependencyFile hb, rewrite_of_isDependencyFile hb']
          exact ⟨.cons (.dependencies hid hb hb') hforest, htally⟩

theorem mem_forest_of_isDependencyFile (hb : b ∈ bs) (hdep : b.kind.isDependencyFile = true)
    (s : Tally) : b ∈ (rewriteAll o inTag bs s).1.forest := by
  induction bs generalizing s with
  | nil => cases hb
  | cons c bs ih =>
      rw [rewriteAll_cons, Work.andThen, Growth.forest_append, List.mem_append]
      rcases List.mem_cons.mp hb with rfl | hb
      · left
        rw [rewrite_of_isDependencyFile hdep]
        exact List.mem_singleton_self _
      · exact Or.inr (ih hb _)

theorem mem_idsAll (hb : b ∈ bs) (hx : x ∈ b.ids) : x ∈ idsAll bs := by
  obtain ⟨a, ha, rfl⟩ := List.mem_map.mp hx
  exact List.mem_map_of_mem (mem_labelsAll hb ha)

theorem eq_of_mem_ids (h : (idsAll bs).Nodup) (hb : b ∈ bs) (hb' : b' ∈ bs) (hx : x ∈ b.ids)
    (hx' : x ∈ b'.ids) : b = b' := by
  induction bs with
  | nil => cases hb
  | cons c bs ih =>
      rw [idsAll_cons, List.nodup_append] at h
      obtain ⟨-, hnodup, hapart⟩ := h
      rcases List.mem_cons.mp hb with rfl | hmem
      · rcases List.mem_cons.mp hb' with rfl | hmem'
        · rfl
        · exact absurd rfl (hapart x hx x (mem_idsAll hmem' hx'))
      · rcases List.mem_cons.mp hb' with rfl | hmem'
        · exact absurd rfl (hapart x hx' x (mem_idsAll hmem hx))
        · exact ih hnodup hmem hmem'

mutual

theorem exists_occurs : ∀ {b : Branch}, x ∈ b.ids → ∃ c path, c.id = x ∧ Occurs c path [b]
  | node a cs, h => by
      rw [ids_node] at h
      rcases List.mem_cons.mp h with rfl | h
      · exact ⟨node a cs, [], rfl, .here (List.mem_singleton_self _)⟩
      · obtain ⟨c, path, hid, hc⟩ := exists_occursAll h
        exact ⟨c, path ++ [a], hid, hc.under a⟩

theorem exists_occursAll : ∀ {bs : List Branch}, x ∈ idsAll bs → ∃ c path, c.id = x ∧
    Occurs c path bs
  | [], h => absurd h List.not_mem_nil
  | b :: bs, h => by
      rw [idsAll_cons] at h
      rcases List.mem_append.mp h with h | h
      · obtain ⟨c, path, hid, hc⟩ := exists_occurs h
        exact ⟨c, path, hid, hc.mono (by simp)⟩
      · obtain ⟨c, path, hid, hc⟩ := exists_occursAll h
        exact ⟨c, path, hid, hc.mono (List.subset_cons_self _ _)⟩

end

end Rose

namespace Tree

variable {s t : Tree} {root : NodeId} {next : Nat} {others others' : Multiset Node} {a : Item}
  {cs cs' : List Branch} {parent : Option NodeId} {bs bs' : List Branch} {b : Branch} {id : NodeId}

/-- The node is a dependency or below one, or it does not hang in the tree. -/
def Outside (t : Tree) (id : NodeId) : Prop :=
  (∃ file ∈ t.children t.root, (∃ path, t.kind file = .ok (.file path .dependency)) ∧
    t.Below file id) ∨ ¬ t.Reaches id

/-- The trees have the same root, the same next id, and the same nodes in sources. -/
structure SameSources (s t : Tree) : Prop where
  root : s.root = t.root
  get?_root : s.get? s.root = t.get? t.root
  ids : s.ids = t.ids
  inSource_iff : ∀ id, s.InSource id ↔ t.InSource id
  get?_eq : ∀ id, t.InSource id → s.get? id = t.get? id

/-- Branches under the same ids are alike if what is in the sources of either is the same in both
trees. -/
theorem alike_of_shows (hs : s.ShowsAll parent bs) (ht : t.ShowsAll parent bs')
    (hids : bs.map Rose.id = bs'.map Rose.id)
    (hbs : ∀ b ∈ sources bs, ∀ id ∈ b.ids, s.get? id = t.get? id)
    (hbs' : ∀ b ∈ sources bs', ∀ id ∈ b.ids, s.get? id = t.get? id) :
    List.Forall₂ Alike bs bs' := by
  induction bs generalizing bs' with
  | nil =>
      obtain rfl := List.map_eq_nil_iff.mp hids.symm
      exact .nil
  | cons b bs ih =>
      cases bs' with
      | nil => cases hids
      | cons b' bs' =>
          rw [List.map_cons, List.map_cons, List.cons.injEq] at hids
          obtain ⟨hb, hs⟩ := showsAll_cons_iff.mp hs
          obtain ⟨hb', ht⟩ := showsAll_cons_iff.mp ht
          have hrest := ih hs ht hids.2
            (fun c hc => hbs c (mem_sources_iff.mpr
              ⟨List.mem_cons_of_mem _ (mem_sources_iff.mp hc).1, (mem_sources_iff.mp hc).2⟩))
            (fun c hc => hbs' c (mem_sources_iff.mpr
              ⟨List.mem_cons_of_mem _ (mem_sources_iff.mp hc).1, (mem_sources_iff.mp hc).2⟩))
          refine .cons ?_ hrest
          cases hdep : b.kind.isDependencyFile with
          | false =>
              have hsame := hb.congr (hbs b (mem_sources_iff.mpr ⟨List.mem_cons_self, hdep⟩))
              rw [hsame.unique hb' hids.1]
              exact .same
          | true =>
              cases hdep' : b'.kind.isDependencyFile with
              | true => exact .dependencies hids.1 hdep hdep'
              | false =>
                  have hsame := hb'.congr fun id hid =>
                    (hbs' b' (mem_sources_iff.mpr ⟨List.mem_cons_self, hdep'⟩) id hid).symm
                  rw [hb.unique hsame hids.1]
                  exact .same

theorem Holds.inSource_iff_mem_sources
    (h : t.Holds root next ((Rose.node a cs).nodes none + others)) (hroot : a.id = root)
    (id : NodeId) : t.InSource id ↔ ∃ b ∈ sources cs, id ∈ b.ids := by
  rw [h.inSource_iff hroot]
  simp only [mem_sources_iff, and_assoc]

theorem SameSources.exists_holds (h : s.SameSources t) (hs : s.WellFormed) (ht : t.WellFormed) :
    ∃ (a : Item) (cs cs' : List Branch) (others others' : Multiset Node), a.id = t.root ∧
      a.kind = .fileSet ∧ s.Holds t.root t.ids.next ((Rose.node a cs).nodes none + others) ∧
        t.Holds t.root t.ids.next ((Rose.node a cs').nodes none + others') ∧
          List.Forall₂ Alike cs cs' := by
  obtain ⟨a, cs, others, hroot, hkind, hholds, -⟩ := hs.exists_holds
  obtain ⟨a', cs', others', hroot', -, hholds', -⟩ := ht.exists_holds
  have hget := hholds.shows.get?
  have hget' := hholds'.shows.get?
  rw [id_node, hroot, h.get?_root] at hget
  rw [id_node, hroot', hget, Option.some.injEq] at hget'
  have hitem : a = a' := congrArg Node.item hget'
  have hids : cs.map Rose.id = cs'.map Rose.id := congrArg Node.children hget'
  subst hitem
  rw [h.root, h.ids] at hholds
  refine ⟨a, cs, cs', others, others', hroot', hkind, hholds, hholds', ?_⟩
  apply alike_of_shows hholds.shows.children hholds'.shows.children hids
  · intro b hb id hid
    refine h.get?_eq id ((h.inSource_iff id).mp ?_)
    exact (hholds.inSource_iff_mem_sources hroot' id).mpr ⟨b, hb, hid⟩
  · intro b hb id hid
    exact h.get?_eq id ((hholds'.inSource_iff_mem_sources hroot' id).mpr ⟨b, hb, hid⟩)

section Alike

variable (hs : s.Holds root next ((Rose.node a cs).nodes none + others))
  (ht : t.Holds root next ((Rose.node a cs').nodes none + others'))
  (h : List.Forall₂ Alike cs cs')

include hs ht h

theorem Holds.sameSources (hroot : a.id = root) : s.SameSources t where
  root := hs.root_eq.trans ht.root_eq.symm
  get?_root := by
    have hget := hs.shows.get?
    have hget' := ht.shows.get?
    rw [id_node, hroot] at hget hget'
    rw [hs.root_eq, ht.root_eq, hget, hget']
    exact congrArg (fun ids => some (a.toNode none ids)) (map_id_eq_of_alike h)
  ids := by
    have hnext := hs.next_eq.trans ht.next_eq.symm
    cases hs' : s.ids
    cases ht' : t.ids
    rw [hs', ht'] at hnext
    exact congrArg IdSource.mk hnext
  inSource_iff id := by
    rw [hs.inSource_iff_mem_sources hroot, ht.inSource_iff_mem_sources hroot,
      sources_eq_of_alike h]
  get?_eq id hid := by
    obtain ⟨b, hb, hid⟩ := (ht.inSource_iff_mem_sources hroot id).mp hid
    have hb' := hb
    rw [← sources_eq_of_alike h] at hb'
    have hshows := hs.shows.children.of_mem (mem_sources_iff.mp hb').1
    have hshows' := ht.shows.children.of_mem (mem_sources_iff.mp hb).1
    exact hshows.get?_eq hshows' hid

theorem Holds.nodeFault?_eq_of_mem (hb : b ∈ cs) (hb' : b ∈ cs') (hid : id ∈ b.ids) :
    s.nodeFault? id = t.nodeFault? id := by
  obtain ⟨x, path, rfl, hx⟩ := exists_occurs hid
  have hsub : [b] ⊆ cs := by simpa using hb
  have hsub' : [b] ⊆ cs' := by simpa using hb'
  have hcs := hx.mono hsub
  have hcs' := hx.mono hsub'
  obtain ⟨ctx, hplug, hitems⟩ := hcs.exists_context (.within .top a [] []) (by simp)
  obtain ⟨ctx', hplug', hitems'⟩ := hcs'.exists_context (.within .top a [] []) (by simp)
  have hplugged := hs.within_top
  have hplugged' := ht.within_top
  rw [← hplug] at hplugged
  rw [← hplug'] at hplugged'
  refine hplugged.nodeFault?_eq hplugged' (hitems.trans hitems'.symm) ?_
  have hshows := hs.shows.children.of_occurs hcs
  have hshows' := ht.shows.children.of_occurs hcs'
  have hopens : s.opensBlock x.id = t.opensBlock x.id := by
    refine opensBlock_eq (hshows.parent?_eq.trans hshows'.parent?_eq.symm) ?_
    intro parent hparent
    rw [hshows'.parent?_eq] at hparent
    cases path with
    | nil =>
        obtain rfl : a.id = parent := Option.some.inj hparent
        exact hs.shows.children_eq.trans
          ((map_id_eq_of_alike h).trans ht.shows.children_eq.symm)
    | cons c path =>
        obtain rfl : c.id = parent := Option.some.inj hparent
        obtain ⟨ds, -, hc⟩ := hx.outer
        have hds := hs.shows.children.of_occurs (hc.mono hsub)
        have hds' := ht.shows.children.of_occurs (hc.mono hsub')
        exact hds.children_eq.trans hds'.children_eq.symm
  exact hshows.sourceLevels_eq hshows' hopens
    (Nat.le_succ_of_le hplugged.height_le_size_of_plug)
    (Nat.le_succ_of_le hplugged'.height_le_size_of_plug)

theorem Holds.preflight?_eq (hroot : a.id = root) : s.preflight? = t.preflight? := by
  have hfiles : ∀ {bs bs' : List Branch}, List.Forall₂ Alike bs bs' → bs ⊆ cs → bs' ⊆ cs' →
      s.firstFileFault? (bs.map Rose.id) = t.firstFileFault? (bs'.map Rose.id) := by
    intro bs bs' halike hsub hsub'
    induction halike with
    | nil => rfl
    | @cons b b' bs bs' hb _ ih =>
        rw [List.cons_subset] at hsub hsub'
        have hshows := hs.shows.children.of_mem hsub.1
        have hshows' := ht.shows.children.of_mem hsub'.1
        have hrest := ih hsub.2 hsub'.2
        rw [List.map_cons, List.map_cons, firstFileFault?, firstFileFault?, hshows.kind_eq,
          hshows'.kind_eq]
        show (if b.kind.isDependencyFile = true then _ else _) =
          if b'.kind.isDependencyFile = true then _ else _
        cases hb with
        | dependencies _ hdep hdep' => rw [if_pos hdep, if_pos hdep', hrest]
        | same =>
            have hheight := height_le_heightAll hsub.1
            have hheight' := height_le_heightAll hsub'.1
            have hsize := hs.heightAll_lt_size
            have hsize' := ht.heightAll_lt_size
            rw [hrest, hshows.descendants_eq (by omega), hshows'.descendants_eq (by omega),
              firstFault?_eq fun id hid => hs.nodeFault?_eq_of_mem ht h hsub.1 hsub'.1 hid]
  rw [preflight?, preflight?, hs.children_root hroot, ht.children_root hroot]
  exact hfiles h (List.Subset.refl _) (List.Subset.refl _)

theorem Holds.fileAssignments_eq (hroot : a.id = root) (c : ValidLoggingConfig) :
    (s.fileAssignments c (s.children s.root)).run =
      (t.fileAssignments c (t.children t.root)).run := by
  have hfiles : ∀ {bs bs' : List Branch}, List.Forall₂ Alike bs bs' → bs ⊆ cs → bs' ⊆ cs' →
      (s.fileAssignments c (bs.map Rose.id)).run =
        (t.fileAssignments c (bs'.map Rose.id)).run := by
    intro bs bs' halike hsub hsub'
    induction halike with
    | nil => rfl
    | @cons b b' bs bs' hb _ ih =>
        rw [List.cons_subset] at hsub hsub'
        have hshows := hs.shows.children.of_mem hsub.1
        have hshows' := ht.shows.children.of_mem hsub'.1
        rw [List.map_cons, List.map_cons, hshows.fileAssignments_cons,
          hshows'.fileAssignments_cons, ih hsub.2 hsub'.2]
        cases hb with
        | dependencies _ hdep hdep' => rw [if_pos hdep, if_pos hdep']
        | same =>
            have hheight := height_le_heightAll hsub.1
            have hheight' := height_le_heightAll hsub'.1
            have hsize := hs.heightAll_lt_size
            have hsize' := ht.heightAll_lt_size
            rw [hshows.descendants_eq (by omega), hshows'.descendants_eq (by omega),
              nodeAssignments_eq fun id hid => hshows.get?_eq hshows' hid]
  rw [hs.children_root hroot, ht.children_root hroot]
  exact hfiles h (List.Subset.refl _) (List.Subset.refl _)

end Alike

theorem SameSources.setLoggingId (h : s.SameSources t) (id : NodeId) (loggingId : Int64) :
    (s.setLoggingId id loggingId).SameSources (t.setLoggingId id loggingId) where
  root := h.root
  get?_root := by
    show (s.setLoggingId id loggingId).get? s.root = (t.setLoggingId id loggingId).get? t.root
    rw [get?_setLoggingId, get?_setLoggingId, h.get?_root, h.root]
  ids := h.ids
  inSource_iff x := by
    rw [inSource_setLoggingId_iff, inSource_setLoggingId_iff, h.inSource_iff]
  get?_eq x hx := by
    rw [inSource_setLoggingId_iff] at hx
    rw [get?_setLoggingId, get?_setLoggingId, h.get?_eq x hx]

theorem SameSources.foldl_setLoggingId (h : s.SameSources t)
    (assignments : List (NodeId × Int64)) :
    (assignments.foldl (fun t p => t.setLoggingId p.1 p.2) s).SameSources
      (assignments.foldl (fun t p => t.setLoggingId p.1 p.2) t) := by
  induction assignments generalizing s t with
  | nil => exact h
  | cons p assignments ih => exact ih (h.setLoggingId p.1 p.2)

/-- What is outside the sources of a tree is not in the files that the passes work on. -/
theorem Holds.outside_cases (h : t.Holds root next ((Rose.node a cs).nodes none + others))
    (hroot : a.id = root) {node : Node} (hget : t.get? id = some node) (hout : t.Outside id) :
    node ∈ others ∨ ∃ b ∈ cs, b.kind.isDependencyFile = true ∧ node ∈ b.nodes (some a.id) := by
  rcases hout with ⟨file, hfile, ⟨path, hkind⟩, hbelow⟩ | hunreached
  · rw [h.children_root hroot] at hfile
    obtain ⟨b, hb, rfl⟩ := List.mem_map.mp hfile
    have hshows := h.shows.children.of_mem hb
    obtain ⟨n, hn, rfl⟩ := (mem_ids_iff (some a.id)).mp ((hshows.below_iff id).mp hbelow)
    rw [hshows n hn, Option.some.injEq] at hget
    subst hget
    rw [hshows.kind_eq, Except.ok.injEq] at hkind
    refine Or.inr ⟨b, hb, ?_, hn⟩
    rw [hkind]
    rfl
  · rcases Multiset.mem_add.mp (h.mem hget) with hmem | hmem
    · have hid := (mem_ids_iff none).mpr ⟨node, hmem, h.id_eq hget⟩
      exact absurd ((h.reaches_iff hroot id).mpr hid) hunreached
    · exact Or.inl hmem

theorem WellFormed.instrument_outside (hwf : t.WellFormed) {o : InstrumentOptions}
    {result : Except CompilerFault InstrumentReport} {t' : Tree}
    (hrun : t.instrument o = .ok (result, t')) {node : Node} (hget : t.get? id = some node)
    (hout : t.Outside id) : t'.get? id = some node := by
  obtain ⟨a, cs, others, hroot, hkind, h, -⟩ := hwf.exists_holds
  rcases h.preflight?_cases hroot hkind with ⟨fault, hfault, -⟩ | ⟨-, hready⟩
  · rw [instrument_of_fault hfault] at hrun
    cases hrun
    exact hget
  · rcases h.instrument_ok_or_exhausted (o := o) hroot hkind hready with ⟨u, hok, hu⟩ | hfail
    · rw [hok] at hrun
      cases hrun
      obtain rfl := h.id_eq hget
      rcases h.outside_cases hroot hget hout with hmem | ⟨b, hb, hdep, hmem⟩
      · exact hu.get? (Multiset.mem_add.mpr (Or.inr hmem))
      · exact hu.shows.children.of_mem (mem_forest_of_isDependencyFile hb hdep _) node hmem
    · rw [hfail] at hrun
      cases hrun

theorem WellFormed.assignLoggingIds_outside (hwf : t.WellFormed) {c : ValidLoggingConfig}
    {count : Nat} {t' : Tree} (hrun : t.assignLoggingIds c = .ok (.ok (count, t'))) {node : Node}
    (hget : t.get? id = some node) (hout : t.Outside id) : t'.get? id = some node := by
  obtain ⟨a, cs, others, hroot, -, h, -⟩ := hwf.exists_holds
  obtain ⟨r, hr, hsources⟩ :=
    h.shows.children.exists_assignments (c := c) (Nat.le_of_lt h.heightAll_lt_size)
  rw [children_node, ← h.children_root hroot] at hr
  rw [assignLoggingIds_eq hr] at hrun
  cases r with
  | error error => cases hrun
  | ok assignments =>
      cases hrun
      rw [get?_foldl_setLoggingId, hget]
      intro p hp heq
      obtain ⟨b, hb, hfile, hid⟩ := hsources assignments rfl p hp
      rw [children_node] at hb
      rw [heq] at hid
      have hcs : id ∈ idsAll cs := mem_idsAll hb hid
      have hnodup := h.nodup_ids
      rw [ids_node, List.nodup_cons] at hnodup
      rcases h.outside_cases hroot hget hout with hmem | ⟨b', hb', hdep, hmem⟩
      · have hwhole : id ∈ (Rose.node a cs).ids := by
          rw [ids_node]
          exact List.mem_cons_of_mem _ hcs
        obtain ⟨n, hn, hnid⟩ := (mem_ids_iff none).mp hwhole
        exact h.id_ne_of_mem hn hmem (hnid.trans (h.id_eq hget).symm)
      · have hid' := (mem_ids_iff (some a.id)).mpr ⟨node, hmem, h.id_eq hget⟩
        rw [eq_of_mem_ids hnodup.2 hb hb' hid hid', hdep] at hfile
        cases hfile

theorem SameSources.instrument (h : s.SameSources t) (hs : s.WellFormed) (ht : t.WellFormed)
    (o : InstrumentOptions) :
    (∃ fault, s.instrument o = .ok (.error fault, s) ∧ t.instrument o = .ok (.error fault, t)) ∨
      (∃ report s' t', s.instrument o = .ok (.ok report, s') ∧
        t.instrument o = .ok (.ok report, t') ∧ s'.SameSources t') ∨
          s.instrument o = .error .idsExhausted ∧ t.instrument o = .error .idsExhausted := by
  obtain ⟨a, cs, cs', others, others', hroot, hkind, hholds, hholds', halike⟩ :=
    h.exists_holds hs ht
  have hpreflight := hholds.preflight?_eq hholds' halike hroot
  rcases hholds.preflight?_cases hroot hkind with ⟨fault, hfault, -⟩ | ⟨hnone, hready⟩
  · exact Or.inl ⟨fault, instrument_of_fault hfault,
      instrument_of_fault (hpreflight.symm.trans hfault)⟩
  · have hready' := hholds'.fileReady_of_preflight hroot hkind (hpreflight.symm.trans hnone)
    obtain ⟨hforest, htally⟩ := alike_rewriteAll (o := o) halike (.start t.ids.next)
    have htakes := hholds.takes_instrument (o := o) hroot hkind hready
    have htakes' := hholds'.takes_instrument (o := o) hroot hkind hready'
    have hle := next_le_rewriteAll hready o t.ids.next
    rw [← htally] at htakes'
    right
    by_cases henough : t.ids.next = (rewriteAll o false cs (.start t.ids.next)).2.next ∨
        (rewriteAll o false cs (.start t.ids.next)).2.next ≤ maxWord
    · obtain ⟨⟨_, s'⟩, hrun, rfl, hs'⟩ := htakes.ok henough
      obtain ⟨⟨_, t'⟩, hrun', rfl, ht'⟩ := htakes'.ok henough
      exact Or.inl ⟨_, s', t', hrun, hrun', hs'.sameSources ht' hforest hroot⟩
    · exact Or.inr ⟨htakes.error (by omega) (by omega), htakes'.error (by omega) (by omega)⟩

theorem SameSources.assignLoggingIds (h : s.SameSources t) (hs : s.WellFormed)
    (ht : t.WellFormed) (c : ValidLoggingConfig) :
    (∃ error, s.assignLoggingIds c = .ok (.error error) ∧
      t.assignLoggingIds c = .ok (.error error)) ∨
        ∃ count s' t', s.assignLoggingIds c = .ok (.ok (count, s')) ∧
          t.assignLoggingIds c = .ok (.ok (count, t')) ∧ s'.SameSources t' := by
  obtain ⟨a, cs, cs', others, others', hroot, -, hholds, hholds', halike⟩ := h.exists_holds hs ht
  have heq := hholds.fileAssignments_eq hholds' halike hroot c
  obtain ⟨r, hr, -⟩ :=
    hholds'.shows.children.exists_assignments (c := c) (Nat.le_of_lt hholds'.heightAll_lt_size)
  rw [children_node, ← hholds'.children_root hroot] at hr
  rw [hr] at heq
  rw [assignLoggingIds_eq heq, assignLoggingIds_eq hr]
  cases r with
  | error error => exact Or.inl ⟨error, rfl, rfl⟩
  | ok assignments => exact Or.inr ⟨_, _, _, rfl, rfl, h.foldl_setLoggingId assignments⟩

/-- Neither pass changes a node outside of the sources, and what a pass answers and makes of the
sources depends on nothing else. -/
theorem passes_stay_in_sources (hs : s.WellFormed) (o : InstrumentOptions)
    (c : ValidLoggingConfig) :
    (∀ id node, s.get? id = some node → s.Outside id →
      (∀ result s', s.instrument o = .ok (result, s') → s'.get? id = some node) ∧
        ∀ count s', s.assignLoggingIds c = .ok (.ok (count, s')) → s'.get? id = some node) ∧
    ∀ t, t.WellFormed → s.SameSources t →
      ((∃ fault, s.instrument o = .ok (.error fault, s) ∧
          t.instrument o = .ok (.error fault, t)) ∨
        (∃ report s' t', s.instrument o = .ok (.ok report, s') ∧
          t.instrument o = .ok (.ok report, t') ∧ s'.SameSources t') ∨
        s.instrument o = .error .idsExhausted ∧ t.instrument o = .error .idsExhausted) ∧
      ((∃ error, s.assignLoggingIds c = .ok (.error error) ∧
          t.assignLoggingIds c = .ok (.error error)) ∨
        ∃ count s' t', s.assignLoggingIds c = .ok (.ok (count, s')) ∧
          t.assignLoggingIds c = .ok (.ok (count, t')) ∧ s'.SameSources t') := by
  constructor
  · intro id node hget hout
    exact ⟨fun _ _ hrun => hs.instrument_outside hrun hget hout,
      fun _ _ hrun => hs.assignLoggingIds_outside hrun hget hout⟩
  · intro t ht hsame
    exact ⟨hsame.instrument hs ht o, hsame.assignLoggingIds hs ht c⟩

/-- The page beside a dependency with the given children, and other nodes. -/
def pageBeside (children : List NodeId) (others : List Node) : Tree :=
  let nodes : List Node := [
    { id := ⟨0⟩, location := .unknown, children := [⟨1⟩, ⟨10⟩], kind := .fileSet },
    { id := ⟨10⟩, location := .unknown, parent := some ⟨0⟩, children,
      kind := .file "lib.soy" .dependency }]
  (nodes ++ others).foldl insertNode { page (some 7) with ids := ⟨13⟩ }

/-- A block that breaks a contract. -/
def brokenBlock : Node where
  id := ⟨11⟩
  location := .unknown
  parent := some ⟨10⟩
  kind := .logBlock ⟨"Lost", none, none, none⟩

def looseText : Node where
  id := ⟨12⟩
  location := .unknown
  kind := .rawText "lost"

theorem sameSources_pageBeside :
    (pageBeside [] []).SameSources (pageBeside [⟨11⟩] [brokenBlock, looseText]) := by
  have hs : (pageBeside [] []).WellFormed := by decide
  have ht : (pageBeside [⟨11⟩] [brokenBlock, looseText]).WellFormed := by decide
  have hlist : (pageBeside [] []).sourceNodes =
      (pageBeside [⟨11⟩] [brokenBlock, looseText]).sourceNodes := by decide
  have hnodes : (pageBeside [⟨11⟩] [brokenBlock, looseText]).sourceNodes.map
      (pageBeside [] []).get? = (pageBeside [⟨11⟩] [brokenBlock, looseText]).sourceNodes.map
        (pageBeside [⟨11⟩] [brokenBlock, looseText]).get? := rfl
  refine ⟨rfl, rfl, rfl, ?_, ?_⟩
  · intro id
    rw [InSource, ← hs.mem_sourceNodes_iff, hlist]
    exact ht.mem_sourceNodes_iff id
  · intro id hid
    exact List.map_inj_left.mp hnodes id ((ht.mem_sourceNodes_iff id).mpr hid)

/-- The dependency is empty, or it has the block, and a node hangs nowhere. -/
theorem passes_stay_in_sources_pageBeside : ∃ report s' t',
    (pageBeside [] []).instrument {} = .ok (.ok report, s') ∧
      (pageBeside [⟨11⟩] [brokenBlock, looseText]).instrument {} = .ok (.ok report, t') ∧
        s'.SameSources t' ∧ t'.get? ⟨11⟩ = some brokenBlock := by
  have hs : (pageBeside [] []).WellFormed := by decide
  have ht : (pageBeside [⟨11⟩] [brokenBlock, looseText]).WellFormed := by decide
  have hout : (pageBeside [⟨11⟩] [brokenBlock, looseText]).Outside ⟨11⟩ :=
    Or.inl ⟨⟨10⟩, by decide, ⟨"lib.soy", rfl⟩, .single (by decide)⟩
  obtain ⟨report, s', hrun⟩ := instrument_ok_of_le (o := {}) hs rfl (by decide +kernel)
  rcases ((passes_stay_in_sources hs {} ⟨[], rfl⟩).2 _ ht sameSources_pageBeside).1 with
    ⟨fault, hfault, -⟩ | ⟨report', s'', t', hrun', hrun'', hsame⟩ | ⟨hexhausted, -⟩
  · rw [hrun] at hfault
    cases hfault
  · obtain ⟨hkept, -⟩ := (passes_stay_in_sources ht {} ⟨[], rfl⟩).1 ⟨11⟩ brokenBlock rfl hout
    exact ⟨report', s'', t', hrun', hrun'', hsame, hkept _ _ hrun''⟩
  · rw [hrun] at hexhausted
    cases hexhausted

end Tree

end TemplateLogging
