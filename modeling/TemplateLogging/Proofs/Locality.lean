import TemplateLogging.Proofs.Contracts
import TemplateLogging.Proofs.Places
import TemplateLogging.Proofs.Preorder

/-!
What is read at a node is determined by its branch, by the nodes above it and by the list it stands
in. Two trees that have a branch at the same place answer the same there, however large they are and
whatever else is in them, and a source is the same under other ids.
-/

namespace TemplateLogging

open Rose

namespace Tree

variable {s t : Tree} {id : NodeId} {parent : Option NodeId} {b : Branch}

theorem Shows.unique {parent' : Option NodeId} {b' : Branch} (h : t.Shows parent b)
    (h' : t.Shows parent' b') (hid : b.id = b'.id) : b = b' := by
  have hread := read_eq h (Nat.le_max_left b.height b'.height)
  have hread' := read_eq h' (Nat.le_max_right b.height b'.height)
  rw [hid, hread'] at hread
  exact (List.cons.inj hread).1.symm

theorem Shows.get?_eq (hs : s.Shows parent b) (ht : t.Shows parent b) (hid : id ∈ b.ids) :
    s.get? id = t.get? id := by
  obtain ⟨n, hn, rfl⟩ := (mem_ids_iff parent).mp hid
  rw [hs n hn, ht n hn]

theorem Shows.congr (h : s.Shows parent b) (hget : ∀ id ∈ b.ids, s.get? id = t.get? id) :
    t.Shows parent b := by
  intro n hn
  rw [← hget n.id ((mem_ids_iff parent).mpr ⟨n, hn, rfl⟩)]
  exact h n hn

section Renumbered

variable {f : NodeId → NodeId}

theorem opensBlock_renumber (hparent : s.parent? (f id) = (t.parent? id).map f)
    (hchildren : ∀ parent, t.parent? id = some parent →
      s.children (f parent) = (t.children parent).map f)
    (hf : ∀ parent first, t.parent? id = some parent → t.child? parent 0 = some first →
      f first = f id → first = id) :
    s.opensBlock (f id) = t.opensBlock id := by
  rw [opensBlock, opensBlock, hparent]
  cases hp : t.parent? id with
  | none => rfl
  | some parent =>
      rw [Option.map_some, Option.bind_some, Option.bind_some, child?, hchildren parent hp,
        List.getElem?_map, ← child?]
      cases hfirst : t.child? parent 0 with
      | none => rfl
      | some first => exact decide_eq_decide.mpr ⟨hf parent first hp hfirst, congrArg f⟩

/-- The source of a node is made of its kind and the sources of its children, and that of a
condition tells whether it opens its block. -/
theorem nodeSource_eq_iff {part part' : NodeId → String} {id' : NodeId} {node node' : Node}
    (hkind : node'.kind = node.kind) (hparts : node'.children.map part' = node.children.map part) :
    s.nodeSource part' id' node' = t.nodeSource part id node ↔
      ∀ condition, node.kind = .ifCond condition → s.opensBlock id' = t.opensBlock id := by
  constructor
  · intro heq condition hnode
    have hlength := congrArg String.length heq
    simp only [nodeSource, childSources, hkind, hnode, hparts, braced, String.length_append]
      at hlength
    have hne : "if ".length ≠ "elseif ".length := by decide
    cases hs : s.opensBlock id' with
    | true =>
        cases ht : t.opensBlock id with
        | true => rfl
        | false =>
            rw [hs, ht, if_pos rfl, if_neg Bool.false_ne_true] at hlength
            omega
    | false =>
        cases ht : t.opensBlock id with
        | true =>
            rw [hs, ht, if_pos rfl, if_neg Bool.false_ne_true] at hlength
            omega
        | false => rfl
  · intro hopens
    have hspaced : node'.children.map (fun child => " " ++ part' child) =
        node.children.map fun child => " " ++ part child := by
      have hmap := congrArg (List.map (" " ++ ·)) hparts
      rwa [List.map_map, List.map_map] at hmap
    cases hnode : node.kind with
    | htmlAttribute =>
        rw [nodeSource, nodeSource, hkind, hnode]
        generalize node'.children = ids' at hparts
        generalize node.children = ids at hparts
        match ids', ids, hparts with
        | [], [], _ => rfl
        | [_], [_], hparts => exact (List.cons.inj hparts).1
        | _ :: _ :: _, _ :: _ :: _, hparts =>
            obtain ⟨hname, hvalue⟩ := List.cons.inj hparts
            simp only [hname, (List.cons.inj hvalue).1]
        | [_], _ :: _ :: _, hparts => exact absurd (congrArg List.length hparts) (by simp)
        | _ :: _ :: _, [_], hparts => exact absurd (congrArg List.length hparts) (by simp)
    | file path kind => cases kind <;> simp only [nodeSource, childSources, hkind, hnode, hparts]
    | template name contentKind =>
        cases contentKind <;> simp only [nodeSource, childSources, hkind, hnode, hparts]
    | print e isImplicit => cases isImplicit <;> simp only [nodeSource, hkind, hnode]
    | ifCond condition =>
        simp only [nodeSource, childSources, hkind, hnode, hparts, hopens condition hnode]
    | _ => simp only [nodeSource, childSources, hkind, hnode, hparts, hspaced]

theorem opensBlock_eq (hparent : s.parent? id = t.parent? id)
    (hchildren : ∀ parent, t.parent? id = some parent → s.children parent = t.children parent) :
    s.opensBlock id = t.opensBlock id := by
  apply opensBlock_renumber (f := fun x => x)
  · rw [hparent, Option.map_id']
  · intro parent hp
    rw [hchildren parent hp, List.map_id']
  · exact fun _ _ _ _ hfirst => hfirst

end Renumbered

/-- What is below a node is in the second tree as well, and looks the same there but for its ids. -/
structure Resembles (t s : Tree) (id : NodeId) (f : NodeId → NodeId) : Prop
    extends t.Relocates s id f where
  kind_eq : ∀ x, t.Below id x → (s.get? (f x)).map (·.kind) = (t.get? x).map (·.kind)
  opensBlock_eq : ∀ x, t.Below id x → ∀ child ∈ t.children x,
    s.opensBlock (f child) = t.opensBlock child

namespace Resembles

variable {f : NodeId → NodeId} {node : Node} (h : t.Resembles s id f)

include h

theorem of_below {x : NodeId} (hx : t.Below id x) : t.Resembles s x f where
  toRelocates := h.toRelocates.of_below hx
  kind_eq y hy := h.kind_eq y (hx.trans hy)
  opensBlock_eq y hy := h.opensBlock_eq y (hx.trans hy)

theorem exists_counterpart (hget : t.get? id = some node) : ∃ node', s.get? (f id) = some node' ∧
    node'.kind = node.kind ∧ node'.children = node.children.map f := by
  have hkind := h.kind_eq id .refl
  have hchildren := h.children_eq id .refl
  rw [hget, Option.map_some, Option.map_eq_some_iff] at hkind
  obtain ⟨node', hget', hkind⟩ := hkind
  rw [children_of_get? hget, children_of_get? hget'] at hchildren
  exact ⟨node', hget', hkind, hchildren⟩

theorem sourceLevels_eq (hopens : s.opensBlock (f id) = t.opensBlock id) (levels : Nat) :
    s.sourceLevels levels (f id) = t.sourceLevels levels id := by
  induction levels generalizing id with
  | zero => rfl
  | succ levels ih =>
      cases hget : t.get? id with
      | none =>
          have hkind := h.kind_eq id .refl
          rw [hget, Option.map_none, Option.map_eq_none_iff] at hkind
          rw [sourceLevels, sourceLevels, hget, hkind]
      | some node =>
          obtain ⟨node', hget', hkind, hchildren⟩ := h.exists_counterpart hget
          rw [sourceLevels, sourceLevels, hget, hget']
          refine (nodeSource_eq_iff hkind ?_).mpr fun _ _ => hopens
          rw [hchildren, List.map_map]
          apply List.map_congr_left
          intro child hchild
          rw [← children_of_get? hget] at hchild
          exact ih (h.of_below (.single hchild)) (h.opensBlock_eq id .refl child hchild)

theorem sourceLevels_succ_eq_iff (hget : t.get? id = some node) (levels : Nat) :
    s.sourceLevels (levels + 1) (f id) = t.sourceLevels (levels + 1) id ↔
      ∀ condition, node.kind = .ifCond condition → s.opensBlock (f id) = t.opensBlock id := by
  obtain ⟨node', hget', hkind, hchildren⟩ := h.exists_counterpart hget
  rw [sourceLevels, sourceLevels, hget, hget']
  refine nodeSource_eq_iff hkind ?_
  rw [hchildren, List.map_map]
  apply List.map_congr_left
  intro child hchild
  rw [← children_of_get? hget] at hchild
  exact (h.of_below (.single hchild)).sourceLevels_eq (h.opensBlock_eq id .refl child hchild) levels

end Resembles

theorem Within.sourceLevels_add {levels : Nat} (h : t.Within levels id) (more : Nat) :
    t.sourceLevels (levels + more) id = t.sourceLevels levels id := by
  induction levels generalizing id with
  | zero =>
      rw [Nat.zero_add]
      cases more with
      | zero => rfl
      | succ more => rw [sourceLevels, sourceLevels, get?_of_not_contains h]
  | succ levels ih =>
      rw [Nat.add_right_comm, sourceLevels, sourceLevels]
      cases hget : t.get? id with
      | none => rfl
      | some node =>
          refine (nodeSource_eq_iff rfl ?_).mpr fun _ _ => rfl
          apply List.map_congr_left
          intro child hchild
          rw [← children_of_get? hget] at hchild
          exact ih (h child hchild)

theorem AcyclicBelow.source_eq (h : t.AcyclicBelow id) {levels : Nat} (hlevels : t.size ≤ levels) :
    t.sourceLevels levels id = t.source id := by
  obtain ⟨more, rfl⟩ := Nat.exists_eq_add_of_le hlevels
  have hwithin := h.within (Nat.le_refl _)
  rw [source, hwithin.sourceLevels_add, hwithin.sourceLevels_add]

mutual

theorem Shows.within : ∀ {above : Option NodeId} {b : Branch} {levels : Nat}, t.Shows above b →
    b.height ≤ levels → t.Within levels b.id
  | _, .node a cs, 0, _, hlevels => absurd hlevels (Nat.not_succ_le_zero _)
  | _, .node a cs, levels + 1, h, hlevels => by
      rw [height] at hlevels
      intro child hchild
      rw [h.children_eq] at hchild
      exact ShowsAll.within h.children (Nat.le_of_succ_le_succ hlevels) child hchild

theorem ShowsAll.within : ∀ {above : Option NodeId} {bs : List Branch} {levels : Nat},
    t.ShowsAll above bs → heightAll bs ≤ levels → ∀ id ∈ bs.map Rose.id, t.Within levels id
  | _, [], _, _, _ => fun _ hid => absurd hid List.not_mem_nil
  | _, b :: bs, levels, h, hlevels => by
      obtain ⟨hb, hbs⟩ := showsAll_cons_iff.mp h
      rw [heightAll] at hlevels
      rw [List.map_cons, List.forall_mem_cons]
      exact ⟨Shows.within hb (by omega), ShowsAll.within hbs (by omega)⟩

end

theorem Shows.parent?_of_child {x child : NodeId} (h : t.Shows parent b) (hx : x ∈ b.ids)
    (hchild : child ∈ t.children x) : t.parent? child = some x := by
  obtain ⟨n, hn, rfl⟩ := (mem_ids_iff parent).mp hx
  rw [children_of_get? (h n hn)] at hchild
  obtain ⟨m, hm, rfl, hlink⟩ := child_mem_nodes hn hchild
  rw [parent?_of_get? (h m hm), hlink]

theorem Shows.resembles (hs : s.Shows parent b) (ht : t.Shows parent b) :
    t.Resembles s b.id fun x => x := by
  have hget : ∀ x, t.Below b.id x → s.get? x = t.get? x := fun x hx =>
    hs.get?_eq ht ((ht.below_iff x).mp hx)
  have hlists : ∀ x, t.Below b.id x → s.children x = t.children x := fun x hx => by
    rw [Tree.children, hget x hx, Tree.children]
  refine ⟨⟨?_, ?_, fun _ _ _ _ heq => heq⟩, ?_, ?_⟩
  · intro x hx
    rw [Tree.contains, hget x hx, Tree.contains]
  · intro x hx
    rw [hlists x hx, List.map_id']
  · intro x hx
    rw [hget x hx]
  · intro x hx child hchild
    apply Tree.opensBlock_eq
    · rw [Tree.parent?, hget child (hx.tail hchild), Tree.parent?]
    · intro parent hparent
      rw [ht.parent?_of_child ((ht.below_iff x).mp hx) hchild, Option.some.injEq] at hparent
      rw [← hparent, hlists x hx]

theorem Shows.sourceLevels_eq {levels levels' : Nat} (hs : s.Shows parent b)
    (ht : t.Shows parent b) (hopens : s.opensBlock b.id = t.opensBlock b.id)
    (hlevels : b.height ≤ levels) (hlevels' : b.height ≤ levels') :
    s.sourceLevels levels b.id = t.sourceLevels levels' b.id := by
  obtain ⟨more, rfl⟩ := Nat.exists_eq_add_of_le hlevels
  obtain ⟨more', rfl⟩ := Nat.exists_eq_add_of_le hlevels'
  rw [(hs.within (Nat.le_refl _)).sourceLevels_add, (ht.within (Nat.le_refl _)).sourceLevels_add]
  exact (hs.resembles ht).sourceLevels_eq hopens b.height

section NodeFault

variable (hatNode : ∀ code message,
    CompilerFault.atNode code message s id = CompilerFault.atNode code message t id)
  (hchild : ∀ i, s.child? id i = t.child? id i)

include hatNode hchild

theorem logBlockFault?_eq
    (hkind : ∀ child, t.child? id 0 = some child → s.kind child = t.kind child)
    (block : LogBlock) : s.logBlockFault? id block = t.logBlockFault? id block := by
  simp only [logBlockFault?, hatNode, hchild]
  cases hfirst : t.child? id 0 with
  | none => rfl
  | some child => simp only [hkind child hfirst]

theorem attributeFault?_eq (hcalls : s.loggingCallsInValue id = t.loggingCallsInValue id)
    (habove : ∀ test, s.nearestAncestor? id test = t.nearestAncestor? id test) :
    s.attributeFault? id = t.attributeFault? id := by
  simp only [attributeFault?, hatNode, hchild, hcalls, habove]

end NodeFault

variable {root root' : NodeId} {next next' : Nat} {others others' : Multiset Node}
  {ctx ctx' : Context}

/-- A branch at places with the same nodes above them breaks the same contract in both trees. -/
theorem Holds.nodeFault?_eq (hs : s.Holds root next (nodesAll none (ctx.plug [b]) + others))
    (ht : t.Holds root' next' (nodesAll none (ctx'.plug [b]) + others'))
    (hitems : ctx.items = ctx'.items) (hsource : s.source b.id = t.source b.id) :
    s.nodeFault? b.id = t.nodeFault? b.id := by
  have hatNode : ∀ code message,
      CompilerFault.atNode code message s b.id = CompilerFault.atNode code message t b.id := by
    intro code message
    rw [CompilerFault.atNode, CompilerFault.atNode, hs.shows_plug.location_eq,
      ht.shows_plug.location_eq, hsource]
  have hchild : ∀ i, s.child? b.id i = t.child? b.id i := by
    intro i
    rw [hs.shows_plug.child?_eq, ht.shows_plug.child?_eq]
  rw [nodeFault?, nodeFault?, hs.shows_plug.kind_eq, ht.shows_plug.kind_eq]
  cases b.kind with
  | logBlock block =>
      refine logBlockFault?_eq hatNode hchild ?_ block
      intro child hfirst
      rw [ht.shows_plug.child?_eq, Option.map_eq_some_iff] at hfirst
      obtain ⟨c, hc, rfl⟩ := hfirst
      have hmem := List.mem_of_getElem? hc
      rw [(hs.shows_plug.children.of_mem hmem).kind_eq,
        (ht.shows_plug.children.of_mem hmem).kind_eq]
  | htmlAttribute =>
      refine attributeFault?_eq hatNode hchild ?_ ?_
      · rw [hs.shows_plug.loggingCallsInValue_eq hs.height_le_size_of_plug,
          ht.shows_plug.loggingCallsInValue_eq ht.height_le_size_of_plug]
      · intro test
        rw [hs.nearestAncestor?_eq, ht.nearestAncestor?_eq, hitems]
  -- With `rfl` alone, the checks that are not made would be compared.
  | _ => exact Eq.refl (Except.ok none)

theorem firstFault?_eq {ids : List NodeId} (h : ∀ id ∈ ids, s.nodeFault? id = t.nodeFault? id) :
    s.firstFault? ids = t.firstFault? ids := by
  induction ids with
  | nil => rfl
  | cons id ids ih =>
      rw [List.forall_mem_cons] at h
      rw [firstFault?, firstFault?, h.1, ih h.2]

end Tree

end TemplateLogging
