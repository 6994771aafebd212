import TemplateLogging.Instrument.Preflight
import TemplateLogging.Proofs.Branch

namespace TemplateLogging

namespace Tree

variable {t : Tree}

/-- The nodes of the branch stand in the table as the branch says. -/
def Shows (t : Tree) (parent : Option NodeId) (b : Branch) : Prop :=
  ∀ n ∈ b.nodes parent, t.get? n.id = some n

def ShowsAll (t : Tree) (parent : Option NodeId) (bs : List Branch) : Prop :=
  ∀ n ∈ Rose.nodesAll parent bs, t.get? n.id = some n

theorem shows_node_iff {parent : Option NodeId} {a : Item} {cs : List Branch} :
    t.Shows parent (.node a cs) ↔
      t.get? a.id = some (a.toNode parent (cs.map Rose.id)) ∧ t.ShowsAll (some a.id) cs := by
  simp only [Shows, ShowsAll, Rose.nodes, Multiset.mem_add, Multiset.mem_singleton]
  constructor
  · intro h
    exact ⟨h _ (Or.inl rfl), fun n hn => h n (Or.inr hn)⟩
  · rintro ⟨ha, hcs⟩ n (rfl | hn)
    · exact ha
    · exact hcs n hn

theorem showsAll_nil {parent : Option NodeId} : t.ShowsAll parent [] := by
  intro n hn
  simp at hn

theorem showsAll_cons_iff {parent : Option NodeId} {b : Branch} {bs : List Branch} :
    t.ShowsAll parent (b :: bs) ↔ t.Shows parent b ∧ t.ShowsAll parent bs := by
  simp only [Shows, ShowsAll, Rose.nodesAll, Multiset.mem_add, or_imp, forall_and]

theorem ShowsAll.of_mem {parent : Option NodeId} {b : Branch} {bs : List Branch}
    (h : t.ShowsAll parent bs) (hb : b ∈ bs) : t.Shows parent b := by
  induction bs with
  | nil => cases hb
  | cons c bs ih =>
      obtain ⟨hc, hbs⟩ := showsAll_cons_iff.mp h
      rcases List.mem_cons.mp hb with rfl | hb
      · exact hc
      · exact ih hbs hb

theorem Shows.get? {parent : Option NodeId} {b : Branch} (h : t.Shows parent b) :
    t.get? b.id = some (b.label.toNode parent (b.children.map Rose.id)) := by
  cases b with
  | node a cs => exact (shows_node_iff.mp h).1

theorem Shows.children {parent : Option NodeId} {b : Branch} (h : t.Shows parent b) :
    t.ShowsAll (some b.id) b.children := by
  cases b with
  | node a cs => exact (shows_node_iff.mp h).2

theorem Shows.children_eq {parent : Option NodeId} {b : Branch} (h : t.Shows parent b) :
    t.children b.id = b.children.map Rose.id := by
  rw [Tree.children, h.get?]
  rfl

theorem Shows.parent?_eq {parent : Option NodeId} {b : Branch} (h : t.Shows parent b) :
    t.parent? b.id = parent := by
  rw [Tree.parent?, h.get?]
  rfl

theorem Shows.child?_eq {parent : Option NodeId} {b : Branch} (h : t.Shows parent b) (i : Nat) :
    t.child? b.id i = (b.children[i]?).map Rose.id := by
  rw [Tree.child?, h.children_eq, List.getElem?_map]

theorem Shows.contains {parent : Option NodeId} {b : Branch} (h : t.Shows parent b) :
    t.contains b.id = true := by
  rw [Tree.contains, h.get?]
  rfl

theorem Shows.kind_eq {parent : Option NodeId} {b : Branch} (h : t.Shows parent b) :
    t.kind b.id = .ok b.kind := by
  rw [Tree.kind, Tree.node, h.get?]
  rfl

theorem Shows.location_eq {parent : Option NodeId} {b : Branch} (h : t.Shows parent b) :
    t.location b.id = .ok b.label.location := by
  rw [Tree.location, Tree.node, h.get?]
  rfl

mutual

theorem preorder_eq_ids {parent : Option NodeId} : ∀ {b : Branch} {levels : Nat},
    t.Shows parent b → b.height ≤ levels → t.preorder levels b.id = b.ids
  | .node a cs, 0, _, hlevels => absurd hlevels (Nat.not_succ_le_zero _)
  | .node a cs, levels + 1, h, hlevels => by
      obtain ⟨ha, hcs⟩ := shows_node_iff.mp h
      rw [Rose.height] at hlevels
      rw [Tree.preorder, Rose.id_node, ha, Rose.ids_node]
      exact congrArg _ (preorder_eq_idsAll hcs (by omega))

theorem preorder_eq_idsAll {parent : Option NodeId} : ∀ {bs : List Branch} {levels : Nat},
    t.ShowsAll parent bs → Rose.heightAll bs ≤ levels →
      (bs.map Rose.id).flatMap (t.preorder levels) = Rose.idsAll bs
  | [], _, _, _ => rfl
  | b :: bs, levels, h, hlevels => by
      obtain ⟨hb, hbs⟩ := showsAll_cons_iff.mp h
      rw [Rose.heightAll] at hlevels
      rw [List.map_cons, List.flatMap_cons, Rose.idsAll_cons, preorder_eq_ids hb (by omega),
        preorder_eq_idsAll hbs (by omega)]

end

mutual

theorem pops_eq_length {parent : Option NodeId} : ∀ {b : Branch} {levels : Nat},
    t.Shows parent b → b.height ≤ levels → t.pops levels b.id = b.ids.length
  | .node a cs, 0, _, hlevels => absurd hlevels (Nat.not_succ_le_zero _)
  | .node a cs, levels + 1, h, hlevels => by
      obtain ⟨ha, hcs⟩ := shows_node_iff.mp h
      rw [Rose.height] at hlevels
      rw [Tree.pops, Rose.id_node, ha, Rose.ids_node, List.length_cons]
      exact popsAll_eq_length hcs (by omega)

theorem popsAll_eq_length {parent : Option NodeId} : ∀ {bs : List Branch} {levels : Nat},
    t.ShowsAll parent bs → Rose.heightAll bs ≤ levels →
      (bs.map Rose.id).foldr (fun child n => t.pops levels child + n) 1 =
        (Rose.idsAll bs).length + 1
  | [], _, _, _ => rfl
  | b :: bs, levels, h, hlevels => by
      obtain ⟨hb, hbs⟩ := showsAll_cons_iff.mp h
      rw [Rose.heightAll] at hlevels
      rw [List.map_cons, List.foldr_cons, pops_eq_length hb (by omega),
        popsAll_eq_length hbs (by omega), Rose.idsAll_cons, List.length_append, Nat.add_assoc]

end

mutual

/-- A branch comes off the stack as a whole, before what was below it on the stack. -/
theorem drain_branch {parent : Option NodeId} : ∀ {b : Branch} (fuel : Nat) (pending : List NodeId),
    t.Shows parent b →
      t.drain (b.ids.length + fuel) (b.id :: pending) = b.ids ++ t.drain fuel pending
  | .node a cs, fuel, pending, h => by
      obtain ⟨ha, hcs⟩ := shows_node_iff.mp h
      rw [Rose.ids_node, List.length_cons, Nat.add_right_comm, Tree.drain, Rose.id_node, ha,
        List.cons_append]
      exact congrArg _ (drain_branches fuel pending hcs)

theorem drain_branches {parent : Option NodeId} : ∀ {bs : List Branch} (fuel : Nat)
    (pending : List NodeId), t.ShowsAll parent bs →
      t.drain ((Rose.idsAll bs).length + fuel) (bs.map Rose.id ++ pending) =
        Rose.idsAll bs ++ t.drain fuel pending
  | [], fuel, pending, _ => by
      simp
  | b :: bs, fuel, pending, h => by
      obtain ⟨hb, hbs⟩ := showsAll_cons_iff.mp h
      rw [List.map_cons, List.cons_append, Rose.idsAll_cons, List.length_append, Nat.add_assoc,
        drain_branch _ _ hb, drain_branches fuel pending hbs, List.append_assoc]

end

theorem Shows.descendants_eq {parent : Option NodeId} {b : Branch} (h : t.Shows parent b)
    (hsize : b.height ≤ t.size) : t.descendants b.id = b.ids := by
  have hdrain := drain_branch 0 [] h
  rw [Nat.add_zero] at hdrain
  rw [Tree.descendants, pops_eq_length h hsize, hdrain, Tree.drain, List.append_nil]

end Tree

namespace Rose

mutual

/-- The calls of logging functions in a branch, in document order. -/
def loggingCalls : Branch → List LoggingCall
  | node a cs => a.kind.exprs.flatMap Expr.loggingCalls ++ loggingCallsAll cs

def loggingCallsAll : List Branch → List LoggingCall
  | [] => []
  | b :: bs => b.loggingCalls ++ loggingCallsAll bs

end

/-- The calls of logging functions in what is the value of an attribute with these children. -/
def valueCalls : List Branch → List LoggingCall
  | _ :: value :: _ => value.loggingCalls
  | _ => []

end Rose

namespace Tree

variable {t : Tree} {parent : Option NodeId}

mutual

theorem flatMap_nodeLoggingCalls : ∀ {parent : Option NodeId} {b : Branch}, t.Shows parent b →
    b.ids.flatMap t.nodeLoggingCalls = b.loggingCalls
  | parent, .node a cs, h => by
      obtain ⟨ha, hcs⟩ := shows_node_iff.mp h
      rw [Rose.ids_node, List.flatMap_cons, flatMap_nodeLoggingCalls_idsAll hcs, nodeLoggingCalls,
        ha, Rose.loggingCalls]
      rfl

theorem flatMap_nodeLoggingCalls_idsAll : ∀ {parent : Option NodeId} {bs : List Branch},
    t.ShowsAll parent bs → (Rose.idsAll bs).flatMap t.nodeLoggingCalls = Rose.loggingCallsAll bs
  | parent, [], _ => rfl
  | parent, b :: bs, h => by
      obtain ⟨hb, hbs⟩ := showsAll_cons_iff.mp h
      rw [Rose.idsAll_cons, List.flatMap_append, flatMap_nodeLoggingCalls hb,
        flatMap_nodeLoggingCalls_idsAll hbs, Rose.loggingCallsAll]

end

theorem Shows.attributeValue?_eq {b : Branch} (h : t.Shows parent b) :
    t.attributeValue? b.id = (b.children[1]?).map Rose.id :=
  h.child?_eq 1

theorem Shows.loggingCallsInValue_eq {b : Branch} (h : t.Shows parent b)
    (hsize : b.height ≤ t.size) : t.loggingCallsInValue b.id = Rose.valueCalls b.children := by
  rw [loggingCallsInValue, h.attributeValue?_eq]
  obtain ⟨a, cs⟩ := b
  match cs, hsize, h.children with
  | [], _, _ => rfl
  | [_], _, _ => rfl
  | name :: value :: rest, hsize, hcs =>
      obtain ⟨-, hcs⟩ := showsAll_cons_iff.mp hcs
      obtain ⟨hvalue, -⟩ := showsAll_cons_iff.mp hcs
      rw [Rose.height, Rose.heightAll, Rose.heightAll] at hsize
      show (t.descendants value.id).flatMap t.nodeLoggingCalls = value.loggingCalls
      rw [hvalue.descendants_eq (by omega), flatMap_nodeLoggingCalls hvalue]

end Tree

namespace Tree.Holds

variable {t : Tree} {root : NodeId} {next : Nat} {others : Multiset Node} {parent : Option NodeId}
  {ctx outer : Context} {a : Item} {b : Branch} {bs before after : List Branch}

theorem shows (h : t.Holds root next (b.nodes parent + others)) : t.Shows parent b :=
  fun _ hn => h.get? (Multiset.mem_add.mpr (Or.inl hn))

theorem shows_plug (h : t.Holds root next (Rose.nodesAll none (ctx.plug [b]) + others)) :
    t.Shows ctx.parent? b := by
  intro n hn
  apply h.get?
  rw [Context.nodesAll_plug_singleton, Multiset.mem_add, Multiset.mem_add]
  exact Or.inl (Or.inl hn)

theorem shows_within
    (h : t.Holds root next
      (Rose.nodesAll none ((Context.within outer a before after).plug bs) + others)) :
    t.Shows outer.parent? (.node a (before ++ bs ++ after)) :=
  shows_plug h

theorem children_root (h : t.Holds root next ((Rose.node a bs).nodes none + others))
    (hroot : a.id = root) : t.children t.root = bs.map Rose.id := by
  rw [h.root_eq, ← hroot]
  exact h.shows.children_eq

theorem within_top (h : t.Holds root next ((Rose.node a bs).nodes none + others)) :
    t.Holds root next (Rose.nodesAll none ((Context.within .top a [] []).plug bs) + others) := by
  refine h.congr ?_
  rw [Context.plug, Context.plug, List.nil_append, List.append_nil, Rose.nodesAll_singleton]

theorem height_le_size (h : t.Holds root next (b.nodes parent + others)) : b.height ≤ t.size := by
  have hcard : (b.nodes parent).card = b.labels.length := by
    rw [← Multiset.card_map (·.id), Rose.map_id_nodes, Multiset.coe_card, Rose.ids, List.length_map]
  have hle := h.card_le_size
  rw [Multiset.card_add, hcard] at hle
  have hheight := b.height_le_length
  omega

theorem height_le_size_of_plug
    (h : t.Holds root next (Rose.nodesAll none (ctx.plug [b]) + others)) : b.height ≤ t.size := by
  rw [Context.nodesAll_plug_singleton, add_assoc] at h
  exact h.height_le_size

theorem nodup_idsAll (h : t.Holds root next (Rose.nodesAll parent bs + others)) :
    (Rose.idsAll bs).Nodup := by
  have hnodup := h.nodup
  rw [Multiset.map_add, Multiset.nodup_add, Rose.map_id_nodesAll] at hnodup
  exact hnodup.1

theorem nodup_ids (h : t.Holds root next (b.nodes parent + others)) : b.ids.Nodup := by
  rw [← Rose.nodesAll_singleton] at h
  have hnodup := h.nodup_idsAll
  rwa [Rose.idsAll_cons, Rose.idsAll_nil, List.append_nil] at hnodup

theorem id_ne_of_mem {nodes : Multiset Node} (h : t.Holds root next (nodes + others)) {m n : Node}
    (hm : m ∈ nodes) (hn : n ∈ others) : m.id ≠ n.id := by
  intro heq
  have hnodup := h.nodup
  rw [Multiset.map_add, Multiset.nodup_add] at hnodup
  exact Multiset.disjoint_left.mp hnodup.2.2 (Multiset.mem_map_of_mem (·.id) hm)
    (heq ▸ Multiset.mem_map_of_mem (·.id) hn)

end Tree.Holds

namespace Context

variable {t : Tree} {root : NodeId} {next : Nat} {others : Multiset Node}

theorem exists_node_of_mem_items : ∀ {ctx : Context} {a : Item} (hole : NodeId), a ∈ ctx.items →
    ∃ n ∈ ctx.nodes hole, n.id = a.id
  | within outer c before after, a, hole, h => by
      rw [nodes]
      rcases List.mem_cons.mp h with rfl | h
      · exact ⟨_, Multiset.mem_add.mpr (Or.inl (Multiset.mem_add.mpr (Or.inl
          (Multiset.mem_singleton_self _)))), rfl⟩
      · obtain ⟨n, hn, hid⟩ := exists_node_of_mem_items c.id h
        exact ⟨n, Multiset.mem_add.mpr (Or.inr hn), hid⟩

theorem length_items_le_card (ctx : Context) (hole : NodeId) :
    ctx.items.length ≤ (ctx.nodes hole).card := by
  induction ctx generalizing hole with
  | top => exact Nat.zero_le _
  | within outer a before after ih =>
      rw [items, List.length_cons, nodes, Multiset.card_add, Multiset.card_add,
        Multiset.card_singleton]
      have hle := ih a.id
      omega

theorem climb_parent? {b : Branch} (ctx : Context) (test : NodeKind → Bool) {fuel : Nat}
    (h : t.Holds root next (Rose.nodesAll none (ctx.plug [b]) + others))
    (hfuel : ctx.items.length < fuel) :
    t.climb test fuel ctx.parent? = .ok ((ctx.items.find? (test ·.kind)).map (·.id)) := by
  induction ctx generalizing b fuel with
  | top =>
      cases fuel with
      | zero => exact absurd hfuel (Nat.not_lt_zero _)
      | succ fuel => rfl
  | within outer a before after ih =>
      cases fuel with
      | zero => exact absurd hfuel (Nat.not_lt_zero _)
      | succ fuel =>
          have hget := h.shows_within.get?
          rw [Rose.id_node] at hget
          rw [parent?, Tree.climb, Tree.node, hget]
          show (if test a.kind then _ else t.climb test fuel outer.parent?) = _
          rw [items, List.find?_cons]
          cases test a.kind with
          | true => rfl
          | false => exact ih h (Nat.lt_of_succ_lt_succ hfuel)

theorem reaches_eq_false {b : Branch} {candidate : NodeId} (ctx : Context) (fuel : Nat)
    (h : t.Holds root next (Rose.nodesAll none (ctx.plug [b]) + others)) (hb : b.id ≠ candidate)
    (hctx : ∀ a ∈ ctx.items, a.id ≠ candidate) : t.reaches candidate fuel b.id = false := by
  induction fuel generalizing b ctx with
  | zero => exact decide_eq_false hb
  | succ fuel ih =>
      rw [Tree.reaches, if_neg hb, h.shows_plug.parent?_eq]
      cases ctx with
      | top => rfl
      | within outer a before after =>
          have ha : a.id ≠ candidate := hctx a List.mem_cons_self
          exact ih outer h ha fun c hc => hctx c (List.mem_cons_of_mem _ hc)

end Context

namespace Tree.Holds

variable {t : Tree} {root : NodeId} {next : Nat} {others : Multiset Node} {ctx : Context}
  {b : Branch}

theorem nearestAncestor?_eq (h : t.Holds root next (Rose.nodesAll none (ctx.plug [b]) + others))
    (test : NodeKind → Bool) :
    t.nearestAncestor? b.id test = .ok ((ctx.items.find? (test ·.kind)).map (·.id)) := by
  rw [nearestAncestor?, h.shows_plug.parent?_eq]
  apply Context.climb_parent? ctx test h
  have hcard := h.card_le_size
  rw [Context.nodesAll_plug_singleton, Multiset.card_add, Multiset.card_add] at hcard
  have hitems := ctx.length_items_le_card b.id
  omega

end Tree.Holds

end TemplateLogging
