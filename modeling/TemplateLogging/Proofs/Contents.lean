import Mathlib.Algebra.Order.Group.Multiset
import Mathlib.Data.Multiset.Filter
import Mathlib.Tactic.Abel
import TemplateLogging.Proofs.Supply
import TemplateLogging.Tree.Edit

/-!
A tree by what is in its table. `Holds` names the root, the next id and the nodes, all of them, as a
multiset. Each change of the table is then a change of one summand, and the other summands are what
it leaves alone.
-/

namespace TemplateLogging

/-- The whole content of a tree: its root, the next id, and the nodes in its table. -/
structure Tree.Holds (t : Tree) (root : NodeId) (next : Nat) (nodes : Multiset Node) : Prop where
  root_eq : t.root = root
  next_eq : t.ids.next = next
  nodup : (nodes.map (·.id)).Nodup
  get?_eq_some_iff : ∀ id node, t.get? id = some node ↔ node ∈ nodes ∧ node.id = id
  below : ∀ node ∈ nodes, node.id.index < next

namespace Tree.Holds

variable {t s : Tree} {root : NodeId} {next : Nat} {nodes others : Multiset Node} {node : Node}

theorem congr (h : t.Holds root next nodes) (heq : nodes = others) : t.Holds root next others :=
  heq ▸ h

theorem get? (h : t.Holds root next nodes) (hnode : node ∈ nodes) : t.get? node.id = some node :=
  (h.get?_eq_some_iff _ _).mpr ⟨hnode, rfl⟩

theorem mem (h : t.Holds root next nodes) {id : NodeId} (hget : t.get? id = some node) :
    node ∈ nodes :=
  ((h.get?_eq_some_iff _ _).mp hget).1

theorem id_eq (h : t.Holds root next nodes) {id : NodeId} (hget : t.get? id = some node) :
    node.id = id :=
  ((h.get?_eq_some_iff _ _).mp hget).2

theorem get?_eq_none_iff (h : t.Holds root next nodes) (id : NodeId) :
    t.get? id = none ↔ id ∉ nodes.map (·.id) := by
  rw [Option.eq_none_iff_forall_not_mem]
  simp only [Option.mem_def, h.get?_eq_some_iff, Multiset.mem_map, not_exists]

theorem contains_iff (h : t.Holds root next nodes) (id : NodeId) :
    t.contains id = true ↔ id ∈ nodes.map (·.id) := by
  rw [contains, Option.isSome_iff_ne_none, ne_eq, h.get?_eq_none_iff, not_not]

theorem unique (ht : t.Holds root next nodes) (hs : s.Holds root next nodes) : t = s := by
  apply Tree.ext (ht.root_eq.trans hs.root_eq.symm)
  · obtain ⟨_, _, ⟨_⟩⟩ := t
    obtain ⟨_, _, ⟨_⟩⟩ := s
    exact congrArg IdSource.mk (ht.next_eq.trans hs.next_eq.symm)
  · intro id
    ext node
    rw [ht.get?_eq_some_iff, hs.get?_eq_some_iff]

theorem not_mem_of_nodup (h : t.Holds root next ({node} + others)) :
    ∀ other ∈ others, other.id ≠ node.id := by
  intro other hother heq
  have hnodup := h.nodup
  rw [Multiset.map_add, Multiset.map_singleton, Multiset.singleton_add, Multiset.nodup_cons]
    at hnodup
  exact hnodup.1 (Multiset.mem_map.mpr ⟨other, hother, heq⟩)

theorem modify (h : t.Holds root next ({node} + others)) {f : Node → Node}
    (hf : (f node).id = node.id) :
    (t.modify node.id f).Holds root next ({f node} + others) where
  root_eq := h.root_eq
  next_eq := h.next_eq
  nodup := by
    have hnodup := h.nodup
    rw [Multiset.map_add, Multiset.map_singleton] at hnodup ⊢
    rwa [hf]
  get?_eq_some_iff id other := by
    rw [get?_modify, Multiset.mem_add, Multiset.mem_singleton]
    have hget : t.get? node.id = some node := h.get? (by simp)
    split
    · rename_i heq
      subst heq
      rw [hget, Option.map_some, Option.some.injEq]
      constructor
      · rintro rfl
        exact ⟨Or.inl rfl, hf⟩
      · rintro ⟨rfl | hother, hid⟩
        · rfl
        · exact absurd hid (h.not_mem_of_nodup other hother)
    · rename_i hne
      rw [h.get?_eq_some_iff, Multiset.mem_add, Multiset.mem_singleton]
      constructor
      · rintro ⟨rfl | hother, hid⟩
        · exact absurd hid hne
        · exact ⟨Or.inr hother, hid⟩
      · rintro ⟨rfl | hother, hid⟩
        · exact absurd (hf.symm.trans hid) hne
        · exact ⟨Or.inr hother, hid⟩
  below other hother := by
    rw [Multiset.mem_add, Multiset.mem_singleton] at hother
    rcases hother with rfl | hother
    · rw [hf]
      exact h.below node (by simp)
    · exact h.below other (by simp [hother])

theorem eraseNode (h : t.Holds root next ({node} + others)) :
    (t.eraseNode node.id).Holds root next others where
  root_eq := h.root_eq
  next_eq := h.next_eq
  nodup := by
    have hnodup := h.nodup
    rw [Multiset.map_add, Multiset.nodup_add] at hnodup
    exact hnodup.2.1
  get?_eq_some_iff id other := by
    rw [get?_eraseNode]
    split
    · rename_i heq
      subst heq
      constructor
      · intro hnone
        simp at hnone
      · rintro ⟨hother, hid⟩
        exact absurd hid (h.not_mem_of_nodup other hother)
    · rename_i hne
      rw [h.get?_eq_some_iff, Multiset.mem_add, Multiset.mem_singleton]
      constructor
      · rintro ⟨rfl | hother, hid⟩
        · exact absurd hid hne
        · exact ⟨hother, hid⟩
      · rintro ⟨hother, hid⟩
        exact ⟨Or.inr hother, hid⟩
  below other hother := h.below other (by simp [hother])

theorem foldl_eraseNode {dropped : Multiset Node} {ids : List NodeId}
    (h : t.Holds root next (dropped + others)) (hids : dropped.map (·.id) = ↑ids) :
    (ids.foldl Tree.eraseNode t).Holds root next others := by
  induction ids generalizing t dropped with
  | nil =>
      have hempty : dropped = 0 := Multiset.map_eq_zero.mp hids
      subst hempty
      exact h.congr (zero_add _)
  | cons id ids ih =>
      have hmem : id ∈ dropped.map (·.id) := by
        rw [hids]
        exact List.mem_cons_self
      obtain ⟨node, hnode, rfl⟩ := Multiset.mem_map.mp hmem
      obtain ⟨rest, rfl⟩ := Multiset.exists_cons_of_mem hnode
      rw [Multiset.map_cons, ← Multiset.cons_coe, Multiset.cons_inj_right] at hids
      rw [List.foldl_cons]
      have hrest : t.Holds root next ({node} + (rest + others)) := by
        refine h.congr ?_
        rw [← Multiset.singleton_add, add_assoc]
      exact ih hrest.eraseNode hids

theorem insertNode (h : t.Holds root next nodes) (hlt : node.id.index < next)
    (hnew : ∀ other ∈ nodes, other.id ≠ node.id) :
    (t.insertNode node).Holds root next ({node} + nodes) where
  root_eq := h.root_eq
  next_eq := h.next_eq
  nodup := by
    rw [Multiset.map_add, Multiset.map_singleton, Multiset.singleton_add, Multiset.nodup_cons]
    refine ⟨?_, h.nodup⟩
    rw [Multiset.mem_map]
    rintro ⟨other, hother, heq⟩
    exact hnew other hother heq
  get?_eq_some_iff id other := by
    rw [get?_insertNode, Multiset.mem_add, Multiset.mem_singleton]
    split
    · rename_i heq
      subst heq
      rw [Option.some.injEq]
      constructor
      · rintro rfl
        exact ⟨Or.inl rfl, rfl⟩
      · rintro ⟨rfl | hother, hid⟩
        · rfl
        · exact absurd hid (hnew other hother)
    · rename_i hne
      rw [h.get?_eq_some_iff]
      constructor
      · rintro ⟨hother, hid⟩
        exact ⟨Or.inr hother, hid⟩
      · rintro ⟨rfl | hother, hid⟩
        · exact absurd hid hne
        · exact ⟨hother, hid⟩
  below other hother := by
    rw [Multiset.mem_add, Multiset.mem_singleton] at hother
    rcases hother with rfl | hother
    · exact hlt
    · exact h.below other hother

theorem skip (h : t.Holds root next nodes) :
    ({ t with ids := ⟨next + 1⟩ } : Tree).Holds root (next + 1) nodes where
  root_eq := h.root_eq
  next_eq := rfl
  nodup := h.nodup
  get?_eq_some_iff := h.get?_eq_some_iff
  below node hnode := Nat.lt_succ_of_lt (h.below node hnode)

theorem ne_next (h : t.Holds root next nodes) : ∀ node ∈ nodes, node.id ≠ ⟨next⟩ := by
  intro node hnode heq
  have hlt := h.below node hnode
  rw [heq] at hlt
  exact Nat.lt_irrefl _ hlt

theorem create (h : t.Holds root next nodes) (kind : NodeKind) (location : Location) :
    Takes next (next + 1) (t.create kind location) fun r =>
      r.1 = ⟨next⟩ ∧ r.2.Holds root (next + 1) ({⟨⟨next⟩, location, none, [], kind⟩} + nodes) := by
  have hids : t.ids = ⟨next⟩ := by
    rw [← h.next_eq]
  rw [Tree.create, hids]
  refine Takes.bind (Takes.take next) ?_
  rintro _ rfl
  exact Takes.pure ⟨rfl, h.skip.insertNode (Nat.lt_succ_self next) h.ne_next⟩

theorem card_le_size (h : t.Holds root next nodes) : nodes.card ≤ t.size := by
  have hsub : nodes.map (·.id) ⊆ ↑t.nodes.keys := by
    intro id hid
    obtain ⟨node, hnode, rfl⟩ := Multiset.mem_map.mp hid
    have hentry : (node.id, node) ∈ t.nodes.entries := Table.mem_entries_iff.mpr (h.get? hnode)
    exact List.mem_map.mpr ⟨_, hentry, rfl⟩
  have hle := Multiset.card_le_card ((Multiset.le_iff_subset h.nodup).mpr hsub)
  rwa [Multiset.card_map, Multiset.coe_card, Table.keys, List.length_map] at hle

end Tree.Holds

end TemplateLogging
