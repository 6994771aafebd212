import Mathlib.Data.List.Nodup
import TemplateLogging.Proofs.Linkage

/-!
The stack of `descendants` against the recursion. Where no node below is on a circle, a way down
meets no node of the table twice, so the size of the table is a bound on the levels. What is
pending on the stack is worked off subtree by subtree, and the loop ends with the pre-order. The
parent links have a part only in that no node is met twice.
-/

namespace TemplateLogging.Tree

variable {t s : Tree} {id start child x y : NodeId} {levels n : Nat}
  {pending out above : List NodeId}

/-- No node is below one of its own children. -/
def Acyclic (t : Tree) : Prop :=
  ∀ id, ¬ Relation.TransGen (fun x y => y ∈ t.children x) id id

/-- No node below the given one is below one of its own children. -/
def AcyclicBelow (t : Tree) (id : NodeId) : Prop :=
  ∀ x, t.Below id x → ¬ Relation.TransGen (fun x y => y ∈ t.children x) x x

theorem Acyclic.below (h : t.Acyclic) (id : NodeId) : t.AcyclicBelow id :=
  fun x _ => h x

theorem AcyclicBelow.of_below (h : t.AcyclicBelow start) (hid : t.Below start id) :
    t.AcyclicBelow id :=
  fun x hx => h x (hid.trans hx)

/-- A run of the loop over a stack of pending ids: it takes off as many ids as the number says, and
with the last one the stack is empty and the given ids are left. -/
inductive Drains (t : Tree) : Nat → List NodeId → List NodeId → Prop
  | done : Drains t 0 [] []
  | skip {n : Nat} {id : NodeId} {pending out : List NodeId} (hid : t.contains id = false)
      (h : Drains t n pending out) : Drains t (n + 1) (id :: pending) out
  | visit {n : Nat} {id : NodeId} {pending out : List NodeId} (hid : t.contains id = true)
      (h : Drains t n (t.children id ++ pending) out) : Drains t (n + 1) (id :: pending) (id :: out)

theorem get?_of_not_contains (hid : t.contains id = false) : t.get? id = none :=
  Option.not_isSome_iff_eq_none.mp (Bool.eq_false_iff.mp hid)

theorem Drains.drain_eq (h : t.Drains n pending out) {fuel : Nat} (hfuel : n ≤ fuel) :
    t.drain fuel pending = out := by
  induction h generalizing fuel with
  | done => cases fuel <;> rfl
  | skip hid _ ih =>
      obtain ⟨fuel, rfl⟩ := Nat.exists_eq_add_of_le' (Nat.zero_lt_of_lt hfuel)
      rw [drain, get?_of_not_contains hid]
      exact ih (Nat.le_of_succ_le_succ hfuel)
  | visit hid _ ih =>
      obtain ⟨fuel, rfl⟩ := Nat.exists_eq_add_of_le' (Nat.zero_lt_of_lt hfuel)
      obtain ⟨node, hget⟩ := Option.isSome_iff_exists.mp hid
      rw [children_of_get? hget] at ih
      simp only [drain, hget, ih (Nat.le_of_succ_le_succ hfuel)]

theorem preorder_succ (hid : t.contains id = true) (levels : Nat) :
    t.preorder (levels + 1) id = id :: (t.children id).flatMap (t.preorder levels) := by
  obtain ⟨node, hget⟩ := Option.isSome_iff_exists.mp hid
  rw [preorder, hget, children_of_get? hget]

/-- No way down from the node leads over more nodes of the table than there are levels. -/
def Within (t : Tree) : Nat → NodeId → Prop
  | 0, id => t.contains id = false
  | levels + 1, id => ∀ child ∈ t.children id, t.Within levels child

/-- Distinct nodes of the table that the node is below. -/
structure IsUnder (t : Tree) (id : NodeId) (above : List NodeId) : Prop where
  transGen : ∀ x ∈ above, Relation.TransGen (fun x y => y ∈ t.children x) x id
  subset : above ⊆ t.nodes.keys
  nodup : above.Nodup

namespace IsUnder

variable (h : t.IsUnder id above)

include h

theorem cons_subset (hcontains : t.contains id = true) : id :: above ⊆ t.nodes.keys := by
  obtain ⟨node, hget⟩ := Option.isSome_iff_exists.mp hcontains
  apply List.cons_subset.mpr
  exact ⟨List.mem_map.mpr ⟨(id, node), Table.mem_entries_iff.mpr hget, rfl⟩, h.subset⟩

variable (hid : ¬ Relation.TransGen (fun x y => y ∈ t.children x) id id)

include hid

theorem cons_nodup : (id :: above).Nodup :=
  List.nodup_cons.mpr ⟨fun hmem => hid (h.transGen id hmem), h.nodup⟩

theorem tail (hchild : child ∈ t.children id) : t.IsUnder child (id :: above) where
  transGen x hx := by
    rcases List.mem_cons.mp hx with rfl | hx
    · exact .single hchild
    · exact (h.transGen x hx).tail hchild
  subset := h.cons_subset (contains_of_mem_children hchild)
  nodup := h.cons_nodup hid

theorem length_lt_size (hcontains : t.contains id = true) : above.length < t.size := by
  have hle := (List.subperm_of_subset (h.cons_nodup hid) (h.cons_subset hcontains)).length_le
  rwa [Table.keys, List.length_map] at hle

end IsUnder

/-- The nodes above and the levels that are left are together as many as the nodes of the table. -/
theorem AcyclicBelow.within_of_isUnder (h : t.AcyclicBelow id) (habove : t.IsUnder id above)
    (hlevels : t.size ≤ levels + above.length) : t.Within levels id := by
  have hid := h id .refl
  induction levels generalizing id above with
  | zero =>
      -- The nodes above are all there are, and the node would be one more.
      rw [Within, Bool.eq_false_iff]
      intro hcontains
      have hlt := habove.length_lt_size hid hcontains
      omega
  | succ levels ih =>
      intro child hchild
      have hbelow := h.of_below (.single hchild)
      apply ih hbelow (habove.tail hid hchild)
      · rw [List.length_cons]
        omega
      · exact hbelow child .refl

theorem AcyclicBelow.within (h : t.AcyclicBelow id) (hlevels : t.size ≤ levels) :
    t.Within levels id :=
  h.within_of_isUnder ⟨by simp, List.nil_subset _, List.nodup_nil⟩ hlevels

theorem preorder_of_not_contains (hid : t.contains id = false) (levels : Nat) :
    t.preorder levels id = [] := by
  cases levels with
  | zero => rw [preorder]
  | succ levels => rw [preorder, get?_of_not_contains hid]

theorem Within.preorder_add (h : t.Within levels id) (more : Nat) :
    t.preorder (levels + more) id = t.preorder levels id := by
  induction levels generalizing id with
  | zero => rw [preorder_of_not_contains h, preorder_of_not_contains h]
  | succ levels ih =>
      rw [Nat.add_right_comm]
      cases hid : t.contains id with
      | false => rw [preorder_of_not_contains hid, preorder_of_not_contains hid]
      | true =>
          rw [preorder_succ hid, preorder_succ hid]
          congr 1
          exact List.flatMap_congr fun child hchild => ih (h child hchild)

theorem pops_of_not_contains (hid : t.contains id = false) (levels : Nat) :
    t.pops levels id = 1 := by
  cases levels with
  | zero => rw [pops]
  | succ levels => rw [pops, get?_of_not_contains hid]

theorem pops_succ (hid : t.contains id = true) (levels : Nat) :
    t.pops (levels + 1) id = ((t.children id).map (t.pops levels)).sum + 1 := by
  obtain ⟨node, hget⟩ := Option.isSome_iff_exists.mp hid
  rw [children_of_get? hget]
  simp only [pops, hget]
  induction node.children with
  | nil => rfl
  | cons child ids ih => rw [List.foldr_cons, ih, List.map_cons, List.sum_cons, Nat.add_assoc]

theorem drains_append {ids : List NodeId}
    (hids : ∀ id ∈ ids, ∀ n pending out, t.Drains n pending out →
      t.Drains (t.pops levels id + n) (id :: pending) (t.preorder levels id ++ out))
    (h : t.Drains n pending out) :
    t.Drains ((ids.map (t.pops levels)).sum + n) (ids ++ pending)
      (ids.flatMap (t.preorder levels) ++ out) := by
  induction ids with
  | nil => simpa using h
  | cons id ids ih =>
      rw [List.map_cons, List.sum_cons, List.flatMap_cons, Nat.add_assoc, List.append_assoc]
      apply hids id List.mem_cons_self
      exact ih fun x hx => hids x (List.mem_cons_of_mem _ hx)

/-- A subtree comes off the stack as a whole, before what was below it on the stack. -/
theorem Within.drains (hid : t.Within levels id) (h : t.Drains n pending out) :
    t.Drains (t.pops levels id + n) (id :: pending) (t.preorder levels id ++ out) := by
  induction levels generalizing id n pending out with
  | zero =>
      rw [pops, preorder, Nat.add_comm]
      exact .skip hid h
  | succ levels ih =>
      cases hcontains : t.contains id with
      | false =>
          rw [pops_of_not_contains hcontains, preorder_of_not_contains hcontains, Nat.add_comm]
          exact .skip hcontains h
      | true =>
          -- The children come on top of what was pending.
          rw [pops_succ hcontains, preorder_succ hcontains, Nat.add_right_comm]
          apply Drains.visit hcontains
          exact drains_append (fun child hchild _ _ _ => ih (hid child hchild)) h

section AcyclicBelow

variable (h : t.AcyclicBelow id)

include h

theorem AcyclicBelow.drains :
    t.Drains (t.pops t.size id) [id] (t.preorder t.size id) := by
  have hdrains := (h.within (Nat.le_refl _)).drains .done
  rwa [Nat.add_zero, List.append_nil] at hdrains

theorem AcyclicBelow.descendants_eq_preorder (hlevels : t.size ≤ levels) :
    t.descendants id = t.preorder levels id := by
  obtain ⟨more, rfl⟩ := Nat.exists_eq_add_of_le hlevels
  rw [descendants, h.drains.drain_eq (Nat.le_refl _), (h.within (Nat.le_refl _)).preorder_add]

theorem AcyclicBelow.descendants_eq (hid : t.contains id = true) :
    t.descendants id = id :: (t.children id).flatMap t.descendants := by
  rw [h.descendants_eq_preorder (Nat.le_succ _), preorder_succ hid]
  congr 1
  apply List.flatMap_congr
  intro child hchild
  have hbelow := h.of_below (.single hchild)
  exact (hbelow.descendants_eq_preorder (Nat.le_refl _)).symm

end AcyclicBelow

/-- What is below a node is in the second tree as well, under the ids that `f` gives. -/
structure Relocates (t s : Tree) (id : NodeId) (f : NodeId → NodeId) : Prop where
  contains_eq : ∀ x, t.Below id x → s.contains (f x) = t.contains x
  children_eq : ∀ x, t.Below id x → s.children (f x) = (t.children x).map f
  inj : ∀ x y, t.Below id x → t.Below id y → f x = f y → x = y

namespace Relocates

variable {f : NodeId → NodeId} (h : t.Relocates s id f)

include h

theorem of_below (hx : t.Below id x) : t.Relocates s x f where
  contains_eq y hy := h.contains_eq y (hx.trans hy)
  children_eq y hy := h.children_eq y (hx.trans hy)
  inj y z hy hz := h.inj y z (hx.trans hy) (hx.trans hz)

theorem exists_below (hy : s.Below (f id) y) : ∃ x, t.Below id x ∧ f x = y := by
  induction hy with
  | refl => exact ⟨id, .refl, rfl⟩
  | tail _ hlists ih =>
      obtain ⟨x, hx, rfl⟩ := ih
      rw [h.children_eq x hx, List.mem_map] at hlists
      obtain ⟨child, hchild, rfl⟩ := hlists
      exact ⟨child, hx.tail hchild, rfl⟩

theorem acyclicBelow (ht : t.AcyclicBelow id) : s.AcyclicBelow (f id) := by
  intro y hy hcircle
  obtain ⟨x, hx, rfl⟩ := h.exists_below hy
  obtain ⟨y, hlists, hback⟩ := Relation.TransGen.head'_iff.mp hcircle
  rw [h.children_eq x hx, List.mem_map] at hlists
  obtain ⟨child, hchild, rfl⟩ := hlists
  have hbelow := hx.tail hchild
  obtain ⟨z, hz, heq⟩ := (h.of_below hbelow).exists_below hback
  obtain rfl := h.inj z x (hbelow.trans hz) hx heq
  exact ht z hx (.head' hchild hz)

theorem preorder_eq (levels : Nat) : s.preorder levels (f id) = (t.preorder levels id).map f := by
  induction levels generalizing id with
  | zero => rfl
  | succ levels ih =>
      have hid' := h.contains_eq id .refl
      cases hid : t.contains id with
      | false =>
          rw [hid] at hid'
          rw [preorder_of_not_contains hid, preorder_of_not_contains hid', List.map_nil]
      | true =>
          rw [hid] at hid'
          rw [preorder_succ hid, preorder_succ hid', h.children_eq id .refl, List.flatMap_map,
            List.map_cons, List.map_flatMap]
          congr 1
          exact List.flatMap_congr fun child hchild => ih (h.of_below (.single hchild))

theorem descendants_eq (ht : t.AcyclicBelow id) :
    s.descendants (f id) = (t.descendants id).map f := by
  rw [ht.descendants_eq_preorder (Nat.le_max_left t.size s.size),
    (h.acyclicBelow ht).descendants_eq_preorder (Nat.le_max_right t.size s.size), h.preorder_eq]

end Relocates

theorem AcyclicBelow.descendants_congr (h : t.AcyclicBelow id)
    (hcontains : ∀ x, t.Below id x → s.contains x = t.contains x)
    (hchildren : ∀ x, t.Below id x → s.children x = t.children x) :
    s.descendants id = t.descendants id := by
  have hsame : t.Relocates s id fun x => x :=
    ⟨hcontains, by simpa using hchildren, fun _ _ _ _ heq => heq⟩
  simpa using hsame.descendants_eq h

theorem below_of_mem_preorder (hx : x ∈ t.preorder levels id) :
    t.Below id x ∧ t.contains x = true := by
  induction levels generalizing id with
  | zero => cases hx
  | succ levels ih =>
      cases hid : t.contains id with
      | false =>
          rw [preorder_of_not_contains hid] at hx
          cases hx
      | true =>
          rw [preorder_succ hid, List.mem_cons, List.mem_flatMap] at hx
          rcases hx with rfl | ⟨child, hchild, hx⟩
          · exact ⟨.refl, hid⟩
          · obtain ⟨hbelow, hcontains⟩ := ih hx
            exact ⟨.head hchild hbelow, hcontains⟩

theorem AcyclicBelow.mem_descendants_of_below (h : t.AcyclicBelow id) (hx : t.Below id x)
    (hcontains : t.contains x = true) : x ∈ t.descendants id := by
  induction hx using Relation.ReflTransGen.head_induction_on with
  | refl =>
      rw [h.descendants_eq hcontains]
      exact List.mem_cons_self
  | head hchild _ ih =>
      rw [h.descendants_eq (contains_of_mem_children hchild), List.mem_cons, List.mem_flatMap]
      exact Or.inr ⟨_, hchild, ih (h.of_below (.single hchild))⟩

namespace Mirrored

variable (h : t.Mirrored)

include h

theorem contains_of_below (hid : t.contains id = true) (hx : t.Below id x) :
    t.contains x = true := by
  rcases hx.cases_tail with rfl | ⟨parent, -, hlists⟩
  · exact hid
  · exact h.contains_child hlists

theorem mem_descendants_iff (hacyclic : t.AcyclicBelow id) (hid : t.contains id = true) :
    x ∈ t.descendants id ↔ t.Below id x := by
  constructor
  · intro hx
    rw [hacyclic.descendants_eq_preorder (Nat.le_refl _)] at hx
    exact (below_of_mem_preorder hx).1
  · intro hx
    exact hacyclic.mem_descendants_of_below hx (h.contains_of_below hid hx)

theorem below_or_below (hx : t.Below x id) (hy : t.Below y id) : t.Below x y ∨ t.Below y x := by
  induction hx with
  | refl => exact Or.inr hy
  | tail hx hchild ih =>
      rcases hy.cases_tail with rfl | ⟨parent, hy, hlists⟩
      · exact Or.inl (hx.tail hchild)
      · rw [h.eq_of_mem_children hchild hlists] at hy
        exact ih hy

/-- A child below another child of the same node would be on a circle with the node. -/
theorem eq_of_below (hid : ¬ Relation.TransGen (fun x y => y ∈ t.children x) id id)
    (hx : x ∈ t.children id) (hy : y ∈ t.children id) (hbelow : t.Below x y) : x = y := by
  rcases hbelow.cases_tail with heq | ⟨parent, hparent, hlists⟩
  · exact heq.symm
  · rw [h.eq_of_mem_children hy hlists] at hparent
    exact absurd (.head' hx hparent) hid

theorem nodup_preorder (hid : t.AcyclicBelow id)
    (hnodup : ∀ x, t.Below id x → (t.children x).Nodup) (levels : Nat) :
    (t.preorder levels id).Nodup := by
  have hcircle := hid id .refl
  induction levels generalizing id with
  | zero => exact List.nodup_nil
  | succ levels ih =>
      cases hcontains : t.contains id with
      | false =>
          rw [preorder_of_not_contains hcontains]
          exact List.nodup_nil
      | true =>
          rw [preorder_succ hcontains, List.nodup_cons, List.nodup_flatMap]
          refine ⟨?_, ?_, (hnodup id .refl).pairwise_of_forall_ne ?_⟩
          · intro hmem
            obtain ⟨child, hchild, hmem⟩ := List.mem_flatMap.mp hmem
            exact hcircle (.head' hchild (below_of_mem_preorder hmem).1)
          · intro child hchild
            have hbelow := hid.of_below (.single hchild)
            exact ih hbelow (fun x hx => hnodup x (.head hchild hx)) (hbelow child .refl)
          · -- A node below two children would put one of them below the other.
            intro x hx y hy hne z hzx hzy
            rcases h.below_or_below (below_of_mem_preorder hzx).1 (below_of_mem_preorder hzy).1 with
              hbelow | hbelow
            · exact hne (h.eq_of_below hcircle hx hy hbelow)
            · exact hne (h.eq_of_below hcircle hy hx hbelow).symm

end Mirrored

end TemplateLogging.Tree
