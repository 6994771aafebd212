import TemplateLogging.Proofs.Bridge
import TemplateLogging.Proofs.Construction
import TemplateLogging.Proofs.Locality

namespace TemplateLogging.Tree

variable {t s r : Tree} {id : NodeId} {path : List NodeId}

theorem Climbs.getLast?_eq {top : NodeId} (h : t.Climbs id path) (htop : t.parent? top = none)
    (hmem : top ∈ id :: path) : (id :: path).getLast? = some top := by
  induction path generalizing id with
  | nil =>
      rw [List.mem_singleton] at hmem
      rw [hmem]
      rfl
  | cons parent path ih =>
      rcases List.mem_cons.mp hmem with rfl | hmem
      · rw [h.1] at htop
        cases htop
      · rw [List.getLast?_cons_cons]
        exact ih h.2 hmem

theorem Mirrored.climb_eq (h : t.Mirrored) (hpath : t.Climbs id path) (hid : t.contains id = true)
    (test : NodeKind → Bool) {fuel : Nat} (hfuel : path.length < fuel) :
    t.climb test fuel (t.parent? id) =
      .ok (path.find? fun above => (t.get? above).any (test ·.kind)) := by
  induction path generalizing id fuel with
  | nil =>
      rw [show t.parent? id = none from hpath]
      cases fuel with
      | zero => exact absurd hfuel (Nat.not_lt_zero _)
      | succ fuel => rfl
  | cons parent path ih =>
      have hparent := h.contains_of_climbs hpath hid parent (by simp)
      obtain ⟨node, hget⟩ := Option.isSome_iff_exists.mp hparent
      cases fuel with
      | zero => exact absurd hfuel (Nat.not_lt_zero _)
      | succ fuel =>
          have hrest := ih hpath.2 hparent (Nat.lt_of_succ_lt_succ hfuel)
          rw [parent?_of_get? hget] at hrest
          rw [hpath.1, climb, Tree.node, hget, List.find?_cons, hget, Option.any_some]
          show (if test node.kind then _ else t.climb test fuel node.parent) = _
          cases test node.kind with
          | true => rfl
          | false => exact hrest

theorem Climbs.reaches_eq (h : t.Climbs id path) (candidate : NodeId) {fuel : Nat}
    (hfuel : path.length ≤ fuel) :
    t.reaches candidate fuel id = decide (candidate ∈ id :: path) := by
  by_cases hmem : candidate ∈ id :: path
  · rw [decide_eq_true hmem]
    induction path generalizing id fuel with
    | nil =>
        obtain rfl := List.mem_singleton.mp hmem
        cases fuel with
        | zero => exact decide_eq_true rfl
        | succ fuel => rw [reaches, if_pos rfl]
    | cons parent path ih =>
        cases fuel with
        | zero => exact absurd hfuel (Nat.not_succ_le_zero _)
        | succ fuel =>
            rw [reaches]
            split_ifs with heq
            · rfl
            · rw [h.1]
              exact ih h.2 (Nat.le_of_succ_le_succ hfuel)
                ((List.mem_cons.mp hmem).resolve_left (Ne.symm heq))
  · rw [decide_eq_false hmem]
    exact h.reaches_eq_false hmem fuel

/-- The node hangs in the tree: the given way up ends at the root, and what follows the links from
the node ends as well. -/
structure Hangs (t : Tree) (id : NodeId) (path : List NodeId) : Prop where
  climbs : t.Climbs id path
  getLast?_eq : (id :: path).getLast? = some t.root
  length_lt : path.length < t.size
  not_circular : ¬ Relation.TransGen (fun x y => y ∈ t.children x) id id
  /-- Nothing is left on the stack when all nodes below have come off. -/
  drain_eq : ∀ fuel, (t.descendants id).length ≤ fuel → t.drain fuel [id] = t.descendants id
  mem_descendants_iff : ∀ x, x ∈ t.descendants id ↔ t.Below id x
  nearestAncestor?_eq : ∀ test, t.nearestAncestor? id test =
    .ok (path.find? fun above => (t.get? above).any (test ·.kind))
  isAncestorOrSelf_eq : ∀ candidate,
    t.isAncestorOrSelf candidate id = decide (candidate ∈ id :: path)
  /-- No level is cut off. -/
  source_eq : ∀ levels, t.size ≤ levels → t.sourceLevels levels id = t.source id

theorem Linked.exists_hangs (h : t.Linked) (hid : t.Reaches id) : ∃ path, t.Hangs id path := by
  obtain ⟨path, hpath⟩ := h.ends_of_below (.of_none h.parent?_root) hid
  have hacyclic := h.acyclicBelow hid
  have hroot : t.root ∈ id :: path := (h.below_iff hpath t.root).mp hid
  have hcontains := h.contains_of_below h.contains_root hid
  have hlength := h.length_lt_size hpath hcontains
  refine ⟨path, hpath, hpath.getLast?_eq h.parent?_root hroot, hlength,
    h.not_transGen_self hpath, ?_, ?_, ?_, ?_, ?_⟩
  · intro fuel hfuel
    obtain ⟨b, rfl, hb, hheight⟩ := h.exists_shows t.size hpath hcontains (Nat.le_add_right _ _)
    rw [hb.descendants_eq hheight] at hfuel ⊢
    obtain ⟨rest, rfl⟩ := Nat.exists_eq_add_of_le hfuel
    rw [drain_branch rest [] hb]
    cases rest <;> exact List.append_nil _
  · exact fun x => h.toMirrored.mem_descendants_iff hacyclic hcontains
  · intro test
    exact h.climb_eq hpath hcontains test (by omega)
  · intro candidate
    exact hpath.reaches_eq candidate (by omega)
  · intro levels hlevels
    exact hacyclic.source_eq hlevels

/-- Copying keeps what was there, and the copy has a new id. -/
def KeepsOld (levels : Nat) : Prop :=
  ∀ (t s : Tree) (id : NodeId) (copy? : Option NodeId), Retains t t →
    copyLevels levels t id = .ok (copy?, s) →
      Retains t s ∧ ∀ copy, copy? = some copy → t.ids.next ≤ copy.index

theorem KeepsOld.copyChildren {levels : Nat} (h : KeepsOld levels) {copy : NodeId}
    {ids : List NodeId} {copies copies' : List NodeId} (hs : Retains t s)
    (hr : ids.foldlM (copyChild levels copy) (copies, s) = .ok (copies', r)) : Retains t r := by
  induction ids generalizing copies s with
  | nil =>
      cases hr
      exact hs
  | cons id ids ih =>
      rw [List.foldlM_cons] at hr
      obtain ⟨⟨copies₁, s₁⟩, hchild, hr⟩ := Except.exists_of_bind_eq_ok hr
      refine ih ?_ hr
      obtain ⟨⟨childCopy?, u⟩, hcopy, hchild⟩ := Except.exists_of_bind_eq_ok hchild
      obtain ⟨hu, hnew⟩ := h s u id childCopy? (.refl hs.fresh) hcopy
      cases childCopy? with
      | none =>
          cases hchild
          exact hs.trans hu
      | some childCopy =>
          cases hchild
          refine (hs.trans hu).modify ?_
          -- What was there before the copies has ids below theirs.
          have hbefore := hs.next.trans (hnew childCopy rfl)
          rw [Bool.eq_false_iff]
          intro hold
          obtain ⟨node, hget⟩ := Option.isSome_iff_exists.mp hold
          have hlt := hs.fresh childCopy (contains_of_get? (hs.get? _ node hget))
          exact Nat.not_lt_of_le (hnew childCopy rfl) hlt

theorem keepsOld (levels : Nat) : KeepsOld levels := by
  induction levels with
  | zero =>
      intro t s id copy? _ hs
      cases hs
  | succ levels ih =>
      intro t s id copy? ht hs
      cases hget : t.get? id with
      | none =>
          rw [copyLevels, hget] at hs
          cases hs
          refine ⟨ht, ?_⟩
          intro copy hcopy
          cases hcopy
      | some node =>
          rw [copyLevels_succ hget] at hs
          obtain ⟨⟨copy, ids⟩, htake, hs⟩ := Except.exists_of_bind_eq_ok hs
          obtain ⟨⟨children, u⟩, hchildren, hs⟩ := Except.exists_of_bind_eq_ok hs
          cases hs
          rw [IdSource.take] at htake
          split_ifs at htake
          cases htake
          have hu := ih.copyChildren (.refl ht.skip.fresh) hchildren
          refine ⟨(ht.skip.trans hu).insertNode (ht.not_contains (Nat.le_refl _)) hu.next, ?_⟩
          intro copy hcopy
          cases hcopy
          exact Nat.le_refl _

/-- What becomes of a tree by creating nodes and copying subtrees, one after the other. -/
inductive GrowsTo (t : Tree) : Tree → Prop where
  | refl : GrowsTo t t
  | create {s r : Tree} {kind : NodeKind} {location : Location} {id : NodeId} (h : GrowsTo t s)
      (hr : s.create kind location = .ok (id, r)) : GrowsTo t r
  | copySubtree {s r : Tree} {id : NodeId} {copy? : Option NodeId} (h : GrowsTo t s)
      (hr : s.copySubtree id = .ok (copy?, r)) : GrowsTo t r

theorem GrowsTo.retains (h : t.GrowsTo s) (ht : Retains t t) : Retains t s := by
  induction h with
  | refl => exact ht
  | create _ hr ih => exact ih.trans (.create (.refl ih.fresh) hr)
  | copySubtree _ hr ih => exact ih.trans (keepsOld _ _ _ _ _ (.refl ih.fresh) hr).1

/-- What loading a text gives: the nodes that the text describes, with sound links and a next id
past all of them. -/
theorem exists_of_load {text : String} (h : load text = .ok t) :
    ∃ s, (Json.parse? text).bind ofJson? = some s ∧ s.Linked ∧
      t = { s with ids := ⟨max (s.maxIndex + 1) s.ids.next⟩ } := by
  rw [load] at h
  cases hread : (Json.parse? text).bind ofJson? with
  | none =>
      rw [hread] at h
      cases h
  | some s =>
      rw [hread] at h
      obtain ⟨hlinks, -, rfl⟩ := checked_eq_ok h
      exact ⟨s, rfl, linked_iff.mpr hlinks, rfl⟩

theorem linked_of_load {text : String} (h : load text = .ok t) : t.Linked := by
  obtain ⟨s, -, hs, rfl⟩ := exists_of_load h
  exact hs.withNext _

/-- In every tree that is loaded, all nodes that can be reached from the root hang in it, nobody
lists the root, and no two nodes list the same one. The ids in use are below the next one, which is
not below the one in the text. Whatever is created and copied from then on, a node that is there
stays as it is. -/
theorem hangs_of_load {text : String} (h : load text = .ok t) :
    (∀ id, t.Reaches id → ∃ path, t.Hangs id path) ∧
    (∀ id, t.root ∉ t.children id) ∧
    (∀ parent parent' child, child ∈ t.children parent → child ∈ t.children parent' →
      parent = parent') ∧
    (∀ id, t.contains id = true → id.index < t.ids.next) ∧
    (∃ s, (Json.parse? text).bind ofJson? = some s ∧ s.root = t.root ∧ s.nodes = t.nodes ∧
      s.ids.next ≤ t.ids.next) ∧
    ∀ s r, t.GrowsTo s → s.GrowsTo r → ∀ id node, s.get? id = some node →
      r.get? id = some node := by
  obtain ⟨s, hread, hs, rfl⟩ := exists_of_load h
  have hlinked := hs.withNext (max (s.maxIndex + 1) s.ids.next)
  have hfresh : ∀ id, s.contains id = true → id.index < max (s.maxIndex + 1) s.ids.next := by
    intro id hid
    obtain ⟨node, hget⟩ := Option.isSome_iff_exists.mp hid
    exact Nat.lt_of_lt_of_le (Nat.lt_succ_of_le (le_maxIndex hget)) (Nat.le_max_left _ _)
  refine ⟨fun id hid => hlinked.exists_hangs hid, ?_, ?_, hfresh,
    ⟨s, hread, rfl, rfl, Nat.le_max_right _ _⟩, ?_⟩
  · exact fun id hlists => hlinked.ne_root hlists rfl
  · intro parent parent' child hlists hlists'
    exact hlinked.eq_of_mem_children hlists' hlists
  · intro u r hu hr
    have hretains := hu.retains (.refl hfresh)
    exact (hr.retains (.refl hretains.fresh)).get?

/-- A page that lists its text twice. Beside it two nodes hang below each other, and the next id is
in use. -/
def besideCircle : Tree :=
  { ofNodes [
      .numbered 0 none [1] .fileSet,
      .numbered 1 (some 0) [2, 2] (.file "page.soy" .source),
      .numbered 2 (some 1) [] (.rawText "Hello"),
      .numbered 3 (some 4) [4] .ifElse,
      .numbered 4 (some 3) [3] .ifElse] with
    ids := ⟨2⟩ }

theorem writable_besideCircle : besideCircle.Writable := by
  have hentries : ∀ e ∈ besideCircle.nodes.entries, e.1.index ≤ maxWord ∧
      e.2.id.index ≤ maxWord ∧ e.2.location.FitsWords ∧
        (∀ parent ∈ e.2.parent, parent.index ≤ maxWord) ∧
          (∀ child ∈ e.2.children, child.index ≤ maxWord) ∧
            ∀ x ∈ e.2.kind.exprs, x.hasFloat = false := by decide
  refine ⟨by decide, by decide, fun e hentry => ?_⟩
  obtain ⟨hkey, hid, hlocation, hparent, hchildren, hexprs⟩ := hentries e hentry
  exact ⟨hkey, hid, hlocation, hparent, hchildren, hexprs⟩

/-- The circle is loaded with the page, which hangs together without it, and new nodes come after
both. -/
theorem hangs_of_load_besideCircle : ∃ t, load besideCircle.store = .ok t ∧
    t.parent? ⟨3⟩ = some ⟨4⟩ ∧ t.parent? ⟨4⟩ = some ⟨3⟩ ∧ t.Hangs ⟨2⟩ [⟨1⟩, ⟨0⟩] ∧
      (∃ id s, t.create .ifBlock .unknown = .ok (id, s) ∧ id = ⟨5⟩ ∧
        ∀ x node, t.get? x = some node → s.get? x = some node) := by
  have hlinks : besideCircle.linkProblem? = none := by decide
  have hload : load besideCircle.store = .ok { besideCircle with ids := ⟨5⟩ } := by
    rw [writable_besideCircle.load_store_eq_checked (by decide), checked, hlinks]
    rfl
  obtain ⟨hhangs, -, -, -, -, hkeeps⟩ := hangs_of_load hload
  have hfile : (⟨1⟩ : NodeId) ∈ besideCircle.children ⟨0⟩ := by decide
  have htext : (⟨2⟩ : NodeId) ∈ besideCircle.children ⟨1⟩ := by decide
  obtain ⟨path, hpath⟩ := hhangs ⟨2⟩ (.tail (.single hfile) htext)
  have hclimbs : Tree.Climbs { besideCircle with ids := ⟨5⟩ } ⟨2⟩ [⟨1⟩, ⟨0⟩] := ⟨rfl, rfl, rfl⟩
  rw [hpath.climbs.unique hclimbs] at hpath
  exact ⟨_, hload, rfl, rfl, hpath, _, _, rfl, rfl, hkeeps _ _ .refl (.create .refl rfl)⟩

end TemplateLogging.Tree
