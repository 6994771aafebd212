import TemplateLogging.Instrument.Json
import TemplateLogging.Proofs.Invariants
import TemplateLogging.Proofs.Removal
import TemplateLogging.Proofs.Refusal
import TemplateLogging.Proofs.Storage

namespace TemplateLogging

namespace Tree

variable {t s r : Tree} {id parent child old new : NodeId} {single : NodeKind → Prop}
  {kind : NodeKind} {location : Location}

/-- Nodes have been added and links have been changed, and the links are still sound. -/
structure Extends (single : NodeKind → Prop) (t s : Tree) : Prop where
  sound : s.Sound single
  root : s.root = t.root
  item : ∀ id n, t.get? id = some n → ∃ m, s.get? id = some m ∧ m.item = n.item
  next : t.ids.next ≤ maxWord → s.ids.next ≤ maxWord

namespace Extends

theorem refl (h : t.Sound single) : Extends single t t :=
  ⟨h, rfl, fun _ n hget => ⟨n, hget, rfl⟩, fun hnext => hnext⟩

theorem trans (h : Extends single t s) (h' : Extends single s r) : Extends single t r := by
  refine ⟨h'.sound, h'.root.trans h.root, ?_, fun hnext => h'.next (h.next hnext)⟩
  intro id n hget
  obtain ⟨m, hm, hitem⟩ := h.item id n hget
  obtain ⟨k, hk, hitem'⟩ := h'.item id m hm
  exact ⟨k, hk, hitem'.trans hitem⟩

theorem of_relinks (hs : s.Sound single) (h : Relinks t s) : Extends single t s := by
  refine ⟨hs, h.root, ?_, fun hnext => by rwa [h.ids]⟩
  intro id n hget
  have hitem := h.item id
  rw [hget, Option.map_some] at hitem
  exact Option.map_eq_some_iff.mp hitem

theorem contains (h : Extends single t s) (hid : t.contains id = true) : s.contains id = true := by
  obtain ⟨n, hget⟩ := Option.isSome_iff_exists.mp hid
  obtain ⟨m, hm, -⟩ := h.item id n hget
  exact contains_of_get? hm

theorem nodup_children (h : Extends single t s) {n : Node} (hget : t.get? id = some n)
    (hsingle : single n.kind) : (s.children id).Nodup := by
  obtain ⟨m, hm, hitem⟩ := h.item id n hget
  have hkind : m.kind = n.kind := congrArg Item.kind hitem
  rw [children_of_get? hm]
  exact h.sound.nodup id m hm (hkind ▸ hsingle)

end Extends

/-- The node has been added between the one tree and the other. -/
structure Adds (t s : Tree) (id : NodeId) : Prop where
  before : t.contains id = false
  after : s.contains id = true

theorem Adds.ne (h : Adds t s id) {x : NodeId} (hx : t.contains x = true) : id ≠ x := by
  rintro rfl
  rw [h.before] at hx
  cases hx

namespace Sound

variable (h : t.Sound single)

include h

theorem extends_create (hs : t.create kind location = .ok (id, s)) :
    Extends single t s ∧ Adds t s id := by
  obtain ⟨hid, hids, hlt, hroot, hget⟩ := create_eq_ok hs
  have hnew : t.contains id = false := hid ▸ h.not_contains_next
  refine ⟨⟨h.create hs, hroot, ?_, ?_⟩, hnew, ?_⟩
  · intro x n hx
    have hne : id ≠ x := by
      rintro rfl
      rw [contains_of_get? hx] at hnew
      cases hnew
    exact ⟨n, by rw [hget, if_neg hne, hx], rfl⟩
  · intro _
    rw [hids]
    exact hlt
  · rw [contains_create hs]
    simp

theorem extends_insertChild (hparent : t.contains parent = true) (hchild : t.contains child = true)
    (hne : child ≠ t.root) {index : Nat} (hs : t.insertChild parent index child = .ok s) :
    Extends single t s := by
  obtain ⟨hsound, hrelinks⟩ := h.insertChild hparent hchild hne hs
  exact .of_relinks hsound hrelinks

theorem extends_replaceChild (hnew : t.contains new = true) (hroot : new ≠ t.root) (hne : new ≠ old)
    (hnodup : (t.children parent).Nodup) : Extends single t (t.replaceChild parent old new) :=
  .of_relinks (h.replaceChild hnew hroot hne hnodup) (relinks_replaceChild t parent old new)

theorem extends_append (hparent : t.contains parent = true)
    (hs : t.append parent kind location = .ok (id, s)) : Extends single t s ∧ Adds t s id := by
  obtain ⟨⟨_, u⟩, hcreate, hs⟩ := Except.exists_of_bind_eq_ok hs
  obtain ⟨_, hadd, hs⟩ := Except.exists_of_bind_eq_ok hs
  cases hs
  obtain ⟨hu, hadds⟩ := h.extends_create hcreate
  have hroot : id ≠ u.root := by
    rw [hu.root]
    exact hadds.ne h.contains_root
  have hs := hu.sound.extends_insertChild (hu.contains hparent) hadds.after hroot hadd
  exact ⟨hu.trans hs, hadds.before, hs.contains hadds.after⟩

theorem extends_createAttribute {name value : Expr}
    (hs : t.createAttribute name value location = .ok (id, s)) :
    Extends single t s ∧ Adds t s id := by
  obtain ⟨⟨attr, t₁⟩, hattr, hs⟩ := Except.exists_of_bind_eq_ok hs
  obtain ⟨⟨_, t₂⟩, hname, hs⟩ := Except.exists_of_bind_eq_ok hs
  obtain ⟨⟨valueNode, t₃⟩, hvalue, hs⟩ := Except.exists_of_bind_eq_ok hs
  obtain ⟨⟨_, t₄⟩, hprint, hs⟩ := Except.exists_of_bind_eq_ok hs
  cases hs
  obtain ⟨h₁, hattr⟩ := h.extends_create hattr
  obtain ⟨h₂, -⟩ := h₁.sound.extends_append hattr.after hname
  obtain ⟨h₃, hvalue⟩ := h₂.sound.extends_append (h₂.contains hattr.after) hvalue
  obtain ⟨h₄, -⟩ := h₃.sound.extends_append hvalue.after hprint
  have hadded := (h₂.trans h₃).trans h₄
  exact ⟨h₁.trans hadded, hattr.before, hadded.contains hattr.after⟩

theorem extends_createIfMetadata {body : NodeId} (hbody : t.contains body = true)
    (hne : body ≠ t.root) (hs : t.createIfMetadata body location = .ok (id, s)) :
    Extends single t s ∧ Adds t s id := by
  obtain ⟨⟨block, t₁⟩, hblock, hs⟩ := Except.exists_of_bind_eq_ok hs
  obtain ⟨⟨cond, t₂⟩, hcond, hs⟩ := Except.exists_of_bind_eq_ok hs
  obtain ⟨t₃, hadd, hs⟩ := Except.exists_of_bind_eq_ok hs
  cases hs
  obtain ⟨h₁, hblock⟩ := h.extends_create hblock
  obtain ⟨h₂, hcond⟩ := h₁.sound.extends_append hblock.after hcond
  have h₃ := h₂.sound.extends_insertChild hcond.after ((h₁.trans h₂).contains hbody)
    (by rwa [(h₁.trans h₂).root]) hadd
  exact ⟨h₁.trans (h₂.trans h₃), hblock.before, (h₂.trans h₃).contains hblock.after⟩

theorem extends_addConditionalAttribute {target : NodeId} {name value : Expr}
    (htarget : t.contains target = true)
    (hs : t.addConditionalAttribute target name value location = .ok s) : Extends single t s := by
  obtain ⟨⟨attr, t₁⟩, hattr, hs⟩ := Except.exists_of_bind_eq_ok hs
  obtain ⟨⟨block, t₂⟩, hblock, hs⟩ := Except.exists_of_bind_eq_ok hs
  obtain ⟨h₁, hattr⟩ := h.extends_createAttribute hattr
  have hroot : attr ≠ t₁.root := by
    rw [h₁.root]
    exact hattr.ne h.contains_root
  obtain ⟨h₂, hblock⟩ := h₁.sound.extends_createIfMetadata hattr.after hroot hblock
  have hroot' : block ≠ t₂.root := by
    rw [h₂.root]
    exact hblock.ne h₁.sound.contains_root
  have h₃ := h₂.sound.extends_insertChild ((h₁.trans h₂).contains htarget) hblock.after hroot' hs
  exact h₁.trans (h₂.trans h₃)

open Instrument in
theorem extends_hoistName {n : Node} {name : NodeId} {openTag : Option NodeId} {varName : String}
    (hget : t.get? id = some n) (hsingle : single n.kind) (hname : name ∈ t.children id)
    (hs : hoistName t id name openTag varName location = .ok s) : Extends single t s := by
  have hcontains := h.contains_child hname
  have hne := h.ne_root hname
  obtain ⟨_, -, hs⟩ := Except.exists_of_bind_eq_ok hs
  obtain ⟨⟨binding, t₁⟩, hbinding, hs⟩ := Except.exists_of_bind_eq_ok hs
  obtain ⟨⟨reference, t₂⟩, hreference, hs⟩ := Except.exists_of_bind_eq_ok hs
  obtain ⟨t₄, hadd, hs⟩ := Except.exists_of_bind_eq_ok hs
  obtain ⟨h₁, hbinding⟩ := h.extends_create hbinding
  obtain ⟨h₂, hreference⟩ := h₁.sound.extends_create hreference
  have hroot : reference ≠ t₂.root := by
    rw [h₂.root]
    exact hreference.ne h₁.sound.contains_root
  have h₃ := h₂.sound.extends_replaceChild hreference.after hroot
    (hreference.ne (h₁.contains hcontains)) ((h₁.trans h₂).nodup_children hget hsingle)
  have hbefore := h₁.trans (h₂.trans h₃)
  have h₄ := h₃.sound.extends_insertChild ((h₂.trans h₃).contains hbinding.after)
    (hbefore.contains hcontains) (by rwa [hbefore.root]) hadd
  have hall := hbefore.trans h₄
  have hbindingRoot : binding ≠ t₄.root := by
    rw [hall.root]
    exact hbinding.ne h.contains_root
  dsimp only at hs
  cases hparent : t₄.parent? (openTag.getD id) with
  | none =>
      rw [hparent] at hs
      cases hs
      exact hall
  | some parent =>
      rw [hparent] at hs
      have hlists := (h₄.sound.mem_children_iff _ _).mpr hparent
      exact hall.trans (h₄.sound.extends_insertChild (contains_of_mem_children hlists)
        (((h₂.trans h₃).trans h₄).contains hbinding.after) hbindingRoot hs)

open Instrument in
theorem extends_attributeName {o : InstrumentOptions} {n : Node} {name : NodeId}
    {openTag : Option NodeId} {number : Nat} {value : Expr} {hoisted : Bool}
    (hget : t.get? id = some n) (hsingle : single n.kind) (hname : name ∈ t.children id)
    (hs : attributeName o t id name openTag number location = .ok (value, s, hoisted)) :
    Extends single t s := by
  obtain ⟨kind, -, hs⟩ := Except.exists_of_bind_eq_ok hs
  split at hs
  · cases hs
    exact .refl h
  · obtain ⟨u, hhoist, hs⟩ := Except.exists_of_bind_eq_ok hs
    cases hs
    exact h.extends_hoistName hget hsingle hname hhoist

/-- The value of an attribute goes, so the tree does not extend the one before. -/
theorem replaceValue {n : Node} {value : NodeId} {placeholder : String}
    (hget : t.get? id = some n) (hsingle : single n.kind) (hvalue : t.contains value = true)
    (hne : value ≠ t.root) (hs : Instrument.replaceValue t id value placeholder location = .ok s) :
    s.Sound single ∧ (t.ids.next ≤ maxWord → s.ids.next ≤ maxWord) := by
  obtain ⟨⟨quoted, t₁⟩, hquoted, hs⟩ := Except.exists_of_bind_eq_ok hs
  obtain ⟨⟨_, t₂⟩, htext, hs⟩ := Except.exists_of_bind_eq_ok hs
  cases hs
  obtain ⟨h₁, hquoted⟩ := h.extends_create hquoted
  obtain ⟨h₂, -⟩ := h₁.sound.extends_append hquoted.after htext
  have hroot : quoted ≠ t₂.root := by
    rw [(h₁.trans h₂).root]
    exact hquoted.ne h.contains_root
  have h₃ := h₂.sound.extends_replaceChild (h₂.contains hquoted.after) hroot (hquoted.ne hvalue)
    ((h₁.trans h₂).nodup_children hget hsingle)
  have hall := (h₁.trans h₂).trans h₃
  refine ⟨h₃.sound.removeSubtree (by rwa [hall.root]), ?_⟩
  intro hnext
  rw [ids_removeSubtree]
  exact hall.next hnext

end Sound

/-- What instrumentation keeps: sound links, and ids with 32 bits. -/
structure Loadable (t : Tree) : Prop where
  sound : t.Sound (· = .htmlAttribute)
  next : t.ids.next ≤ maxWord

theorem contains_of_node {n : Node} (h : t.node id = .ok n) : t.contains id = true := by
  rw [node] at h
  cases hget : t.get? id with
  | none =>
      rw [hget] at h
      cases h
  | some m => exact contains_of_get? hget

theorem contains_of_climb {test : NodeKind → Bool} {fuel : Nat} {start : Option NodeId}
    (hclimb : t.climb test fuel start = .ok (some id)) : t.contains id = true := by
  induction fuel generalizing start with
  | zero => cases hclimb
  | succ fuel ih =>
      cases start with
      | none => cases hclimb
      | some above =>
          obtain ⟨n, hnode, hclimb⟩ := Except.exists_of_bind_eq_ok hclimb
          split_ifs at hclimb with htest
          · cases hclimb
            exact contains_of_node hnode
          · exact ih hclimb

end Tree

namespace Instrument

variable {t t' : Tree} {id : NodeId} {o : InstrumentOptions}

namespace Step

variable {α β : Type} {b : β}

theorem exists_of_bind_eq_ok {step : Step α} {next : α → Step β}
    (h : (step >>= next).run = .ok (.ok b)) :
    ∃ a, step.run = .ok (.ok a) ∧ (next a).run = .ok (.ok b) := by
  change (step.run >>= ExceptT.bindCont next) = _ at h
  obtain ⟨r, hstep, h⟩ := Except.exists_of_bind_eq_ok h
  cases r with
  | error fault => cases h
  | ok a => exact ⟨a, hstep, h⟩

theorem eq_ok_of_lift {step : Except Fault β} (h : (liftM step : Step β).run = .ok (.ok b)) :
    step = .ok b := by
  cases step with
  | error fault => cases h
  | ok c =>
      cases h
      rfl

theorem fail_ne_ok (contract : Contract) (message : String) (t : Tree) (id : NodeId) :
    (Step.fail contract message t id : Step β).run ≠ .ok (.ok b) := by
  intro h
  obtain ⟨fault, -, h⟩ := exists_of_bind_eq_ok h
  cases h

end Step

theorem site_eq_ok {s : Site} (h : (site t id).run = .ok (.ok s)) :
    t.child? id 0 = some s.name ∧ t.contains s.target = true := by
  rw [site] at h
  cases hname : t.child? id 0 with
  | none =>
      rw [hname] at h
      exact absurd h (Step.fail_ne_ok _ _ _ _)
  | some name =>
      rw [hname] at h
      obtain ⟨location, -, h⟩ := Step.exists_of_bind_eq_ok h
      obtain ⟨openTag, htag, h⟩ := Step.exists_of_bind_eq_ok h
      cases openTag with
      | some tag =>
          cases h
          exact ⟨rfl, Tree.contains_of_climb (Step.eq_ok_of_lift htag)⟩
      | none =>
          obtain ⟨target?, htarget, h⟩ := Step.exists_of_bind_eq_ok h
          cases target? with
          | none => exact absurd h (Step.fail_ne_ok _ _ _ _)
          | some target =>
              cases h
              exact ⟨rfl, Tree.contains_of_climb (Step.eq_ok_of_lift htarget)⟩

theorem contains_of_firstTag? {tag : NodeId} {place : Location}
    (h : firstTag? t id = .ok (some (tag, place))) : t.contains tag = true := by
  rw [firstTag?] at h
  cases hchild : t.child? id 0 with
  | none =>
      rw [hchild] at h
      cases h
  | some child =>
      rw [hchild] at h
      obtain ⟨n, hnode, h⟩ := Except.exists_of_bind_eq_ok h
      split at h
      · cases h
        exact Tree.contains_of_node hnode
      · cases h

theorem loadable_markBlock {block : LogBlock} (ht : t.Loadable)
    (h : (markBlock o t id block).run = .ok (.ok t')) : t'.Loadable := by
  rw [markBlock] at h
  cases hid : block.loggingId with
  | none =>
      rw [hid] at h
      exact absurd h (Step.fail_ne_ok _ _ _ _)
  | some loggingId =>
      rw [hid] at h
      obtain ⟨tag?, htag, h⟩ := Step.exists_of_bind_eq_ok h
      cases tag? with
      | none => exact absurd h (Step.fail_ne_ok _ _ _ _)
      | some tag =>
          obtain ⟨tag, place⟩ := tag
          have hadd := Step.eq_ok_of_lift h
          have hcontains := contains_of_firstTag? (Step.eq_ok_of_lift htag)
          have hextends := ht.sound.extends_addConditionalAttribute hcontains hadd
          exact ⟨hextends.sound, hextends.next ht.next⟩

theorem loadable_moveCall {n : Node} {value : NodeId} {call : LoggingCall} {s : Site} {number : Nat}
    {hoisted : Bool} (ht : t.Loadable) (hget : t.get? id = some n) (hkind : n.kind = .htmlAttribute)
    (hvalue : t.attributeValue? id = some value) (hsite : (site t id).run = .ok (.ok s))
    (h : moveCall o t id value call s number = .ok (t', hoisted)) : t'.Loadable := by
  obtain ⟨hname, htarget⟩ := site_eq_ok hsite
  have hname := List.mem_of_getElem? hname
  have hvalue := List.mem_of_getElem? hvalue
  obtain ⟨⟨name, t₁, _⟩, hname', h⟩ := Except.exists_of_bind_eq_ok h
  obtain ⟨t₂, hadd, h⟩ := Except.exists_of_bind_eq_ok h
  obtain ⟨t₃, hreplace, h⟩ := Except.exists_of_bind_eq_ok h
  cases h
  have h₁ := ht.sound.extends_attributeName hget hkind hname hname'
  have h₂ := h₁.sound.extends_addConditionalAttribute (h₁.contains htarget) hadd
  have hall := h₁.trans h₂
  obtain ⟨m, hget', hitem⟩ := hall.item id n hget
  have hkind' : m.kind = .htmlAttribute := (congrArg Item.kind hitem).trans hkind
  obtain ⟨hsound, hnext⟩ := h₂.sound.replaceValue hget' hkind'
    (hall.contains (ht.sound.contains_child hvalue))
    (by rw [hall.root]; exact ht.sound.ne_root hvalue) hreplace
  exact ⟨hsound, hnext (hall.next ht.next)⟩

theorem leaves_run {α β : Type} {step : Step α} {next : α → Pass β} {s : Progress}
    {keep : Tree → Prop} (ht : keep t)
    (h : ∀ a, step.run = .ok (.ok a) → Walk.Leaves keep (next a) s t) :
    Walk.Leaves keep (run step >>= next) s t := by
  intro r s' t' hrun
  cases hstep : step.run with
  | error fault =>
      rw [run, hstep] at hrun
      cases hrun
  | ok result =>
      rw [run, hstep] at hrun
      cases result with
      | error fault =>
          cases hrun
          exact ht
      | ok a => exact h a hstep r s' t' hrun

theorem leaves_record {f : InstrumentReport → InstrumentReport} {s : Progress} {keep : Tree → Prop}
    (ht : keep t) : Walk.Leaves keep (record f) s t :=
  .bind_state (.setState ht)

theorem leaves_instrumentBlock {s : Progress} (ht : t.Loadable) :
    Walk.Leaves Tree.Loadable (instrumentBlock o id) s t := by
  apply Walk.Leaves.bind_tree
  apply Walk.Leaves.bind_attempt
  intro kind _
  split
  · apply leaves_run ht
    intro t' hmark
    exact .bind_setTree (leaves_record (loadable_markBlock ht hmark))
  · exact .pure ht ()

theorem leaves_instrumentAttribute {s : Progress} {n : Node} (ht : t.Loadable)
    (hget : t.get? id = some n) (hkind : n.kind = .htmlAttribute) :
    Walk.Leaves Tree.Loadable (instrumentAttribute o id) s t := by
  apply Walk.Leaves.bind_tree
  split
  · rename_i value call rest hvalue _
    apply leaves_run ht
    intro site hsite
    apply Walk.Leaves.bind
    · apply Walk.Leaves.bind_state
      apply Walk.Leaves.bind_attempt
      intro taken _
      exact .bind_setState (.pure ht _)
    · intro number s _ _
      apply Walk.Leaves.bind_attempt
      rintro ⟨t', hoisted⟩ hmove
      exact .bind_setTree (leaves_record (loadable_moveCall ht hget hkind hvalue hsite hmove))
  · exact .pure ht ()

theorem keeps_visitor (o : InstrumentOptions) : (visitor o).Keeps Tree.Loadable := by
  constructor
  · intro walk hwalk
    exact hwalk
  · intro children hchildren id s t node hget ht
    cases hkind : node.kind with
    | file path fileKind =>
        apply Walk.Leaves.bind_tree
        apply Walk.Leaves.bind_attempt
        intro kind _
        split_ifs
        · exact .pure ht ()
        · exact .bind (leaves_record ht) fun _ => hchildren id
    | template name contentKind => exact .bind_state (.bind_setState (hchildren id _ t ht))
    | htmlAttribute =>
        exact .bind (leaves_instrumentAttribute ht hget hkind) fun _ => hchildren id
    | logBlock block =>
        refine Walk.Leaves.bind (leaves_instrumentBlock ht) fun _ s t ht => ?_
        refine Walk.Leaves.bind (hchildren id s t ht) fun _ s t ht => ?_
        apply Walk.Leaves.bind_tree
        apply Walk.Leaves.bind_attempt
        intro t' hunwrap
        obtain ⟨hsound, hids⟩ := ht.sound.unwrap hunwrap
        exact .setTree ⟨hsound, by rw [hids]; exact ht.next⟩
    | _ => exact hchildren id s t ht

end Instrument

namespace Tree

variable {t t' : Tree} {o : InstrumentOptions} {result : Except CompilerFault InstrumentReport}

theorem Loadable.instrument (h : t.Loadable) (hrun : t.instrument o = .ok (result, t')) :
    t'.Loadable := by
  obtain ⟨fault?, -, hrun⟩ := Except.exists_of_bind_eq_ok hrun
  cases fault? with
  | some fault =>
      cases hrun
      exact h
  | none =>
      obtain ⟨⟨r, progress, u⟩, hwalk, hrun⟩ := Except.exists_of_bind_eq_ok hrun
      cases hrun
      have hkeeps := Instrument.keeps_visitor o
      exact hkeeps.visitChildren (hkeeps.walk _) t.root _ t h r progress _ hwalk

theorem le_maxIndex {id : NodeId} {node : Node} (hget : t.get? id = some node) :
    id.index ≤ t.maxIndex := by
  have hfold : ∀ (ns : List Nat) (m : Nat), m ≤ ns.foldl max m ∧ ∀ n ∈ ns, n ≤ ns.foldl max m := by
    intro ns
    induction ns with
    | nil => exact fun m => ⟨Nat.le_refl m, nofun⟩
    | cons k ns ih =>
        intro m
        obtain ⟨hstart, hns⟩ := ih (max m k)
        refine ⟨(Nat.le_max_left m k).trans hstart, ?_⟩
        intro n hn
        rcases List.mem_cons.mp hn with rfl | hn
        · exact (Nat.le_max_right m n).trans hstart
        · exact hns n hn
  refine (hfold _ 0).2 _ (List.mem_map_of_mem ?_)
  exact List.mem_map.mpr ⟨(id, node), Table.mem_entries_iff.mpr hget, rfl⟩

theorem next_le_of_ofJson? {j : Json} (h : ofJson? j = some t) : t.ids.next ≤ maxWord := by
  rw [ofJson?] at h
  split at h
  · obtain ⟨root, -, h⟩ := Option.bind_eq_some_iff.mp h
    obtain ⟨members, -, h⟩ := Option.bind_eq_some_iff.mp h
    obtain ⟨nodes, -, h⟩ := Option.bind_eq_some_iff.mp h
    obtain ⟨source, hids, h⟩ := Option.bind_eq_some_iff.mp h
    cases h
    obtain ⟨field, -, hids⟩ := Option.bind_eq_some_iff.mp hids
    obtain ⟨next, hnext, hids⟩ := Option.bind_eq_some_iff.mp hids
    cases hids
    rw [Json.toWord?, Json.toNatBelow?.eq_def] at hnext
    split at hnext
    · split_ifs at hnext with hrange
      cases hnext
      have hlt : UInt32.size = maxWord + 1 := rfl
      show Int.toNat _ ≤ maxWord
      omega
    · cases hnext
  · cases h

theorem checked_eq_ok (h : t.checked = .ok t') :
    t.linkProblem? = none ∧ t.maxIndex < maxWord ∧
      t' = { t with ids := ⟨max (t.maxIndex + 1) t.ids.next⟩ } := by
  rw [checked] at h
  cases hlinks : t.linkProblem? with
  | some problem =>
      rw [hlinks] at h
      cases h
  | none =>
      rw [hlinks] at h
      simp only at h
      split_ifs at h with hlt
      cases h
      exact ⟨rfl, hlt, rfl⟩

theorem loadable_of_load {text : String} (hload : load text = .ok t)
    (hsingle : ∀ id node, t.get? id = some node → node.kind = .htmlAttribute →
      node.children.Nodup) : t.Loadable := by
  rw [load] at hload
  cases hjson : (Json.parse? text).bind ofJson? with
  | none =>
      rw [hjson] at hload
      cases hload
  | some u =>
      rw [hjson] at hload
      obtain ⟨j, -, hread⟩ := Option.bind_eq_some_iff.mp hjson
      have hnext := next_le_of_ofJson? hread
      obtain ⟨hlinks, hmax, rfl⟩ := checked_eq_ok hload
      have hlinked : u.Linked := linked_iff.mpr hlinks
      refine ⟨⟨hlinked.withNext _, ?_, hsingle⟩, ?_⟩
      · intro id hid
        obtain ⟨node, hget⟩ := Option.isSome_iff_exists.mp hid
        have hle : id.index ≤ u.maxIndex := le_maxIndex hget
        exact Nat.lt_of_lt_of_le (Nat.lt_succ_of_le hle) (Nat.le_max_left _ _)
      · exact Nat.max_le.mpr ⟨hmax, hnext⟩

/-- The text that a successful instrumentation is answered with. -/
def answerText (t : Tree) (report : InstrumentReport) : String :=
  (Json.obj [("tree", t.toJson), ("report", report.toJson)]).text

/-- Where no attribute lists a child twice, a tree that was loaded and instrumented has sound links
and needs no repair of its ids. If its text can hold it, it can be loaded again. -/
theorem linkProblem?_of_instrumentText {text answer : String} {options? : Option String}
    (hload : load text = .ok t)
    (hsingle : ∀ id node, t.get? id = some node → node.kind = .htmlAttribute → node.children.Nodup)
    (hanswer : instrumentText text options? = .ok (.ok answer)) :
    ∃ t' report, answer = answerText t' report ∧ t'.linkProblem? = none ∧ t'.checked = .ok t' ∧
      (t'.Storable → load t'.store = .ok t') := by
  rw [instrumentText, hload] at hanswer
  simp only at hanswer
  cases hoptions : options?.elim (some {}) InstrumentOptions.load? with
  | none =>
      rw [hoptions] at hanswer
      cases hanswer
  | some o =>
      rw [hoptions] at hanswer
      obtain ⟨⟨result, t'⟩, hrun, hanswer⟩ := Except.exists_of_bind_eq_ok hanswer
      cases result with
      | error fault => cases hanswer
      | ok report =>
          cases hanswer
          have ht' := (loadable_of_load hload hsingle).instrument hrun
          have hlinks : t'.linkProblem? = none := linked_iff.mp ht'.sound.toLinked
          have hfresh : ∀ id node, t'.get? id = some node → id.index < t'.ids.next :=
            fun id node hget => ht'.sound.fresh id (contains_of_get? hget)
          have hchecked := checked_eq_self hlinks hfresh ht'.next
          refine ⟨t', report, rfl, hlinks, hchecked, ?_⟩
          intro hstorable
          rw [hstorable.load_store_eq_checked hlinks hfresh, hchecked]

theorem linkProblem?_of_instrumentText_page : ∃ answer t' report,
    instrumentText (page (some 7)).store none = .ok (.ok answer) ∧ answer = answerText t' report ∧
      t'.linkProblem? = none := by
  have hwf : (page (some 7)).WellFormed := by decide
  have hload : load (page (some 7)).store = .ok (page (some 7)) := by
    rw [storable_page.load_store_eq_checked hwf.links hwf.fresh,
      checked_eq_self hwf.links hwf.fresh (by decide)]
  obtain ⟨report, t', hrun⟩ := instrument_page
  have hanswer : instrumentText (page (some 7)).store none =
      .ok (.ok (answerText t' report)) := by
    rw [instrumentText, hload]
    simp only [Option.elim_none, hrun]
    rfl
  obtain ⟨t'', report', htext, hlinks, -⟩ :=
    linkProblem?_of_instrumentText hload (fun id node hget _ => hwf.nodup id node hget) hanswer
  exact ⟨_, t'', report', hanswer, htext, hlinks⟩

/-- A page with an attribute that lists its value twice. -/
def repeatedValue : Tree :=
  ofNodes [
    .numbered 0 none [1] .fileSet,
    .numbered 1 (some 0) [2] (.file "page.soy" .source),
    .numbered 2 (some 1) [3] (.template "page" .html),
    .numbered 3 (some 2) [4] (.openTag "a" false),
    .numbered 4 (some 3) [5, 6, 6] .htmlAttribute,
    .numbered 5 (some 4) [] (.rawText "href"),
    .numbered 6 (some 4) [7] (.attributeValue .double),
    .numbered 7 (some 6) [] (.print (.call (.logging ⟨"address", "#"⟩) []) false)]

/-- The page can be loaded. Only the first entry of the value is replaced, so the attribute goes on
listing a node that is gone. -/
theorem repeatedValue_lostChild : load repeatedValue.store = .ok repeatedValue ∧
    ∃ report t', repeatedValue.instrument {} = .ok (.ok report, t') ∧
      instrumentText repeatedValue.store none = .ok (.ok (answerText t' report)) ∧
        t'.linkProblem? = some (.lostChild ⟨4⟩ ⟨6⟩) := by
  have hlinks : repeatedValue.linkProblem? = none := by decide
  have hentries : ∀ e ∈ repeatedValue.nodes.entries, e.1.index < repeatedValue.ids.next ∧
      e.2.location.FitsWords ∧ ∀ x ∈ e.2.kind.exprs, x.hasFloat = false := by decide
  have hfresh : ∀ id node, repeatedValue.get? id = some node →
      id.index < repeatedValue.ids.next :=
    fun id node hget => (hentries _ (Table.mem_entries_iff.mpr hget)).1
  have hstorable : repeatedValue.Storable := by
    refine ⟨by decide, ?_, ?_, by decide⟩
    · intro id node hget
      exact (hentries _ (Table.mem_entries_iff.mpr hget)).2.1
    · intro id node hget
      exact (hentries _ (Table.mem_entries_iff.mpr hget)).2.2
  have hload : load repeatedValue.store = .ok repeatedValue := by
    rw [hstorable.load_store_eq_checked hlinks hfresh, checked_eq_self hlinks hfresh (by decide)]
  have hproblem : (match repeatedValue.instrument {} with
      | .ok (.ok _, t') => decide (t'.linkProblem? = some (.lostChild ⟨4⟩ ⟨6⟩))
      | _ => false) = true := by
    decide +kernel
  refine ⟨hload, ?_⟩
  split at hproblem
  · rename_i report t' hrun
    refine ⟨report, t', hrun, ?_, of_decide_eq_true hproblem⟩
    rw [instrumentText, hload]
    simp only [Option.elim_none, hrun]
    rfl
  · cases hproblem

end Tree

end TemplateLogging
