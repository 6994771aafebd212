import TemplateLogging.Proofs.Ready
import TemplateLogging.Proofs.Walking

/-!
The walk over branches whose contracts are kept does what `Rose.rewrite` says. The induction is on
the branch; the levels that the walk may go down are more than the branch is high, since a marker
makes the open tag above it five levels high.
-/

namespace TemplateLogging

open Instrument

open Rose

variable {o : InstrumentOptions} {inTag covered : Bool} {levels : Nat}

theorem performs_rewriteMark (mark : Option Mark) :
    Performs o (levels + 5) true true (mark.map (·.branch o)).toList (rewriteMark o mark) := by
  cases mark with
  | none => exact .nil
  | some m => exact .mark m

theorem performs_tag (mark : Option Mark) {a : Item} {cs : List Branch}
    (htag : a.kind.isOpenTag = true) (hlevels : 5 ≤ levels)
    (hcs : Performs o levels true true cs (rewriteAll o true cs)) :
    Performs o (levels + 1) inTag covered [.node a (cs ++ (mark.map (·.branch o)).toList)]
      (rewrite o inTag mark (.node a cs)) := by
  obtain ⟨levels, rfl⟩ := Nat.exists_eq_add_of_le' hlevels
  rw [rewrite_openTag htag]
  exact .openTag htag (hcs.append (performs_rewriteMark mark))

theorem Performs.movedName {a : Item} {name : Branch} {call : LoggingCall} {s : Tally}
    (hname : Performs o levels inTag covered [name] (rewrite o inTag none name))
    (hlevels : 1 ≤ levels) :
    Performs o levels inTag covered [(moveOut o a name call s).name]
      (if name.isLiteral then rewrite o inTag none name
        else .still [(moveOut o a name call s).name]) := by
  cases hlit : name.isLiteral with
  | true =>
      obtain ⟨text, htext⟩ := exists_text_of_isLiteral hlit
      rwa [if_pos rfl, moveOut_literal htext]
  | false =>
      obtain ⟨levels, rfl⟩ := Nat.exists_eq_add_of_le' hlevels
      rw [if_neg Bool.false_ne_true, moveOut_computed hlit]
      exact still_leaf rfl

theorem Performs.movedValue {a : Item} {name : Branch} {call : LoggingCall} {s : Tally}
    (hlevels : 2 ≤ levels) :
    Performs o levels inTag covered [(moveOut o a name call s).value]
      (.still [(moveOut o a name call s).value]) := by
  obtain ⟨levels, rfl⟩ := Nat.exists_eq_add_of_le' hlevels
  rw [moveOut]
  split
  · exact still_placeholder
  · exact still_placeholder

theorem exists_levels {a : Item} {cs : List Branch} (h : (Rose.node a cs).height + 5 ≤ levels) :
    ∃ below, levels = below + 1 ∧ heightAll cs + 5 ≤ below := by
  rw [height] at h
  exact ⟨levels - 1, by omega, by omega⟩

theorem hereditary_performs (o : InstrumentOptions) : Hereditary
    (fun inTag covered b => ∀ levels, b.height + 5 ≤ levels →
      Performs o levels inTag covered [b] (rewrite o inTag none b))
    (fun inTag covered bs => ∀ levels, heightAll bs + 5 ≤ levels →
      Performs o levels inTag covered bs (rewriteAll o inTag bs)) where
  nil levels _ := by
    rw [rewriteAll_nil]
    exact .nil
  cons hb hbs levels hlevels := by
    rw [heightAll] at hlevels
    rw [rewriteAll_cons]
    exact (hb levels (by omega)).append (hbs levels (by omega))
  dependency hkind levels hlevels := by
    obtain ⟨levels, rfl, -⟩ := exists_levels hlevels
    rw [rewrite_dependency hkind]
    exact .dependency hkind
  source hkind hcs levels hlevels := by
    obtain ⟨levels, rfl, hbelow⟩ := exists_levels hlevels
    rw [rewrite_source hkind]
    exact .source hkind (hcs levels hbelow)
  template hkind hcs levels hlevels := by
    obtain ⟨levels, rfl, hbelow⟩ := exists_levels hlevels
    rw [rewrite_template hkind]
    exact .template hkind (hcs levels hbelow)
  openTag {inTag covered a cs} htag hcs levels hlevels := by
    obtain ⟨levels, rfl, hbelow⟩ := exists_levels hlevels
    have hopen : Performs o (levels + 1) inTag covered [.node a (cs ++ [])]
        (rewrite o inTag none (.node a cs)) :=
      performs_tag none htag (by omega) (hcs levels hbelow)
    rwa [List.append_nil] at hopen
  block {inTag covered a block tag attrs rest} hkind hid htag hattrs hrest levels hlevels := by
    obtain ⟨levels, rfl, hbelow⟩ := exists_levels hlevels
    rw [heightAll] at hbelow
    have htagLevels : (Rose.node tag attrs).height + 5 ≤ levels := by
      omega
    have hrest := hrest levels (by omega)
    -- The tag is one level down, and its marker needs five levels below that.
    obtain ⟨levels, rfl, hattrLevels⟩ := exists_levels htagLevels
    have hmarked : ∀ m : Mark, Performs o (levels + 1) inTag covered
        [.node tag (attrs ++ [m.branch o])] (rewrite o inTag (some m) (.node tag attrs)) := by
      intro m
      exact performs_tag (some m) htag (by omega) (hattrs levels hattrLevels)
    rw [rewrite_logBlock hkind]
    exact .block hkind hid htag fun next => (hmarked (block.mark _ next)).append hrest
  unmoved hkind hcalls hcs levels hlevels := by
    obtain ⟨levels, rfl, hbelow⟩ := exists_levels hlevels
    rw [rewrite_attribute hkind hcalls]
    exact .unmoved hkind hcalls (hcs levels hbelow)
  moved hkind hcalls hname hrest levels hlevels := by
    obtain ⟨levels, rfl, hbelow⟩ := exists_levels hlevels
    rw [heightAll, heightAll] at hbelow
    rw [rewrite_move hkind hcalls]
    have hname := hname levels (by omega)
    have hrest := hrest levels (by omega)
    refine .move hkind hcalls fun s => ?_
    exact ((hname.movedName (by omega)).append (.movedValue (by omega))).append hrest
  plain hplain hcs levels hlevels := by
    obtain ⟨levels, rfl, hbelow⟩ := exists_levels hlevels
    rw [rewrite_plain hplain]
    exact .plain hplain (hcs levels hbelow)

def Tally.start (next : Nat) : Tally :=
  ⟨next, 0, {}⟩

theorem Tree.Holds.fits_start {t : Tree} {root : NodeId} {next : Nat} {others : Multiset Node}
    {a : Item} {cs : List Branch} (h : t.Holds root next ((Rose.node a cs).nodes none + others)) :
    (Tally.start next).Fits root
      (nodesAll none ((Context.within .top a [] []).plug cs) + others) {} t := by
  refine ⟨rfl, Nat.zero_le _, (by decide : 0 < maxWord), h.congr ?_⟩
  rw [Context.plug, Context.plug, List.nil_append, List.append_nil, nodesAll_singleton]

theorem Tree.Holds.instrumentWithin {t : Tree} {root : NodeId} {next : Nat} {others : Multiset Node}
    {a : Item} {cs : List Branch} (h : t.Holds root next (nodesAll none [.node a cs] + others))
    (hroot : a.id = root) (hkind : a.kind = .fileSet) (hready : ∀ b ∈ cs, b.FileReady)
    (hlevels : heightAll cs + 5 ≤ levels) :
    Takes next (rewriteAll o false cs (.start next)).2.next (t.instrumentWithin levels o) fun r =>
      r.1 = .ok (rewriteAll o false cs (.start next)).2.report ∧
        r.2.Holds root (rewriteAll o false cs (.start next)).2.next
          (nodesAll none [.node a (rewriteAll o false cs (.start next)).1.forest] + others) := by
  have hperforms : Performs o levels false false cs (rewriteAll o false cs) :=
    (hereditary_performs o).of_files hready levels hlevels
  have hrooted : (Context.within .top a [] []).Rooted := ⟨a, rfl, hkind⟩
  rw [nodesAll_singleton] at h
  have hwalk : Walk.Takes next (rewriteAll o false cs (.start next)).2.next
      ((visitor o).walkRoot levels) ({}, t) fun _ =>
        (rewriteAll o false cs (.start next)).2.Fits root
          (nodesAll none (((Context.within .top a [] []).grow
            (rewriteAll o false cs (.start next)).1).plug []) + others) := by
    rw [Visitor.walkRoot]
    refine Walk.Takes.bind_tree (Walk.Takes.bind_tree ?_)
    rw [h.children_root hroot]
    refine hperforms.takes hrooted ?_ ?_ h.fits_start
    · rw [Context.inTag_within, hkind]
      rfl
    · rw [Context.covered_within, hkind]
      rfl
  rw [Tree.instrumentWithin]
  refine Takes.bind hwalk ?_ (hperforms.le (.start next)) (Nat.le_refl _)
  rintro ⟨_, progress, t'⟩ ⟨_, rfl, hend⟩
  have hp := hend.progress_eq
  simp only at hp
  subst hp
  refine Takes.pure ⟨rfl, hend.holds.congr ?_⟩
  rw [Context.plug_grow_nil _ _ (by simp), Context.receive_within, Context.plug, List.nil_append,
    List.append_nil]
  · rfl
  · rw [hkind]
    rfl
  · rw [hkind]
    rfl

end TemplateLogging
