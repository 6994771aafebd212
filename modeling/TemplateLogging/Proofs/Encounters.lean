import Mathlib.Order.Interval.Finset.Nat
import Mathlib.Order.Interval.Multiset
import TemplateLogging.Proofs.Itinerary
import TemplateLogging.Proofs.Survival
import TemplateLogging.Proofs.Visits

namespace TemplateLogging

open Instrument Rose Context

/-- The ids from one number up to another. -/
def idsBetween (start stop : Nat) : Multiset NodeId :=
  (Multiset.Ico start stop).map NodeId.mk

theorem mem_idsBetween {start stop : Nat} {id : NodeId} :
    id ∈ idsBetween start stop ↔ start ≤ id.index ∧ id.index < stop := by
  rw [idsBetween, Multiset.mem_map]
  constructor
  · rintro ⟨n, hn, rfl⟩
    exact Multiset.mem_Ico.mp hn
  · intro h
    exact ⟨id.index, Multiset.mem_Ico.mpr h, rfl⟩

theorem nodup_idsBetween (start stop : Nat) : (idsBetween start stop).Nodup := by
  refine Multiset.Nodup.map ?_ Multiset.nodup_Ico
  intro m n h
  exact congrArg NodeId.index h

theorem idsBetween_add {start m stop : Nat} (hstart : start ≤ m) (hstop : m ≤ stop) :
    idsBetween start m + idsBetween m stop = idsBetween start stop := by
  rw [idsBetween, idsBetween, idsBetween, ← Multiset.map_add,
    Multiset.Ico_add_Ico_eq_Ico hstart hstop]

theorem le_idsBetween (ns : List Nat) {start stop : Nat} (hnodup : ns.Nodup)
    (h : ∀ n ∈ ns, start ≤ n ∧ n < stop) : ↑(ns.map NodeId.mk) ≤ idsBetween start stop := by
  rw [idsBetween, ← Multiset.map_coe]
  refine Multiset.map_le_map ((Multiset.le_iff_subset (Multiset.coe_nodup.mpr hnodup)).mpr ?_)
  intro n hn
  exact Multiset.mem_Ico.mpr (h n (Multiset.mem_coe.mp hn))

/-- The walk notes the given nodes, and none but fresh ones besides. -/
def Notes (seen seen' : List NodeId) (old : Multiset NodeId) (start stop : Nat) : Prop :=
  ∃ new ≤ idsBetween start stop, (seen' : Multiset NodeId) = seen + old + new

namespace Notes

variable {seen seen₁ seen' : List NodeId} {old old' more : Multiset NodeId} {start m stop : Nat}

theorem none (seen : List NodeId) (n : Nat) : Notes seen seen 0 n n := by
  refine ⟨0, Multiset.zero_le _, ?_⟩
  rw [add_zero, add_zero]

theorem trans (h : Notes seen seen₁ old start m) (h' : Notes seen₁ seen' old' m stop)
    (hstart : start ≤ m) (hstop : m ≤ stop) : Notes seen seen' (old + old') start stop := by
  obtain ⟨new, hnew, heq⟩ := h
  obtain ⟨new', hnew', heq'⟩ := h'
  refine ⟨new + new', ?_, ?_⟩
  · rw [← idsBetween_add hstart hstop]
    exact add_le_add hnew hnew'
  · rw [heq', heq]
    abel

theorem cons {id : NodeId} (h : Notes (seen ++ [id]) seen' old start stop) :
    Notes seen seen' ({id} + old) start stop := by
  obtain ⟨new, hnew, heq⟩ := h
  refine ⟨new, hnew, ?_⟩
  rw [heq, ← Multiset.coe_add, Multiset.coe_singleton]
  abel

theorem made (h : Notes seen seen' (old + more) m stop) (hmore : more ≤ idsBetween start m)
    (hstart : start ≤ m) (hstop : m ≤ stop) : Notes seen seen' old start stop := by
  obtain ⟨new, hnew, heq⟩ := h
  refine ⟨more + new, ?_, ?_⟩
  · rw [← idsBetween_add hstart hstop]
    exact add_le_add hmore hnew
  · rw [heq]
    abel

theorem nodup (h : Notes [] seen' old start stop) (hold : old.Nodup)
    (hbelow : ∀ id ∈ old, id.index < start) : seen'.Nodup := by
  obtain ⟨new, hnew, heq⟩ := h
  rw [← Multiset.coe_nodup, heq, Multiset.coe_nil, zero_add, Multiset.nodup_add]
  refine ⟨hold, Multiset.nodup_of_le hnew (nodup_idsBetween start stop), ?_⟩
  rw [Multiset.disjoint_left]
  intro id hid hfresh
  have hstart := (mem_idsBetween.mp (Multiset.mem_of_le hnew hfresh)).1
  exact absurd (hbelow id hid) (Nat.not_lt.mpr hstart)

theorem mem_iff (h : Notes [] seen' old start stop) {id : NodeId} (hid : id.index < start) :
    id ∈ seen' ↔ id ∈ old := by
  obtain ⟨new, hnew, heq⟩ := h
  rw [← Multiset.mem_coe, heq, Multiset.coe_nil, zero_add, Multiset.mem_add]
  refine or_iff_left fun hfresh => ?_
  have hstart := (mem_idsBetween.mp (Multiset.mem_of_le hnew hfresh)).1
  exact absurd hid (Nat.not_lt.mpr hstart)

end Notes

namespace Instrument

/-- The instrumentation of a node before its children, and after them. -/
def stations (o : InstrumentOptions) : Stations Progress where
  file := {
    before := fun id => do
      let kind ← Walk.attempt ((← Walk.tree).kind id)
      if kind.isDependencyFile then return false
      record fun r => { r with files := r.files + 1 }
      return true }
  template := {
    before := fun _ => do
      let progress ← Walk.state
      Walk.setState { progress with counter := progress.counter.reset }
      return true }
  htmlAttribute := {
    before := fun id => do
      instrumentAttribute o id
      return true }
  logBlock := {
    before := fun id => do
      instrumentBlock o id
      return true
    after := fun id => do Walk.setTree (← Walk.attempt ((← Walk.tree).unwrap id)) }

theorem visitor_stations (o : InstrumentOptions) : (stations o).visitor = visitor o := by
  have hdefault : ({} : Station Progress).visit = fun children id => children id := by
    funext children id
    simp [Station.visit]
  have hfile : (stations o).file.visit = visitFile := by
    funext children id
    simp only [Station.visit, stations, visitFile, bind_assoc]
    refine congrArg _ (funext fun t => congrArg _ (funext fun kind => ?_))
    split
    · simp
    · simp
  have htemplate : (stations o).template.visit = visitTemplate := by
    funext children id
    simp [Station.visit, stations, visitTemplate]
  have hattribute : (stations o).htmlAttribute.visit = visitAttribute o := by
    funext children id
    simp [Station.visit, stations, visitAttribute]
  have hblock : (stations o).logBlock.visit = visitBlock o := by
    funext children id
    simp [Station.visit, stations, visitBlock]
  rw [Stations.visitor, visitor, hfile, htemplate, hattribute, hblock]
  exact congrArg₂ (fun openTag other => Visitor.mk _ _ _ openTag _ _ other) hdefault hdefault

end Instrument

/-- The walk makes of the branches what `f` says, and of the nodes that it is passed on its way, all
but fresh ones are the given ones. -/
structure Meets (o : InstrumentOptions) (levels : Nat) (inTag covered : Bool) (bs : List Branch)
    (f : Work Item Tally) (old : Multiset NodeId) : Prop
    extends Performs o levels inTag covered bs f where
  notes : ∀ {root : NodeId} {others : Multiset Node} {ctx : Context} {s : Tally} {p q : Progress}
    {t t' : Tree} {seen seen' : List NodeId}, ctx.Rooted → ctx.inTag = inTag →
      ctx.covered = covered → s.Fits root (nodesAll none (ctx.plug bs) + others) p t →
        ((stations o).noting.visitEach ((stations o).noting.walk levels) (bs.map Rose.id)).run.run
          ((p, seen), t) = .ok (.ok (), (q, seen'), t') →
            Notes seen seen' old s.next (f s).2.next

variable {o : InstrumentOptions} {levels : Nat} {inTag covered : Bool} {a : Item} {b : Branch}
  {bs cs : List Branch} {f g : Work Item Tally} {old old' : Multiset NodeId} {root : NodeId}
  {others : Multiset Node} {ctx : Context} {s : Tally} {p q : Progress} {t t' : Tree}
  {seen seen' : List NodeId}

theorem retraces_visitEach (o : InstrumentOptions) (levels : Nat) (ids : List NodeId) :
    Walk.Retraces ((stations o).noting.visitEach ((stations o).noting.walk levels) ids)
      ((visitor o).visitEach ((visitor o).walk levels) ids) := by
  rw [← visitor_stations]
  exact .visitEach (.walk _ _) ids

namespace Meets

theorem nil : Meets o levels inTag covered [] (.still []) 0 where
  toPerforms := .nil
  notes {root others ctx s p q t t' seen seen'} _ _ _ _ hrun := by
    cases hrun
    exact .none seen s.next

theorem append (hb : Meets o levels inTag covered bs f old)
    (hc : Meets o levels inTag covered cs g old') :
    Meets o levels inTag covered (bs ++ cs) (f.andThen g) (old + old') where
  toPerforms := hb.toPerforms.append hc.toPerforms
  notes {root others ctx s p q t t' seen seen'} hctx hin hcov h hrun := by
    have hwide : s.Fits root (nodesAll none ((ctx.widen [] cs).plug bs) + others) p t := by
      refine h.congr ?_
      rw [plug_widen_of_ne_top _ _ _ _ hctx.ne_top, List.nil_append]
    rw [List.map_append, visitEach_append] at hrun
    obtain ⟨_, ⟨⟨p₁, seen₁⟩, t₁⟩, hfirst, hlast⟩ := Walk.exists_of_bind_eq_ok hrun
    have hfits := (hb.takes (hctx.widen _ _) (by simpa) (by simpa) hwide).of_run (hb.le s)
      ((retraces_visitEach _ _ _).eq_ok hfirst)
    have hrest : (f s).2.Fits root (nodesAll none ((ctx.grow (f s).1).plug cs) + others) p₁ t₁ := by
      refine hfits.congr ?_
      rw [grow_widen, plug_widen_of_ne_top _ _ _ _ (hctx.grow _).ne_top, List.nil_append,
        List.nil_append]
    have hnotes := hb.notes (hctx.widen _ _) (by simpa) (by simpa) hwide hfirst
    have hnotes' := hc.notes (hctx.grow _) (by simpa) (by simpa) hrest hlast
    exact hnotes.trans hnotes' (hb.le s) (hc.le _)

theorem below (hcs : Meets o levels (a.kind.isOpenTag || inTag)
      (a.kind.isOpenTag || a.kind.isTemplate || covered) cs f old)
    (hctx : ctx.Rooted) (hin : ctx.inTag = inTag) (hcov : ctx.covered = covered)
    (h : s.Fits root (nodesAll none (ctx.plug [.node a cs]) + others) p t)
    (hrun : ((stations o).noting.visitEach ((stations o).noting.walk levels)
      (t.children a.id)).run.run ((p, seen), t) = .ok (.ok (), (q, seen'), t')) :
    Notes seen seen' old s.next (f s).2.next := by
  have hchildren := h.holds.shows_plug.children_eq
  rw [id_node, children_node] at hchildren
  rw [hchildren] at hrun
  have hwithin : s.Fits root (nodesAll none ((within ctx a [] []).plug cs) + others) p t := by
    refine h.congr ?_
    rw [plug, List.nil_append, List.append_nil]
  refine hcs.notes (hctx.within _ _ _) ?_ ?_ hwithin hrun
  · rw [inTag_within, hin]
  · rw [covered_within, hcov]

/-- What is noted at a node and below it, where the walk goes on to the children. -/
theorem of_before (hperforms : Performs o (levels + 1) inTag covered [.node a cs] f)
    (hbefore : ∀ {root : NodeId} {others : Multiset Node} {ctx : Context} {s : Tally}
      {p p₁ : Progress} {t t₁ : Tree} {go : Bool}, ctx.Rooted → ctx.inTag = inTag →
        ctx.covered = covered → s.Fits root (nodesAll none (ctx.plug [.node a cs]) + others) p t →
          (((stations o).station a.kind).before a.id).run.run (p, t) = .ok (.ok go, p₁, t₁) →
            go = true ∧ ∀ {seen seen' : List NodeId} {q : Progress} {t' : Tree},
              ((stations o).noting.visitEach ((stations o).noting.walk levels)
                (t₁.children a.id)).run.run ((p₁, seen), t₁) = .ok (.ok (), (q, seen'), t') →
                  Notes seen seen' old s.next (f s).2.next) :
    Meets o (levels + 1) inTag covered [.node a cs] f ({a.id} + old) where
  toPerforms := hperforms
  notes {root others ctx s p q t t' seen seen'} hctx hin hcov h hrun := by
    obtain ⟨go, p₁, t₁, hgo, hbelow⟩ :=
      Stations.exists_below_run h.holds.shows_plug.get? hrun
    obtain ⟨rfl, hnotes⟩ := hbefore hctx hin hcov h hgo
    rcases hbelow with ⟨hstop, -⟩ | ⟨-, _, _, hchildren⟩
    · cases hstop
    · exact (hnotes hchildren).cons

theorem descend (hstation : (stations o).station a.kind = {})
    (hperforms : Performs o (levels + 1) inTag covered [.node a cs] (f.under inTag a))
    (hcs : Meets o levels (a.kind.isOpenTag || inTag)
      (a.kind.isOpenTag || a.kind.isTemplate || covered) cs f old) :
    Meets o (levels + 1) inTag covered [.node a cs] (f.under inTag a) ({a.id} + old) := by
  refine of_before hperforms ?_
  intro root others ctx s p p₁ t t₁ go hctx hin hcov h hgo
  rw [hstation] at hgo
  cases hgo
  exact ⟨rfl, hcs.below hctx hin hcov h⟩

theorem plain (hkind : a.kind.isPlain = true) (hcs : Meets o levels inTag covered cs f old) :
    Meets o (levels + 1) inTag covered [.node a cs] (f.under inTag a) ({a.id} + old) := by
  refine descend ?_ (hcs.toPerforms.plain hkind) ?_
  · cases hk : a.kind with
    | file _ _ | template _ _ | openTag _ _ | htmlAttribute | logBlock _ =>
        rw [hk] at hkind
        cases hkind
    | _ => rfl
  · rwa [NodeKind.isOpenTag_of_isPlain hkind, NodeKind.isTemplate_of_isPlain hkind]

theorem openTag (hkind : a.kind.isOpenTag = true) (hcs : Meets o levels true true cs f old) :
    Meets o (levels + 1) inTag covered [.node a cs] (f.under inTag a) ({a.id} + old) := by
  refine descend ?_ (hcs.toPerforms.openTag hkind) ?_
  · cases hk : a.kind with
    | openTag _ _ => rfl
    | _ =>
        rw [hk] at hkind
        cases hkind
  · rwa [hkind]

theorem dependency {path : String} (ha : a.kind = .file path .dependency) :
    Meets o (levels + 1) inTag covered [.node a cs] (.still [.node a cs]) {a.id} where
  toPerforms := .dependency ha
  notes {root others ctx s p q t t' seen seen'} _ _ _ h hrun := by
    have hkind := h.holds.shows_plug.kind_eq
    rw [kind_node, ha] at hkind
    obtain ⟨go, p₁, t₁, hgo, hbelow⟩ :=
      Stations.exists_below_run h.holds.shows_plug.get? hrun
    have hstops : Walk.Takes s.next s.next (((stations o).station a.kind).before a.id) (p, t)
        fun go _ _ => go = false := by
      rw [ha]
      exact Walk.Takes.bind_tree (Walk.Takes.bind_ok hkind (Walk.Takes.pure rfl))
    obtain rfl := hstops.of_run (Nat.le_refl _) hgo
    rcases hbelow with ⟨-, rfl⟩ | ⟨hgoes, -⟩
    · have hnotes := (Notes.none (seen ++ [a.id]) s.next).cons
      rwa [add_zero] at hnotes
    · cases hgoes

theorem source {path : String} (ha : a.kind = .file path .source)
    (hcs : Meets o levels inTag covered cs f old) :
    Meets o (levels + 1) inTag covered [.node a cs] (fun s => f.under inTag a s.enterFile)
      ({a.id} + old) := by
  refine of_before (hcs.toPerforms.source ha) ?_
  intro root others ctx s p p₁ t t₁ go hctx hin hcov h hgo
  have hkind := h.holds.shows_plug.kind_eq
  rw [kind_node, ha] at hkind
  have hp := h.progress_eq
  subst hp
  have hgoes : Walk.Takes s.next s.next (((stations o).station a.kind).before a.id)
      (⟨⟨s.number⟩, s.report⟩, t) fun go p' t' =>
        go = true ∧ p' = ⟨⟨s.number⟩, s.enterFile.report⟩ ∧ t' = t := by
    rw [ha]
    refine Walk.Takes.bind_tree (Walk.Takes.bind_ok hkind ?_)
    exact Takes.pure ⟨true, rfl, rfl, rfl, rfl⟩
  obtain ⟨rfl, rfl, rfl⟩ := hgoes.of_run (Nat.le_refl _) hgo
  refine ⟨rfl, ?_⟩
  intro seen seen' q t' hrun
  have hfile : s.enterFile.Fits root (nodesAll none (ctx.plug [.node a cs]) + others) _ t₁ :=
    ⟨rfl, h.number_le, h.number_lt, h.holds⟩
  refine below (f := f) ?_ hctx hin hcov hfile hrun
  rwa [ha]

theorem template {name : String} {contentKind : ContentKind}
    (ha : a.kind = .template name contentKind) (hcs : Meets o levels inTag true cs f old) :
    Meets o (levels + 1) inTag covered [.node a cs] (fun s => f.under inTag a s.enterTemplate)
      ({a.id} + old) := by
  refine of_before (hcs.toPerforms.template ha) ?_
  intro root others ctx s p p₁ t t₁ go hctx hin hcov h hgo
  have hp := h.progress_eq
  subst hp
  rw [ha] at hgo
  cases hgo
  refine ⟨rfl, ?_⟩
  intro seen seen' q t' hrun
  have htemplate : s.enterTemplate.Fits root (nodesAll none (ctx.plug [.node a cs]) + others) _ t :=
    ⟨rfl, Nat.zero_le _, (by decide : 0 < maxWord), h.holds⟩
  refine below (f := f) ?_ hctx hin hcov htemplate hrun
  rwa [ha]

theorem block {block : LogBlock} {tag : Item} {tcs rest : List Branch} {f : Nat → Work Item Tally}
    (ha : a.kind = .logBlock block) (hid : block.loggingId.isSome = true)
    (htag : tag.kind.isOpenTag = true)
    (hcs : ∀ next, ∃ more ≤ idsBetween next (next + 6), Meets o levels inTag covered
      (.node tag (tcs ++ [(block.mark (.node tag tcs) next).branch o]) :: rest) (f next)
        (old + more)) :
    Meets o (levels + 1) inTag covered [.node a (.node tag tcs :: rest)]
      (fun s => f s.next s.markBlock) ({a.id} + old) := by
  have hperforms : ∀ next, Performs o levels inTag covered
      (.node tag (tcs ++ [(block.mark (.node tag tcs) next).branch o]) :: rest) (f next) := by
    intro next
    obtain ⟨more, -, h⟩ := hcs next
    exact h.toPerforms
  refine of_before (.block ha hid htag hperforms) ?_
  intro root others ctx s p p₁ t t₁ go hctx hin hcov h hgo
  rw [ha] at hgo
  obtain ⟨_, _, hmark, hend⟩ := Walk.exists_of_bind_eq_ok hgo
  cases hend
  have hfits := (takes_instrumentBlock ha hid htag h).of_run (Nat.le_add_right _ _) hmark
  obtain ⟨more, hmore, hbelow⟩ := hcs s.next
  refine ⟨rfl, ?_⟩
  intro seen seen' q t' hrun
  have hnotes : Notes seen seen' (old + more) (s.next + 6) (f s.next s.markBlock).2.next := by
    refine below (f := f s.next) ?_ hctx hin hcov hfits hrun
    rwa [ha]
  exact hnotes.made hmore (Nat.le_add_right _ _) ((hperforms s.next).le s.markBlock)

theorem move {name value : Branch} {rest : List Branch} {call : LoggingCall}
    {calls : List LoggingCall} {f : Tally → Work Item Tally} (ha : a.kind = .htmlAttribute)
    (hcalls : value.loggingCalls = call :: calls)
    (hcs : ∀ s, ∃ more ≤ idsBetween s.next (moveOut o a name call s).tally.next,
      Meets o levels inTag true
        ((moveOut o a name call s).name :: (moveOut o a name call s).value :: rest) (f s)
          (old + more)) :
    Meets o (levels + 1) inTag true [.node a (name :: value :: rest)]
      (fun s =>
        let m := moveOut o a name call s
        (m.growth inTag ++ ((f s).under inTag a m.tally).1, ((f s).under inTag a m.tally).2))
      ({a.id} + old) := by
  have hperforms : ∀ s, Performs o levels inTag true
      ((moveOut o a name call s).name :: (moveOut o a name call s).value :: rest) (f s) := by
    intro s
    obtain ⟨more, -, h⟩ := hcs s
    exact h.toPerforms
  refine of_before (.move ha hcalls hperforms) ?_
  intro root others ctx s p p₁ t t₁ go hctx hin hcov h hgo
  rw [ha] at hgo
  obtain ⟨_, _, hmove, hend⟩ := Walk.exists_of_bind_eq_ok hgo
  cases hend
  have hle := Nat.le_of_add_right_le (add_eight_le_moveOut o a name call s)
  have hfits := (takes_instrumentAttribute hcalls hctx hcov h).of_run hle hmove
  obtain ⟨more, hmore, hbelow⟩ := hcs s
  refine ⟨rfl, ?_⟩
  intro seen seen' q t' hrun
  have hnotes : Notes seen seen' (old + more) (moveOut o a name call s).tally.next
      (f s (moveOut o a name call s).tally).2.next := by
    have hgrown : (ctx.grow ((moveOut o a name call s).growth ctx.inTag)).inTag = inTag := by
      rw [inTag_grow, hin]
    have hstays : (ctx.grow ((moveOut o a name call s).growth ctx.inTag)).covered = true := by
      rw [covered_grow, hcov]
    refine below (f := f s) ?_ (hctx.grow _) hgrown hstays hfits hrun
    rwa [ha]
  exact hnotes.made hmore hle ((hperforms s).le _)

theorem unmoved (ha : a.kind = .htmlAttribute) (hcalls : valueCalls cs = [])
    (hcs : Meets o levels inTag covered cs f old) :
    Meets o (levels + 1) inTag covered [.node a cs] (f.under inTag a) ({a.id} + old) := by
  refine of_before (.unmoved ha hcalls hcs.toPerforms) ?_
  intro root others ctx s p p₁ t t₁ go hctx hin hcov h hgo
  have hinValue := h.holds.shows_plug.loggingCallsInValue_eq h.holds.height_le_size_of_plug
  rw [id_node, children_node, hcalls] at hinValue
  rw [ha] at hgo
  obtain ⟨_, _, hidle, hend⟩ := Walk.exists_of_bind_eq_ok hgo
  cases hend
  have hfits := (takes_instrumentAttribute_idle hinValue h).of_run (Nat.le_refl _) hidle
  refine ⟨rfl, ?_⟩
  intro seen seen' q t' hrun
  refine below (f := f) ?_ hctx hin hcov hfits hrun
  rwa [ha]

theorem still_cons (hb : Meets o levels inTag covered [b] (.still [b]) old)
    (hbs : Meets o levels inTag covered bs (.still bs) old') :
    Meets o levels inTag covered (b :: bs) (.still (b :: bs)) (old + old') :=
  hb.append hbs

theorem still_plain (hkind : a.kind.isPlain = true)
    (hcs : Meets o levels inTag covered cs (.still cs) old) :
    Meets o (levels + 1) inTag covered [.node a cs] (.still [.node a cs]) ({a.id} + old) :=
  Work.still_under hkind inTag cs ▸ hcs.plain hkind

theorem still_leaf {next : Nat} {kind : NodeKind} {location : Location}
    (hkind : kind.isPlain = true) :
    Meets o (levels + 1) inTag covered [leaf next kind location]
      (.still [leaf next kind location]) {⟨next⟩} :=
  still_plain hkind nil

theorem still_placeholder {next : Nat} {text : String} {location : Location} :
    Meets o (levels + 2) inTag covered [placeholder next text location]
      (.still [placeholder next text location]) ({⟨next⟩} + {⟨next + 1⟩}) :=
  still_plain rfl (still_leaf rfl)

/-- The walk comes to a marker below the open tag that it has just been added to. -/
theorem mark (m : Mark) : ∃ more ≤ idsBetween m.next (m.next + 6),
    Meets o (levels + 5) true true [m.branch o] (rewriteMark o (some m)) more := by
  let attr : Item := ⟨⟨m.next⟩, .htmlAttribute, m.place⟩
  let name : Branch := leaf (m.next + 1) (.print (markerName o) true) m.place
  let value : Branch := .node ⟨⟨m.next + 2⟩, .attributeValue .none, m.place⟩
    [leaf (m.next + 3) (.print m.value true) m.place]
  have hvalue : value.loggingCalls = m.value.loggingCalls := by
    simp [value, leaf, loggingCalls, loggingCallsAll, NodeKind.exprs]
  have hshape : m.branch o = metadataIf (m.next + 4) (.node attr [name, value]) m.place := rfl
  cases hcalls : m.value.loggingCalls with
  | nil =>
      have hnone : valueCalls [name, value] = [] := hvalue.trans hcalls
      have hwork : rewriteMark o (some m) = .still [m.branch o] := by
        funext s
        rw [rewriteMark, hcalls]
        rfl
      have hattr : Meets o (levels + 3) true true [.node attr [name, value]]
          (.still [.node attr [name, value]])
          ({⟨m.next⟩} + ({⟨m.next + 1⟩} + ({⟨m.next + 2⟩} + {⟨m.next + 3⟩}))) := by
        refine unmoved rfl hnone (still_cons (still_leaf rfl) ?_)
        exact still_plain rfl (still_leaf rfl)
      rw [hwork, hshape]
      refine ⟨_, ?_, still_plain rfl (still_plain rfl hattr)⟩
      refine le_idsBetween [m.next + 4, m.next + 5, m.next, m.next + 1, m.next + 2, m.next + 3] ?_ ?_
      · simp
      · simp
  | cons call calls =>
      have hwork : rewriteMark o (some m) = fun s =>
          ((moveOut o attr name call s).growth true ++ .only (metadataIf (m.next + 4)
            (.node attr [(moveOut o attr name call s).name, (moveOut o attr name call s).value])
              m.place), (moveOut o attr name call s).tally) := by
        funext s
        rw [rewriteMark, hcalls]
      have hmoved : ∀ s : Tally,
          ∃ more ≤ idsBetween s.next (moveOut o attr name call s).tally.next,
            Meets o (levels + 2) true true
              [(moveOut o attr name call s).name, (moveOut o attr name call s).value]
              (.still [(moveOut o attr name call s).name, (moveOut o attr name call s).value])
                (0 + more) := by
        intro s
        refine ⟨{⟨s.next + 1⟩} + ({⟨s.next + 8⟩} + {⟨s.next + 9⟩}), ?_, ?_⟩
        · refine le_idsBetween [s.next + 1, s.next + 8, s.next + 9] ?_ ?_
          · simp
          · simp [tally_moveOut, Tally.moveCall, name, leaf, isLiteral, Rose.kind]
        · rw [zero_add]
          exact still_cons (still_leaf rfl) still_placeholder
      have hattr : Meets o (levels + 3) true true [.node attr [name, value]] (fun s =>
          ((moveOut o attr name call s).growth true ++ .only (.node attr
            [(moveOut o attr name call s).name, (moveOut o attr name call s).value]),
              (moveOut o attr name call s).tally)) ({⟨m.next⟩} + 0) :=
        move rfl (hvalue.trans hcalls) hmoved
      rw [hwork, hshape]
      refine ⟨_, ?_, plain rfl (plain rfl hattr)⟩
      refine le_idsBetween [m.next + 4, m.next + 5, m.next] ?_ ?_
      · simp
      · simp

end Meets

namespace Rose

/-- The ids of the branches themselves, and not of what is below them. -/
def topIds (bs : List Branch) : Multiset NodeId :=
  ↑(bs.map Rose.id)

theorem topIds_cons (b : Branch) (bs : List Branch) : topIds (b :: bs) = {b.id} + topIds bs :=
  rfl

theorem topIds_append (bs cs : List Branch) : topIds (bs ++ cs) = topIds bs + topIds cs := by
  rw [topIds, List.map_append, ← Multiset.coe_add, topIds, topIds]

end Rose

theorem Meets.marked (m : Mark) (htag : a.kind.isOpenTag = true) (hlevels : 5 ≤ levels)
    (hcs : Meets o levels true true cs (rewriteAll o true cs) (topIds (walkedAll cs))) :
    ∃ more ≤ idsBetween m.next (m.next + 6),
      Meets o (levels + 1) inTag covered [.node a (cs ++ [m.branch o])]
        (rewrite o inTag (some m) (.node a cs)) (topIds (node a cs).walked + more) := by
  obtain ⟨levels, rfl⟩ := Nat.exists_eq_add_of_le' hlevels
  obtain ⟨more, hmore, hmark⟩ : ∃ more ≤ idsBetween m.next (m.next + 6),
      Meets o (levels + 5) true true [m.branch o] (rewriteMark o (some m)) more := Meets.mark m
  refine ⟨more, hmore, ?_⟩
  rw [rewrite_openTag htag, walked_openTag htag, topIds_cons, add_assoc {(node a cs).id}]
  exact (hcs.append hmark).openTag htag

theorem Meets.movedName {name : Branch} {call : LoggingCall} {s : Tally}
    (hname : Meets o levels inTag covered [name] (rewrite o inTag none name) (topIds name.walked))
    (hlevels : 1 ≤ levels) : ∃ more ≤ idsBetween s.next (s.next + 2),
      Meets o levels inTag covered [(moveOut o a name call s).name]
        (if name.isLiteral then rewrite o inTag none name
          else .still [(moveOut o a name call s).name])
        (topIds (if name.isLiteral then name.walked else []) + more) := by
  cases hlit : name.isLiteral with
  | true =>
      obtain ⟨text, htext⟩ := exists_text_of_isLiteral hlit
      refine ⟨0, Multiset.zero_le _, ?_⟩
      rwa [if_pos rfl, if_pos rfl, moveOut_literal htext, add_zero]
  | false =>
      obtain ⟨levels, rfl⟩ := Nat.exists_eq_add_of_le' hlevels
      refine ⟨{⟨s.next + 1⟩}, le_idsBetween [s.next + 1] (by simp) (by simp), ?_⟩
      rw [if_neg Bool.false_ne_true, if_neg Bool.false_ne_true, moveOut_computed hlit]
      exact still_leaf rfl

theorem Meets.movedValue (a : Item) (name : Branch) (call : LoggingCall) (s : Tally)
    (hlevels : 2 ≤ levels) :
    ∃ more ≤ idsBetween (s.next + 2) (moveOut o a name call s).tally.next,
      Meets o levels inTag covered [(moveOut o a name call s).value]
        (.still [(moveOut o a name call s).value]) more := by
  obtain ⟨levels, rfl⟩ := Nat.exists_eq_add_of_le' hlevels
  rw [moveOut]
  split
  · refine ⟨_, le_idsBetween [s.next + 6, s.next + 7] ?_ ?_, still_placeholder⟩
    · simp
    · simp [Tally.moveCall]
  · refine ⟨_, le_idsBetween [s.next + 8, s.next + 9] ?_ ?_, still_placeholder⟩
    · simp
    · simp [Tally.moveCall]

theorem hereditary_meets (o : InstrumentOptions) : Hereditary
    (fun inTag covered b => ∀ levels, b.height + 5 ≤ levels →
      Meets o levels inTag covered [b] (rewrite o inTag none b) (topIds b.walked))
    (fun inTag covered bs => ∀ levels, heightAll bs + 5 ≤ levels →
      Meets o levels inTag covered bs (rewriteAll o inTag bs) (topIds (walkedAll bs))) where
  nil levels _ := by
    rw [rewriteAll_nil]
    exact .nil
  cons hb hbs levels hlevels := by
    rw [heightAll] at hlevels
    rw [rewriteAll_cons, walkedAll, topIds_append]
    exact (hb levels (by omega)).append (hbs levels (by omega))
  dependency hkind levels hlevels := by
    obtain ⟨levels, rfl, -⟩ := exists_levels hlevels
    rw [rewrite_dependency hkind, walked_dependency hkind]
    exact .dependency hkind
  source hkind hcs levels hlevels := by
    obtain ⟨levels, rfl, hbelow⟩ := exists_levels hlevels
    rw [rewrite_source hkind, walked_source hkind]
    exact (hcs levels hbelow).source hkind
  template hkind hcs levels hlevels := by
    obtain ⟨levels, rfl, hbelow⟩ := exists_levels hlevels
    rw [rewrite_template hkind, walked_template hkind]
    exact (hcs levels hbelow).template hkind
  openTag {inTag covered a cs} htag hcs levels hlevels := by
    obtain ⟨levels, rfl, hbelow⟩ := exists_levels hlevels
    have hopen : Meets o (levels + 1) inTag covered [.node a (cs ++ [])]
        (rewrite o inTag none (.node a cs)) ({a.id} + (topIds (walkedAll cs) + 0)) := by
      rw [rewrite_openTag htag]
      exact ((hcs levels hbelow).append .nil).openTag htag
    rw [List.append_nil, add_zero] at hopen
    rwa [walked_openTag htag]
  block {inTag covered a block tag attrs rest} hkind hid htag hattrs hrest levels hlevels := by
    obtain ⟨levels, rfl, hbelow⟩ := exists_levels hlevels
    rw [heightAll] at hbelow
    have htagLevels : (Rose.node tag attrs).height + 5 ≤ levels := by
      omega
    have hrest := hrest levels (by omega)
    obtain ⟨levels, rfl, hattrLevels⟩ := exists_levels htagLevels
    -- The marker is the last child of the tag, which comes before the rest of the block.
    have hcs : ∀ next, ∃ more ≤ idsBetween next (next + 6), Meets o (levels + 1) inTag covered
        (.node tag (attrs ++ [(block.mark (.node tag attrs) next).branch o]) :: rest)
          ((rewrite o inTag (some (block.mark (.node tag attrs) next)) (.node tag attrs)).andThen
            (rewriteAll o inTag rest)) (topIds (walkedAll (.node tag attrs :: rest)) + more) := by
      intro next
      obtain ⟨more, hmore, hmarked⟩ : ∃ more ≤ idsBetween next (next + 6),
          Meets o (levels + 1) inTag covered
            [.node tag (attrs ++ [(block.mark (.node tag attrs) next).branch o])]
            (rewrite o inTag (some (block.mark (.node tag attrs) next)) (.node tag attrs))
            (topIds (Rose.node tag attrs).walked + more) :=
        Meets.marked (block.mark (.node tag attrs) next) htag (by omega) (hattrs levels hattrLevels)
      refine ⟨more, hmore, ?_⟩
      rw [walkedAll, topIds_append, add_right_comm]
      exact hmarked.append hrest
    rw [rewrite_logBlock hkind, walked_block hkind]
    exact .block hkind hid htag hcs
  unmoved hkind hcalls hcs levels hlevels := by
    obtain ⟨levels, rfl, hbelow⟩ := exists_levels hlevels
    rw [rewrite_attribute hkind hcalls, walked_attribute hkind hcalls]
    exact (hcs levels hbelow).unmoved hkind hcalls
  moved {inTag a name value rest call} hkind hcalls hname hrest levels hlevels := by
    obtain ⟨levels, rfl, hbelow⟩ := exists_levels hlevels
    rw [heightAll, heightAll] at hbelow
    have hname := hname levels (by omega)
    have hrest := hrest levels (by omega)
    have hcs : ∀ s : Tally, ∃ more ≤ idsBetween s.next (moveOut o a name call s).tally.next,
        Meets o levels inTag true
          ((moveOut o a name call s).name :: (moveOut o a name call s).value :: rest)
            (((if name.isLiteral then rewrite o inTag none name
              else .still [(moveOut o a name call s).name]).andThen
                (.still [(moveOut o a name call s).value])).andThen (rewriteAll o inTag rest))
              (topIds ((if name.isLiteral then name.walked else []) ++ walkedAll rest) + more) := by
      intro s
      obtain ⟨more, hmore, hname⟩ := hname.movedName (by omega)
      obtain ⟨more', hmore', hvalue⟩ :
          ∃ more ≤ idsBetween (s.next + 2) (moveOut o a name call s).tally.next,
            Meets o levels inTag true [(moveOut o a name call s).value]
              (.still [(moveOut o a name call s).value]) more :=
        Meets.movedValue a name call s (by omega)
      refine ⟨more + more', ?_, ?_⟩
      · rw [← idsBetween_add (Nat.le_add_right _ 2)
          (Nat.le_trans (by omega) (add_eight_le_moveOut o a name call s))]
        exact add_le_add hmore hmore'
      · rw [topIds_append, add_add_add_comm, ← add_assoc, add_right_comm]
        exact (hname.append hvalue).append hrest
    rw [rewrite_move hkind hcalls, walked_move hkind hcalls]
    exact .move hkind hcalls hcs
  plain hplain hcs levels hlevels := by
    obtain ⟨levels, rfl, hbelow⟩ := exists_levels hlevels
    rw [rewrite_plain hplain, walked_plain hplain]
    exact (hcs levels hbelow).plain hplain

namespace Rose

mutual

theorem topIds_walked_le : ∀ b : Branch, topIds b.walked ≤ (b.ids : Multiset NodeId)
  | node a cs => by
      have hcs := topIds_walkedAll_le cs
      rw [walked.eq_def, topIds_cons, ids_node, ← Multiset.cons_coe, ← Multiset.singleton_add]
      refine add_le_add_right ?_ _
      split
      · exact Multiset.zero_le _
      · split
        · rename_i name value rest _ _ _
          have hname : topIds (if name.isLiteral then name.walked else []) ≤
              (name.ids : Multiset NodeId) := by
            split
            · exact topIds_walked_le name
            · exact Multiset.zero_le _
          rw [topIds_append, idsAll_cons, idsAll_cons, ← Multiset.coe_add, ← Multiset.coe_add]
          exact add_le_add hname ((topIds_walkedAll_le rest).trans (Multiset.le_add_left _ _))
        · exact hcs
      · exact hcs

theorem topIds_walkedAll_le : ∀ bs : List Branch,
    topIds (walkedAll bs) ≤ (idsAll bs : Multiset NodeId)
  | [] => Multiset.zero_le _
  | b :: bs => by
      rw [walkedAll, topIds_append, idsAll_cons, ← Multiset.coe_add]
      exact add_le_add (topIds_walked_le b) (topIds_walkedAll_le bs)

end

theorem mem_idsAll_of_mem_topIds {id : NodeId} (hid : id ∈ topIds (walkedAll cs)) :
    id ∈ idsAll cs :=
  Multiset.mem_coe.mp (Multiset.mem_of_le (topIds_walkedAll_le cs) hid)

end Rose

namespace Tree

/-- The number of nodes on the longest way down from the root. -/
def height (t : Tree) : Nat :=
  heightAll (t.read t.size t.root)

variable {next : Nat}

/-- The number of levels makes no difference to an instrumentation, if there are enough. -/
theorem Holds.instrumentWithin_eq (h : t.Holds root next ((Rose.node a cs).nodes none + others))
    (hroot : a.id = root) (hkind : a.kind = .fileSet) (hready : ∀ b ∈ cs, b.FileReady)
    (hlevels : heightAll cs + 5 ≤ levels) : t.instrumentWithin levels o = t.instrument o := by
  have hwithin := (h.congr (congrArg (· + others) (nodesAll_singleton _).symm)).instrumentWithin
    (o := o) hroot hkind hready hlevels
  refine hwithin.eq (h.takes_instrument hroot hkind hready) (next_le_rewriteAll hready o next) ?_
  rintro ⟨r, t₁⟩ ⟨r', t₂⟩ ⟨rfl, h₁⟩ ⟨rfl, h₂⟩
  rw [nodesAll_singleton] at h₁
  have htree : t₁ = t₂ := h₁.unique h₂
  rw [htree]

theorem Holds.exists_seen {progress : Progress}
    (h : t.Holds root next ((Rose.node a cs).nodes none + others)) (hroot : a.id = root)
    (hkind : a.kind = .fileSet) (hready : ∀ b ∈ cs, b.FileReady)
    (hlevels : heightAll cs + 5 ≤ levels)
    (hrun : ((visitor o).walkRoot levels).run.run ({}, t) = .ok (.ok (), progress, t')) :
    ∃ seen, ((stations o).noting.walkRoot levels).run.run (({}, []), t) =
        .ok (.ok (), (progress, seen), t') ∧
      Notes [] seen (topIds (walkedAll cs)) next (rewriteAll o false cs (.start next)).2.next := by
  rw [← visitor_stations] at hrun
  obtain ⟨seen, hseen⟩ := (Walk.Retraces.walkRoot _ _).exists_of_eq_ok hrun []
  refine ⟨seen, hseen, ?_⟩
  obtain ⟨go, p, u, hgo, hbelow⟩ := Stations.exists_root_run hseen
  cases hgo
  rcases hbelow with ⟨hstop, -⟩ | ⟨-, q, t₁, hchildren⟩
  · cases hstop
  · rw [h.children_root hroot] at hchildren
    have hmeets : Meets o levels false false cs (rewriteAll o false cs) (topIds (walkedAll cs)) :=
      (hereditary_meets o).of_files hready levels hlevels
    have hrooted : (Context.within .top a [] []).Rooted := ⟨a, rfl, hkind⟩
    refine hmeets.notes hrooted ?_ ?_ h.fits_start hchildren
    · rw [inTag_within, hkind]
      rfl
    · rw [covered_within, hkind]
      rfl

theorem Holds.index_lt_of_mem_topIds {id : NodeId}
    (h : t.Holds root next ((Rose.node a cs).nodes none + others))
    (hid : id ∈ topIds (walkedAll cs)) : id.index < next := by
  have hmem : id ∈ (Rose.node a cs).ids := by
    rw [ids_node]
    exact List.mem_cons_of_mem _ (mem_idsAll_of_mem_topIds hid)
  obtain ⟨n, hn, rfl⟩ := (Rose.mem_ids_iff none).mp hmem
  exact h.below n (Multiset.mem_add.mpr (Or.inl hn))

theorem Holds.nodup_topIds (h : t.Holds root next ((Rose.node a cs).nodes none + others)) :
    (topIds (walkedAll cs)).Nodup := by
  have hnodup := h.nodup_ids
  rw [ids_node, List.nodup_cons] at hnodup
  exact Multiset.nodup_of_le (topIds_walkedAll_le cs) (Multiset.coe_nodup.mpr hnodup.2)

theorem Holds.mem_visits_iff (h : t.Holds root next ((Rose.node a cs).nodes none + others))
    (hroot : a.id = root) (hkind : a.kind = .fileSet) (id : NodeId) :
    id ∈ t.visits ∧ id ≠ root ↔ id ∈ topIds (walkedAll cs) := by
  rw [visits, h.read_eq hroot, walkedAll, walkedAll,
    walked_plain (NodeKind.isPlain_of_fileSet hkind), List.append_nil, List.map_cons,
    List.mem_cons, id_node, ← hroot]
  constructor
  · rintro ⟨heq | hbelow, hne⟩
    · exact absurd heq hne
    · exact hbelow
  · intro hid
    refine ⟨Or.inr hid, ?_⟩
    rintro rfl
    have hnodup := h.nodup_ids
    rw [ids_node, List.nodup_cons] at hnodup
    exact hnodup.1 (mem_idsAll_of_mem_topIds hid)

/-- An instrumentation that passes the check and does not run out of ids comes to its end, and is
passed no node twice. From the nodes that were there before, these are the ones in `visits`; the
walk starts from the root and is not passed it. Four levels more than the tree has are enough. -/
theorem instrument_encounters (hwf : t.WellFormed) (o : InstrumentOptions)
    (hpreflight : t.preflight? = .ok none) (hids : t.instrument o ≠ .error .idsExhausted)
    {levels : Nat} (hlevels : t.height + 4 ≤ levels) : ∃ progress seen t',
      ((stations o).noting.walkRoot levels).run.run (({}, []), t) =
          .ok (.ok (), (progress, seen), t') ∧
        t.instrument o = .ok (.ok progress.report, t') ∧
          t.instrumentWithin levels o = .ok (.ok progress.report, t') ∧
            seen.Nodup ∧
              ∀ id, t.contains id = true → (id ∈ seen ↔ id ∈ t.visits ∧ id ≠ t.root) := by
  obtain ⟨a, cs, others, hroot, hkind, h, -⟩ := hwf.exists_holds
  have hready := h.fileReady_of_preflight hroot hkind hpreflight
  have hheight : heightAll cs + 5 ≤ levels := by
    rw [height, h.read_eq hroot, heightAll, heightAll, Rose.height] at hlevels
    omega
  obtain ⟨t', hrun, -⟩ :=
    (h.instrument_ok_or_exhausted (o := o) hroot hkind hready).resolve_right hids
  have hwithin := h.instrumentWithin_eq (o := o) hroot hkind hready hheight
  obtain ⟨⟨r, progress, u⟩, hwalk, hend⟩ := Except.exists_of_bind_eq_ok (hwithin.trans hrun)
  rw [← hend] at hrun
  cases r with
  | error fault => cases hend
  | ok _ =>
      obtain ⟨seen, hseen, hnotes⟩ := h.exists_seen hroot hkind hready hheight hwalk
      refine ⟨progress, seen, u, hseen, hrun, hwithin.trans hrun, ?_, ?_⟩
      · exact hnotes.nodup h.nodup_topIds fun id hid => h.index_lt_of_mem_topIds hid
      · intro id hid
        rw [hnotes.mem_iff (h.index_lt hid), h.mem_visits_iff hroot hkind]

theorem instrument_encounters_page : (page (some 7)).preflight? = .ok none ∧
    ∃ progress seen t',
      ((stations {}).noting.walkRoot ((page (some 7)).height + 4)).run.run
          (({}, []), page (some 7)) = .ok (.ok (), (progress, seen), t') ∧
        (page (some 7)).instrument {} = .ok (.ok progress.report, t') ∧ seen.Nodup := by
  have hwf : (page (some 7)).WellFormed := by
    decide
  have hpreflight : (page (some 7)).preflight? = .ok none := rfl
  have hids : (page (some 7)).instrument {} ≠ .error .idsExhausted := by
    obtain ⟨report, t', hrun⟩ := instrument_page
    rw [hrun]
    nofun
  obtain ⟨progress, seen, t', hwalk, hrun, -, hnodup, -⟩ :=
    instrument_encounters hwf {} hpreflight hids (Nat.le_refl _)
  exact ⟨hpreflight, progress, seen, t', hwalk, hrun, hnodup⟩

end Tree

end TemplateLogging
