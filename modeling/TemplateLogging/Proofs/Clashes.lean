import TemplateLogging.Proofs.Attached
import TemplateLogging.Proofs.Naming

namespace TemplateLogging

open Instrument Rose

variable {o : InstrumentOptions} {r : Renaming} {names : List Expr}

/-- The constant text of an expression. -/
def Expr.constantText? (r : Renaming) (e : Expr) : Option String :=
  match e.constant? r with
  | some (.string text) => some text
  | _ => none

theorem constantText?_markerName : (markerName o).constantText? r = some (markerText o r) := by
  rw [Expr.constantText?, constant?_markerName]

theorem constantText?_functionAttributeName (number : Nat) :
    (functionAttributeName o number).constantText? r = some (functionText o r number) := by
  rw [Expr.constantText?, constant?_functionAttributeName]

theorem filterMap_constantText? (numbers : List Nat) :
    (numbers.map (functionAttributeName o)).filterMap (·.constantText? r) =
      numbers.map (functionText o r) := by
  rw [List.filterMap_map, ← List.filterMap_eq_map]
  refine List.filterMap_congr fun number _ => ?_
  exact constantText?_functionAttributeName number

theorem markerText_eq_functionText {number : Nat} : markerText o r = functionText o r number ↔
    r.xid o.markerKey = r.xid o.functionKey ++ toString number := by
  rw [markerText, functionText, String.append_right_inj]

/-- No two names on a tag have the same text if and only if the numbers are distinct and none of
them after the one key gives the other key. -/
theorem MarkerNames.nodup_iff (h : MarkerNames o names) (numbers : List Nat) :
    ((names ++ numbers.map (functionAttributeName o)).filterMap (·.constantText? r)).Nodup ↔
      numbers.Nodup ∧ (names = [markerName o] → ∀ number ∈ numbers,
        r.xid o.markerKey ≠ r.xid o.functionKey ++ toString number) := by
  have hnumbers : (numbers.map (functionText o r)).Nodup ↔ numbers.Nodup :=
    List.nodup_map_iff fun m n h => functionText_inj.mp h
  rw [List.filterMap_append, filterMap_constantText?]
  rcases h with rfl | rfl | ⟨v, rfl⟩
  · rw [List.filterMap_nil, List.nil_append, hnumbers]
    exact (and_iff_left (by rintro ⟨⟩)).symm
  · rw [List.filterMap_cons_some constantText?_markerName, List.filterMap_nil,
      List.singleton_append, List.nodup_cons, hnumbers, and_comm]
    refine and_congr_right fun _ => ?_
    rw [List.mem_map]
    constructor
    · intro hnone _ number hnumber heq
      exact hnone ⟨number, hnumber, (markerText_eq_functionText.mpr heq).symm⟩
    · rintro hnone ⟨number, hnumber, heq⟩
      exact hnone rfl number hnumber (markerText_eq_functionText.mp heq.symm)
  · rw [List.filterMap_cons_none rfl, List.filterMap_nil, List.nil_append, hnumbers]
    exact (and_iff_left (by rintro ⟨⟩)).symm

namespace Tree

/-- The children of a tag that are conditions with ids from `start` on. -/
def gates (t : Tree) (start : Nat) (tag : NodeId) : List NodeId :=
  (t.children tag).filter fun child =>
    decide (start ≤ child.index) && (t.get? child).any (·.kind matches .ifBlock)

/-- The name of the attribute that a condition on logging metadata is around. -/
def guardedName? (t : Tree) (gate : NodeId) : Option Expr := do
  let branch ← t.child? gate 0
  let attr ← t.child? branch 0
  let name ← t.child? attr 0
  match t.kind branch, t.kind attr, t.kind name with
  | .ok (.ifCond (.call (.builtin .hasLoggingMetadata) [])), .ok .htmlAttribute,
      .ok (.print e true) => some e
  | _, _, _ => none

/-- The texts of the names of the synthetic attributes on a tag. -/
def attributeTexts (t : Tree) (r : Renaming) (start : Nat) (tag : NodeId) : List String :=
  (t.gates start tag).filterMap fun gate => (t.guardedName? gate).bind (·.constantText? r)

variable {t t' : Tree} {start : Nat} {parent : Option NodeId} {y : Branch} {e : Expr}
  {report : InstrumentReport}

theorem Shows.gates_eq (h : t.Shows parent y) (start : Nat) :
    t.gates start y.id = (newGates start y.children).map Rose.id := by
  rw [gates, h.children_eq, List.filter_map, newGates]
  refine congrArg _ (List.filter_congr fun c hc => ?_)
  have hc := h.children.of_mem hc
  rw [Function.comp_apply, hc.get?]
  rfl

theorem Shows.guardedName?_eq (h : t.Shows parent y) (hguards : y.Guards e) :
    t.guardedName? y.id = some e := by
  obtain ⟨next, attr, name, rest, place, rfl, hattr, hname⟩ := hguards
  have hbranch := h.children.of_mem (List.mem_singleton_self _)
  have hattribute := hbranch.children.of_mem (List.mem_singleton_self _)
  have hprint := hattribute.children.of_mem List.mem_cons_self
  rw [guardedName?, h.child?_eq]
  simp only [metadataIf, children_node, List.getElem?_cons_zero, Option.map_some,
    Option.bind_eq_bind, Option.bind_some, hbranch.child?_eq, hattribute.child?_eq,
    hbranch.kind_eq, hattribute.kind_eq, hprint.kind_eq, kind_node, hattr, hname]

theorem map_guardedName? {gates : List Branch} (h : ∀ b ∈ gates, t.Shows parent b)
    (hguards : List.Forall₂ Guards gates names) :
    (gates.map Rose.id).map t.guardedName? = names.map some := by
  induction hguards with
  | nil => rfl
  | cons hguards _ ih =>
      obtain ⟨hgate, hgates⟩ := List.forall_mem_cons.mp h
      rw [List.map_cons, List.map_cons, hgate.guardedName?_eq hguards, ih hgates, List.map_cons]

theorem Shows.guardedNames_eq (h : t.Shows parent y) (hguards : GuardAll start y.children names) :
    (t.gates start y.id).map t.guardedName? = names.map some := by
  rw [h.gates_eq]
  exact map_guardedName? (fun b hb => h.children.of_mem (List.mem_of_mem_filter hb)) hguards

section

variable {root : NodeId} {next : Nat} {others : Multiset Node} {a : Item} {cs : List Branch}

theorem Holds.gates_eq_nil (h : t.Holds root next ((Rose.node a cs).nodes none + others))
    (hclosed : Closed others) (hold : ∀ n ∈ others, n.id.index < start) {id : NodeId}
    (hid : id ∉ (Rose.node a cs).ids) : t.gates start id = [] := by
  rw [gates, List.filter_eq_nil_iff]
  intro child hchild hnew
  obtain ⟨-, n, hn, rfl⟩ := h.mem_others_of_child hclosed hid hchild
  rw [Bool.and_eq_true, decide_eq_true_eq] at hnew
  exact Nat.not_lt_of_le hnew.1 (hold n hn)

end

theorem WellFormed.exists_tagged (hwf : t.WellFormed)
    (hrun : t.instrument o = .ok (.ok report, t')) {tag : NodeId} {kind : NodeKind}
    (hkind : t'.kind tag = .ok kind) (htag : kind.isOpenTag = true) :
    ∃ (marker : List Expr) (numbers : List Nat),
      (t'.gates t.ids.next tag).map t'.guardedName? =
        (marker ++ numbers.map (functionAttributeName o)).map some ∧
      MarkerNames o marker ∧
      ((∀ v name contentKind, t.Below tag v → t.kind v ≠ .ok (.template name contentKind)) →
        numbers.Pairwise (· < ·)) := by
  obtain ⟨a, cs, others, -, hfileSet, hclosed, hready, h, -, h'⟩ := hwf.exists_run hrun
  have hattached : Attached o t.ids.next cs (rewriteAll o false cs) :=
    (compositional_attached o t.ids.next).hereditary.of_files hready
  have htags :=
    (hattached (fun x hx => h.index_lt_of_mem hx) (.start t.ids.next) (Nat.le_refl _)).tags
  rw [whole_files hready] at htags
  by_cases hmem : tag ∈ (Rose.node a (rewriteAll o false cs (.start t.ids.next)).1.forest).ids
  · have hroot : tag ≠ a.id := by
      rintro rfl
      have hkind' := h'.shows.kind_eq
      rw [id_node, kind_node, hkind, hfileSet] at hkind'
      cases hkind'
      cases htag
    rw [ids_node, List.mem_cons] at hmem
    obtain ⟨y, path, rfl, hy⟩ := exists_occursAll (hmem.resolve_left hroot)
    have hyshows := h'.shows.children.of_occurs hy
    have hykind : y.kind = kind := Except.ok.inj (hyshows.kind_eq.symm.trans hkind)
    obtain ⟨z, path', hz, hlabel, marker, numbers, hguards, hmarker, hascending⟩ :=
      htags y path hy (hykind ▸ htag)
    refine ⟨marker, numbers, hyshows.guardedNames_eq hguards, hmarker, fun hflat => hascending ?_⟩
    have hzid : z.id = y.id := congrArg Item.id hlabel
    refine h.noTemplate hz fun v name contentKind hbelow hkind => ?_
    rw [hzid] at hbelow
    exact absurd hkind (hflat v name contentKind hbelow)
  · refine ⟨[], [], ?_, Or.inl rfl, fun _ => .nil⟩
    rw [h'.gates_eq_nil hclosed (fun n hn => h.below n (Multiset.mem_add.mpr (Or.inr hn))) hmem]
    rfl

theorem attributeTexts_eq {tag : NodeId}
    (hnames : (t.gates start tag).map t.guardedName? = names.map some) (r : Renaming) :
    t.attributeTexts r start tag = names.filterMap (·.constantText? r) := by
  calc t.attributeTexts r start tag
      = ((t.gates start tag).map t.guardedName?).filterMap (·.bind (·.constantText? r)) := by
        rw [List.filterMap_map]
        rfl
    _ = (names.map some).filterMap (·.bind (·.constantText? r)) := by rw [hnames]
    _ = names.filterMap (·.constantText? r) := by
        rw [List.filterMap_map]
        rfl

/-- An open tag gets at most one marker, and after it the attributes of logging functions, with
their numbers going up if there is no template below the tag. No two names on the tag have the same
text if and only if the numbers are distinct and the key of the marker, if there is one, is not
renamed to what the key of the functions is renamed to, with one of the numbers after it. -/
theorem instrument_clashes (hwf : t.WellFormed) (hrun : t.instrument o = .ok (.ok report, t'))
    {tag : NodeId} {kind : NodeKind} (hkind : t'.kind tag = .ok kind)
    (htag : kind.isOpenTag = true) :
    ∃ (marker : List Expr) (numbers : List Nat),
      (t'.gates t.ids.next tag).map t'.guardedName? =
        (marker ++ numbers.map (functionAttributeName o)).map some ∧
      MarkerNames o marker ∧
      ((∀ v name contentKind, t.Below tag v → t.kind v ≠ .ok (.template name contentKind)) →
        numbers.Pairwise (· < ·)) ∧
      ∀ r, (t'.attributeTexts r t.ids.next tag).Nodup ↔
        numbers.Nodup ∧ (marker = [markerName o] → ∀ number ∈ numbers,
          r.xid o.markerKey ≠ r.xid o.functionKey ++ toString number) := by
  obtain ⟨marker, numbers, hnames, hmarker, hascending⟩ := hwf.exists_tagged hrun hkind htag
  refine ⟨marker, numbers, hnames, hmarker, hascending, fun r => ?_⟩
  rw [attributeTexts_eq hnames]
  exact hmarker.nodup_iff numbers

/-- A page with a logging block around a link that has a logging call in an attribute. -/
def markedLink : Tree :=
  ofNodes [
    .numbered 0 none [1] .fileSet,
    .numbered 1 (some 0) [2] (.file "page.soy" .source),
    .numbered 2 (some 1) [3] (.template "page" .html),
    .numbered 3 (some 2) [4, 9] (.logBlock ⟨"Page", some 7, none, none⟩),
    .numbered 4 (some 3) [5] (.openTag "a" false),
    .numbered 5 (some 4) [6, 7] .htmlAttribute,
    .numbered 6 (some 5) [] (.rawText "href"),
    .numbered 7 (some 5) [8] (.attributeValue .double),
    .numbered 8 (some 7) [] (.print (.call (.logging ⟨"address", "#"⟩) []) false),
    .numbered 9 (some 3) [] (.closeTag "a")]

theorem instrument_clashes_markedLink : markedLink.WellFormed ∧
    ∃ report t', markedLink.instrument {} = .ok (.ok report, t') ∧
      ∃ kind, t'.kind ⟨4⟩ = .ok kind ∧ kind.isOpenTag = true ∧
        ∃ (marker : List Expr) (numbers : List Nat),
          (t'.gates 10 ⟨4⟩).map t'.guardedName? =
            (marker ++ numbers.map (functionAttributeName {})).map some ∧
          MarkerNames {} marker ∧
          ((∀ v name contentKind, markedLink.Below ⟨4⟩ v →
            markedLink.kind v ≠ .ok (.template name contentKind)) → numbers.Pairwise (· < ·)) ∧
          ∀ r, (t'.attributeTexts r 10 ⟨4⟩).Nodup ↔
            numbers.Nodup ∧ (marker = [markerName {}] → ∀ number ∈ numbers,
              r.xid "soylog" ≠ r.xid "soyloggingfunction-" ++ toString number) := by
  have hwf : markedLink.WellFormed := by
    decide
  obtain ⟨report, t', hrun⟩ := instrument_ok_of_le (o := {}) hwf rfl (by decide)
  have hopen : (match markedLink.instrument {} with
      | .ok (.ok _, t') => (t'.get? ⟨4⟩).any (·.kind.isOpenTag)
      | _ => false) = true := by
    decide +kernel
  rw [hrun] at hopen
  obtain ⟨n, hget, htag⟩ := (Option.any_eq_true _ _).mp hopen
  have hkind : t'.kind ⟨4⟩ = .ok n.kind := by
    rw [kind, node, hget]
    rfl
  exact ⟨hwf, report, t', hrun, n.kind, hkind, htag, instrument_clashes hwf hrun hkind htag⟩

/-- The key of the functions with the number zero after it is the key of the marker. -/
def clashingOptions : InstrumentOptions where
  markerKey := "soylog0"
  functionKey := "soylog"

/-- The keys have different names, and yet the two attributes of the link have the same. -/
theorem markedLink_clash : ∃ r : Renaming, markedLink.WellFormed ∧
    markedLink.kind ⟨4⟩ = .ok (.openTag "a" false) ∧
      r.xid clashingOptions.markerKey ≠ r.xid clashingOptions.functionKey ∧
      ∃ report t', markedLink.instrument clashingOptions = .ok (.ok report, t') ∧
        t'.gates 10 ⟨4⟩ = [⟨14⟩, ⟨20⟩] ∧
          t'.attributeTexts r 10 ⟨4⟩ = ["data-soylog0", "data-soylog0"] := by
  have hwf : markedLink.WellFormed := by
    decide
  obtain ⟨report, t', hrun⟩ := instrument_ok_of_le (o := clashingOptions) hwf rfl (by decide)
  have htexts : (match markedLink.instrument clashingOptions with
      | .ok (.ok _, t') => (t'.gates 10 ⟨4⟩, t'.attributeTexts {} 10 ⟨4⟩)
      | _ => ([], [])) = ([⟨14⟩, ⟨20⟩], ["data-soylog0", "data-soylog0"]) := by
    decide +kernel
  rw [hrun, Prod.mk.injEq] at htexts
  exact ⟨{}, hwf, rfl, by decide, report, t', hrun, htexts.1, htexts.2⟩

end Tree

end TemplateLogging
