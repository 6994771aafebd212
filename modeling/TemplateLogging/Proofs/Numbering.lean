import TemplateLogging.Proofs.Census
import TemplateLogging.Proofs.Subtrees

namespace TemplateLogging

open Instrument Rose

/-- A placeholder with an id from `start` on. -/
def Item.isPlaceholder (start : Nat) (x : Item) : Bool :=
  decide (start ≤ x.id.index) && x.kind matches .attributeValue .double

/-- The node was there before, or it is none of those that a moved call leaves behind: a
placeholder, a variable, or the name of a synthetic attribute. -/
def Item.Neutral (o : InstrumentOptions) (start : Nat) (x : Item) : Prop :=
  x.id.index < start ∨ x.kind ≠ .attributeValue .double ∧ (∀ v, x.kind ≠ .letContent v) ∧
    ∀ n, x.kind ≠ .print (functionAttributeName o n) true

theorem Item.isPlaceholder_eq_false {start : Nat} {x : Item}
    (h : x.kind ≠ .attributeValue .double) : x.isPlaceholder start = false := by
  rw [isPlaceholder, Bool.and_eq_false_iff]
  refine Or.inr ?_
  split
  · exact absurd ‹_› h
  · rfl

theorem Item.Neutral.not_placeholder {o : InstrumentOptions} {start : Nat} {x : Item}
    (h : x.Neutral o start) : x.isPlaceholder start = false := by
  rcases h with hlt | ⟨hkind, -⟩
  · rw [isPlaceholder, decide_eq_false (Nat.not_le_of_lt hlt), Bool.false_and]
  · exact isPlaceholder_eq_false hkind

namespace Rose

/-- An attribute that has a placeholder for its value. -/
def isMoved (start : Nat) : Branch → Bool
  | node a (_ :: value :: _) => (a.kind matches .htmlAttribute) && value.label.isPlaceholder start
  | _ => false

/-- The attributes with placeholders for values, in pre-order. -/
def moved (start : Nat) (bs : List Branch) : List Branch :=
  (subtreesAll bs).filter (isMoved start)

def valueIndex (b : Branch) : Nat :=
  (b.children[1]?.map (·.id.index)).getD 0

/-- The name of the attribute is a reference to a variable with the id before its own. -/
def NamedBy (b : Branch) (next : Nat) (varName : String) : Prop :=
  ∃ name, b.children.head? = some name ∧ name.id = ⟨next + 1⟩ ∧
    name.kind = .print (.varRef varName) true

def NoTemplate (bs : List Branch) : Prop :=
  ∀ x ∈ labelsAll bs, x.kind.isTemplate = false

variable {o : InstrumentOptions} {start : Nat} {a : Item} {bs cs : List Branch} {y : Branch}

theorem exists_of_isMoved (h : y.isMoved start = true) : ∃ a name value rest,
    y = node a (name :: value :: rest) ∧ a.kind = .htmlAttribute ∧
      value.label.isPlaceholder start = true := by
  cases y with
  | node a cs =>
      rw [isMoved.eq_def] at h
      split at h
      · rename_i heq
        cases heq
        rw [Bool.and_eq_true] at h
        obtain ⟨hkind, hvalue⟩ := h
        split at hkind
        · exact ⟨_, _, _, _, rfl, ‹_›, hvalue⟩
        · cases hkind
      · cases h

theorem isMoved_eq_false (h : a.kind ≠ .htmlAttribute) (cs : List Branch) :
    (node a cs).isMoved start = false := by
  rw [Bool.eq_false_iff]
  intro hmoved
  obtain ⟨_, _, _, _, heq, hkind, -⟩ := exists_of_isMoved hmoved
  cases heq
  exact h hkind

theorem isMoved_node {name value : Branch} {rest : List Branch} (hkind : a.kind = .htmlAttribute)
    (hvalue : value.label.isPlaceholder start = true) :
    (node a (name :: value :: rest)).isMoved start = true := by
  rw [isMoved, hkind, hvalue]
  rfl

theorem moved_append (bs cs : List Branch) :
    moved start (bs ++ cs) = moved start bs ++ moved start cs := by
  rw [moved, subtreesAll_append, List.filter_append]
  rfl

theorem moved_of_isMoved (h : (node a cs).isMoved start = true) :
    moved start [node a cs] = node a cs :: moved start cs := by
  rw [moved, subtreesAll_singleton, List.filter_cons_of_pos h]
  rfl

theorem moved_of_not_isMoved (h : (node a cs).isMoved start = false) :
    moved start [node a cs] = moved start cs := by
  rw [moved, subtreesAll_singleton, List.filter_cons_of_neg (by rw [h]; exact Bool.false_ne_true)]
  rfl

theorem moved_eq_nil (h : ∀ x ∈ labelsAll bs, x.isPlaceholder start = false) :
    moved start bs = [] := by
  rw [moved, List.filter_eq_nil_iff]
  intro y hy hmoved
  obtain ⟨a, name, value, rest, rfl, -, hvalue⟩ := exists_of_isMoved hmoved
  obtain ⟨path, hocc⟩ := exists_occurs_of_mem_subtreesAll hy
  have hmem : value.label ∈ (node a (name :: value :: rest)).labels := by
    simp only [labels, labelsAll, List.mem_cons, List.mem_append]
    exact Or.inr (Or.inr (Or.inl value.label_mem_labels))
  rw [h _ (hocc.labels_sublist.subset hmem)] at hvalue
  cases hvalue

theorem moved_children_eq_nil {path : List Item} (h : moved start bs = [])
    (hy : Occurs y path bs) : moved start y.children = [] := by
  rw [moved, List.filter_eq_nil_iff] at h ⊢
  intro z hz
  obtain ⟨path', hz⟩ := exists_occurs_of_mem_subtreesAll hz
  obtain ⟨path, hz⟩ := hy.trans hz
  exact h z hz.mem_subtreesAll

theorem NoTemplate.append_iff : NoTemplate (bs ++ cs) ↔ NoTemplate bs ∧ NoTemplate cs := by
  simp only [NoTemplate, labelsAll_append, List.mem_append, or_imp, forall_and]

theorem noTemplate_node : NoTemplate [node a cs] ↔ a.kind.isTemplate = false ∧ NoTemplate cs := by
  simp only [NoTemplate, labelsAll, labels, List.append_nil, List.mem_cons, forall_eq_or_imp]

end Rose

/-- The synthetic attribute of a moved attribute comes six ids before the placeholder and has the
number in its name. The name of the moved attribute is literal, or it is in a variable that has the
number in its name. -/
def Carries (o : InstrumentOptions) (number : Nat) (whole : List Branch) (y : Branch) : Prop :=
  (∃ first value place path, y.valueIndex = first + 6 ∧
    Occurs (conditionalAttribute first (functionAttributeName o number) value place) path whole) ∧
  ((∃ name text, y.children.head? = some name ∧ name.kind = .rawText text) ∨
    ∃ next name path, y.NamedBy next (variableName o number) ∧
      Occurs (binding next (variableName o number) name) path whole)

/-- The moved attributes carry the numbers from the given one on. Their placeholders came one after
the other. -/
structure Numbered (o : InstrumentOptions) (number : Nat) (whole ys : List Branch) : Prop where
  carries : ∀ i y, ys[i]? = some y → Carries o (number + i) whole y
  ascending : ys.Pairwise (·.valueIndex < ·.valueIndex)

/-- A variable or the name of a synthetic attribute belongs to one of the moved attributes. -/
def Owned (o : InstrumentOptions) (x : Item) (ys : List Branch) : Prop :=
  (∀ v, x.kind = .letContent v → ∃ y ∈ ys, y.NamedBy x.id.index v) ∧
    ∀ n, x.kind = .print (functionAttributeName o n) true →
      ∃ y ∈ ys, y.valueIndex = x.id.index + 5

variable {o : InstrumentOptions} {start number : Nat} {a : Item} {bs cs ys zs whole : List Branch}
  {y : Branch} {x : Item} {s s' : Tally} {r : Growth Item × Tally} {f g : Work Item Tally}

theorem Carries.imp {whole' : List Branch} (h : Carries o number whole y)
    (hocc : ∀ y path, Occurs y path whole → ∃ path, Occurs y path whole') :
    Carries o number whole' y := by
  obtain ⟨⟨first, value, place, path, hvalue, hcond⟩, hname⟩ := h
  obtain ⟨path, hcond⟩ := hocc _ _ hcond
  refine ⟨⟨first, value, place, path, hvalue, hcond⟩, hname.imp_right ?_⟩
  rintro ⟨next, name, path, hnamed, hbinding⟩
  obtain ⟨path, hbinding⟩ := hocc _ _ hbinding
  exact ⟨next, name, path, hnamed, hbinding⟩

namespace Numbered

theorem nil : Numbered o number whole [] where
  carries i y h := by
    cases h
  ascending := .nil

theorem imp {whole' : List Branch} (h : Numbered o number whole ys)
    (hocc : ∀ y path, Occurs y path whole → ∃ path, Occurs y path whole') :
    Numbered o number whole' ys where
  carries i y hy := (h.carries i y hy).imp hocc
  ascending := h.ascending

theorem cons (hy : Carries o number whole y) (h : Numbered o (number + 1) whole ys)
    (hlt : ∀ z ∈ ys, y.valueIndex < z.valueIndex) : Numbered o number whole (y :: ys) where
  carries i z hz := by
    cases i with
    | zero =>
        cases hz
        exact hy
    | succ i =>
        have hcarries := h.carries i z hz
        rwa [Nat.add_assoc, Nat.add_comm 1] at hcarries
  ascending := List.pairwise_cons.mpr ⟨hlt, h.ascending⟩

theorem append (h : Numbered o number whole ys) (h' : Numbered o (number + ys.length) whole zs)
    (hlt : ∀ y ∈ ys, ∀ z ∈ zs, y.valueIndex < z.valueIndex) :
    Numbered o number whole (ys ++ zs) where
  carries i y hy := by
    rw [List.getElem?_append] at hy
    split at hy
    · exact h.carries i y hy
    · have hcarries := h'.carries _ y hy
      rwa [show number + ys.length + (i - ys.length) = number + i by omega] at hcarries
  ascending := List.pairwise_append.mpr ⟨h.ascending, h'.ascending, hlt⟩

end Numbered

theorem Owned.mono (h : Owned o x ys) (hsub : ys ⊆ zs) : Owned o x zs := by
  refine ⟨fun v hkind => ?_, fun n hkind => ?_⟩
  · obtain ⟨y, hy, hname⟩ := h.1 v hkind
    exact ⟨y, hsub hy, hname⟩
  · obtain ⟨y, hy, hvalue⟩ := h.2 n hkind
    exact ⟨y, hsub hy, hvalue⟩

theorem Item.Neutral.owned (h : x.Neutral o start) (hnew : start ≤ x.id.index)
    (ys : List Branch) : Owned o x ys := by
  obtain ⟨-, hlet, hprint⟩ := h.resolve_left (Nat.not_lt_of_le hnew)
  exact ⟨fun v hkind => absurd hkind (hlet v), fun n hkind => absurd hkind (hprint n)⟩

/-- The work on branches numbers the attributes that it moves. -/
structure Numbers (o : InstrumentOptions) (start : Nat) (bs : List Branch) (s : Tally)
    (r : Growth Item × Tally) : Prop where
  le : s.next ≤ r.2.next
  quiet : ∀ x ∈ labelsAll (r.1.bindings ++ r.1.attributes), x.isPlaceholder start = false
  range : ∀ y ∈ moved start r.1.forest, s.next ≤ y.valueIndex ∧ y.valueIndex < r.2.next
  owned : ∀ x ∈ r.1.labels, start ≤ x.id.index → Owned o x (moved start r.1.forest)
  counted : NoTemplate bs → Numbered o s.number r.1.whole (moved start r.1.forest) ∧
    r.2.number = s.number + (moved start r.1.forest).length
  templates : ∀ y path, Occurs y path r.1.whole → y.kind.isTemplate = true →
    ∃ x path, Occurs x path bs ∧ x.label = y.label ∧
      (NoTemplate x.children → Numbered o 0 r.1.whole (moved start y.children))

namespace Growth

variable {g : Growth Item}

theorem moved_forest_wrap (hquiet : ∀ x ∈ labelsAll (g.bindings ++ g.attributes),
      x.isPlaceholder start = false)
    (hstays : (node a g.forest).isMoved start = false) (inTag : Bool) :
    moved start (g.wrap inTag a).forest = moved start g.forest := by
  simp only [labelsAll_append, List.mem_append, or_imp, forall_and] at hquiet
  have hbindings : moved start g.bindings = [] := moved_eq_nil hquiet.1
  have hattributes : moved start g.attributes = [] := moved_eq_nil hquiet.2
  have hmore : ∀ cs, a.kind ≠ .htmlAttribute → moved start [node a cs] = moved start cs :=
    fun cs hkind => moved_of_not_isMoved (isMoved_eq_false hkind cs)
  rw [wrap]
  split
  · rename_i htag
    rw [underTag, moved_append, hmore _ (by rintro hkind; rw [hkind] at htag; cases htag),
      moved_append, hbindings, hattributes, List.nil_append, List.append_nil]
  · split
    · rename_i htemplate
      rw [Bool.and_eq_true] at htemplate
      rw [underTemplate, hmore _ (by rintro hkind; rw [hkind] at htemplate; cases htemplate.1),
        moved_append, hattributes, List.append_nil]
    · rw [under, moved_of_not_isMoved hstays]

theorem sent_wrap_subset (inTag : Bool) (a : Item) :
    (g.wrap inTag a).bindings ++ (g.wrap inTag a).attributes ⊆ g.bindings ++ g.attributes := by
  rw [wrap]
  split
  · exact List.nil_subset _
  · split
    · rw [underTemplate, List.append_nil]
      exact List.subset_append_left _ _
    · exact List.Subset.refl _

end Growth

namespace Numbers

theorem still (hmoved : moved start bs = [])
    (howned : ∀ x ∈ labelsAll bs, start ≤ x.id.index → Owned o x []) (s : Tally) :
    Numbers o start bs s (Work.still bs s) := by
  have hforest : moved start (Work.still bs s).1.forest = [] := hmoved
  constructor
  · exact Nat.le_refl _
  · intro x hx
    cases hx
  · intro y hy
    rw [hforest] at hy
    cases hy
  · intro x hx hnew
    rw [Work.still, Growth.labels_forest] at hx
    rw [hforest]
    exact howned x hx hnew
  · intro hflat
    rw [hforest]
    exact ⟨.nil, rfl⟩
  · intro y path hy htemplate
    rw [Work.still, Growth.whole_forest] at hy
    refine ⟨y, path, hy, rfl, fun _ => ?_⟩
    rw [moved_children_eq_nil hmoved hy]
    exact .nil

theorem of_neutral (hbs : ∀ x ∈ labelsAll bs, x.Neutral o start) (s : Tally) :
    Numbers o start bs s (Work.still bs s) :=
  .still (moved_eq_nil fun x hx => (hbs x hx).not_placeholder)
    (fun x hx hnew => (hbs x hx).owned hnew []) s

theorem andThen (h : Numbers o start bs s (f s)) (h' : Numbers o start cs (f s).2 (g (f s).2)) :
    Numbers o start (bs ++ cs) s (f.andThen g s) := by
  have hforest : moved start (f.andThen g s).1.forest =
      moved start (f s).1.forest ++ moved start (g (f s).2).1.forest := moved_append _ _
  have hleft : ∀ y path, Occurs y path (f s).1.whole →
      ∃ path, Occurs y path (f.andThen g s).1.whole :=
    fun y path hy => ⟨path, hy.mono (Growth.whole_subset_left _ _)⟩
  have hright : ∀ y path, Occurs y path (g (f s).2).1.whole →
      ∃ path, Occurs y path (f.andThen g s).1.whole :=
    fun y path hy => ⟨path, hy.mono (Growth.whole_subset_right _ _)⟩
  have hle := h.le
  have hle' := h'.le
  constructor
  · exact Nat.le_trans hle hle'
  · intro x hx
    rw [Work.andThen, Growth.bindings_append, Growth.attributes_append] at hx
    simp only [labelsAll_append, List.mem_append] at hx
    have hf := h.quiet x
    have hg := h'.quiet x
    rw [labelsAll_append, List.mem_append] at hf hg
    tauto
  · intro y hy
    rw [hforest, List.mem_append] at hy
    show s.next ≤ y.valueIndex ∧ y.valueIndex < (g (f s).2).2.next
    rcases hy with hy | hy
    · have hrange := h.range y hy
      omega
    · have hrange := h'.range y hy
      omega
  · intro x hx hnew
    rw [hforest]
    rcases Growth.mem_labels_append.mp hx with hx | hx
    · exact (h.owned x hx hnew).mono (List.subset_append_left _ _)
    · exact (h'.owned x hx hnew).mono (List.subset_append_right _ _)
  · intro hflat
    obtain ⟨hbs, hcs⟩ := NoTemplate.append_iff.mp hflat
    obtain ⟨hnumbered, hcount⟩ := h.counted hbs
    obtain ⟨hnumbered', hcount'⟩ := h'.counted hcs
    rw [hcount] at hnumbered' hcount'
    rw [hforest, List.length_append, ← Nat.add_assoc]
    refine ⟨(hnumbered.imp hleft).append (hnumbered'.imp hright) ?_, hcount'⟩
    intro y hy z hz
    exact Nat.lt_of_lt_of_le (h.range y hy).2 (h'.range z hz).1
  · intro y path hy htemplate
    rcases Growth.occurs_of_append hy with hy | hy
    · obtain ⟨x, path, hx, hlabel, hnumbered⟩ := h.templates y path hy htemplate
      exact ⟨x, path, hx.mono (List.subset_append_left _ _), hlabel,
        fun hflat => (hnumbered hflat).imp hleft⟩
    · obtain ⟨x, path, hx, hlabel, hnumbered⟩ := h'.templates y path hy htemplate
      exact ⟨x, path, hx.mono (List.subset_append_right _ _), hlabel,
        fun hflat => (hnumbered hflat).imp hright⟩

theorem under (h : Numbers o start cs s' (f s')) (ha : a.Neutral o start)
    (hnext : s'.next = s.next) (hnumber : s'.number = if a.kind.isTemplate then 0 else s.number)
    (hstays : (node a (f s').1.forest).isMoved start = false) (inTag : Bool) :
    Numbers o start [node a cs] s (f.under inTag a s') := by
  have hforest : moved start (f.under inTag a s').1.forest = moved start (f s').1.forest :=
    Growth.moved_forest_wrap h.quiet hstays inTag
  have hwhole : ∀ y path, Occurs y path (f s').1.whole →
      ∃ path, Occurs y path (f.under inTag a s').1.whole :=
    fun y path hy => Growth.occurs_wrap hy inTag a
  constructor
  · rw [← hnext]
    exact h.le
  · intro x hx
    exact h.quiet x (labelsAll_subset (Growth.sent_wrap_subset inTag a) hx)
  · intro y hy
    rw [hforest] at hy
    rw [← hnext]
    exact h.range y hy
  · intro x hx hnew
    rw [hforest]
    rcases Growth.mem_labels_wrap.mp hx with rfl | hx
    · exact ha.owned hnew _
    · exact h.owned x hx hnew
  · intro hflat
    obtain ⟨htemplate, hcs⟩ := noTemplate_node.mp hflat
    obtain ⟨hnumbered, hcount⟩ := h.counted hcs
    rw [htemplate, if_neg Bool.false_ne_true] at hnumber
    rw [hnumber] at hnumbered hcount
    rw [hforest]
    exact ⟨hnumbered.imp hwhole, hcount⟩
  · intro y path hy htemplate
    have hself : ∀ ds, moved start ds = moved start (f s').1.forest → y = node a ds →
        ∃ x path, Occurs x path [node a cs] ∧ x.label = y.label ∧ (NoTemplate x.children →
          Numbered o 0 (f.under inTag a s').1.whole (moved start y.children)) := by
      rintro ds hds rfl
      refine ⟨node a cs, [], .here (List.mem_singleton_self _), rfl, fun hflat => ?_⟩
      have hnumbered := (h.counted hflat).1
      rw [show a.kind.isTemplate = true from htemplate, if_pos rfl] at hnumber
      rw [hnumber] at hnumbered
      rw [children_node, hds]
      exact hnumbered.imp hwhole
    rcases Growth.occurs_of_wrap hy with hy | hy | ⟨path, hy⟩
    · exact hself _ rfl hy
    · have hattributes : moved start (f s').1.attributes = [] := by
        apply moved_eq_nil
        intro x hx
        refine h.quiet x ?_
        rw [labelsAll_append]
        exact List.mem_append_right _ hx
      refine hself _ ?_ hy
      rw [moved_append, hattributes, List.append_nil]
    · obtain ⟨x, path, hx, hlabel, hnumbered⟩ := h.templates y path hy htemplate
      exact ⟨x, _, hx.under a, hlabel, fun hflat => (hnumbered hflat).imp hwhole⟩

theorem earlier (h : Numbers o start bs s' r) (hnext : s.next ≤ s'.next)
    (hnumber : s'.number = s.number) : Numbers o start bs s r where
  le := Nat.le_trans hnext h.le
  quiet := h.quiet
  range y hy := ⟨Nat.le_trans hnext (h.range y hy).1, (h.range y hy).2⟩
  owned := h.owned
  counted hflat := by
    rw [← hnumber]
    exact h.counted hflat
  templates := h.templates

theorem congr (h : Numbers o start bs s r) (hflat : NoTemplate cs → NoTemplate bs)
    (hocc : ∀ x path, Occurs x path bs → x.kind.isTemplate = true →
      ∃ path, Occurs x path cs) : Numbers o start cs s r where
  le := h.le
  quiet := h.quiet
  range := h.range
  owned := h.owned
  counted hcs := h.counted (hflat hcs)
  templates y path hy htemplate := by
    obtain ⟨x, path, hx, hlabel, hnumbered⟩ := h.templates y path hy htemplate
    have hkind : x.kind = y.kind := congrArg Item.kind hlabel
    obtain ⟨path, hx⟩ := hocc x path hx (hkind ▸ htemplate)
    exact ⟨x, path, hx, hlabel, hnumbered⟩

theorem forget (h : Numbers o start bs s r) (hbs : NoTemplate bs) : Numbers o start [] s r := by
  refine h.congr (fun _ => hbs) fun x path hx htemplate => ?_
  rw [show x.kind.isTemplate = false from hbs _ hx.label_mem] at htemplate
  cases htemplate

end Numbers

/-- No placeholder is at the top of what there is now. -/
def Tops (start : Nat) (g : Growth Item) : Prop :=
  ∀ c ∈ g.forest, c.label.isPlaceholder start = false

namespace Tops

variable {g g' : Growth Item}

theorem of_neutral (hbs : ∀ x ∈ labelsAll bs, x.Neutral o start) : Tops start ⟨bs, [], []⟩ :=
  fun c hc => (hbs c.label (mem_labelsAll hc c.label_mem_labels)).not_placeholder

theorem append (h : Tops start g) (h' : Tops start g') : Tops start (g ++ g') := by
  intro c hc
  rcases List.mem_append.mp hc with hc | hc
  · exact h c hc
  · exact h' c hc

theorem wrap (hquiet : ∀ x ∈ labelsAll (g.bindings ++ g.attributes), x.isPlaceholder start = false)
    (ha : a.Neutral o start) (inTag : Bool) : Tops start (g.wrap inTag a) := by
  intro c hc
  rw [Growth.wrap] at hc
  split at hc
  · rcases List.mem_append.mp hc with hc | hc
    · exact hquiet _ (mem_labelsAll (List.mem_append_left _ hc) c.label_mem_labels)
    · rw [List.mem_singleton.mp hc]
      exact ha.not_placeholder
  · split at hc
    · rw [List.mem_singleton.mp hc]
      exact ha.not_placeholder
    · rw [List.mem_singleton.mp hc]
      exact ha.not_placeholder

theorem isMoved_eq_false (h : Tops start g) (a : Item) :
    (node a g.forest).isMoved start = false := by
  rw [Bool.eq_false_iff]
  intro hmoved
  obtain ⟨b, name, value, rest, heq, -, hvalue⟩ := exists_of_isMoved hmoved
  rw [node.injEq] at heq
  have hmem : value ∈ g.forest := by
    rw [heq.2]
    exact List.mem_cons_of_mem _ List.mem_cons_self
  rw [h value hmem] at hvalue
  cases hvalue

end Tops

end TemplateLogging
