import TemplateLogging.Proofs.Resolution

namespace TemplateLogging

namespace LoggingElement

variable {earlier es : List LoggingElement} {e : LoggingElement} {error : LoggingError}

/-- No two elements share a name, and no two share an id. -/
def Distinct (es : List LoggingElement) : Prop :=
  (es.map (·.name)).Nodup ∧ (es.map (·.id)).Nodup

instance (es : List LoggingElement) : Decidable (Distinct es) :=
  inferInstanceAs (Decidable (_ ∧ _))

theorem distinct_iff : Distinct es ↔ es.Pairwise Apart := by
  rw [Distinct, List.nodup_iff_pairwise_ne, List.nodup_iff_pairwise_ne, List.pairwise_map,
    List.pairwise_map, ← List.pairwise_and_iff]
  rfl

/-- What is reported of an element that repeats one before it: its name if that has been seen, and
otherwise its id with the name of the one element that has it. -/
inductive Repeats (earlier : List LoggingElement) (e : LoggingElement) : LoggingError → Prop where
  | name (hname : ∃ d ∈ earlier, d.name = e.name) : Repeats earlier e (.duplicateName e.name)
  | id {first : LoggingElement} (hname : ∀ d ∈ earlier, d.name ≠ e.name)
      (hfirst : ∀ d, d ∈ earlier ∧ d.id = e.id ↔ d = first) :
      Repeats earlier e (.duplicateId e.id first.name e.name)

/-- The error is that of the first element that repeats one before it. -/
def RepeatsFirst (es : List LoggingElement) (error : LoggingError) : Prop :=
  ∃ before e after, es = before ++ e :: after ∧ Distinct before ∧ Repeats before e error

theorem repeats_of_clash? (hearlier : earlier.Pairwise Apart)
    (h : clash? earlier e = some error) : Repeats earlier e error := by
  rw [clash?] at h
  split_ifs at h with hname
  · cases h
    obtain ⟨d, hd, heq⟩ := List.any_eq_true.mp hname
    exact .name ⟨d, hd, of_decide_eq_true heq⟩
  · obtain ⟨first, hfind, rfl⟩ := Option.map_eq_some_iff.mp h
    have hmem := List.mem_of_find?_eq_some hfind
    have hid : first.id = e.id := by simpa using List.find?_some hfind
    refine .id ?_ ?_
    · intro d hd heq
      exact hname (List.any_eq_true.mpr ⟨d, hd, decide_eq_true heq⟩)
    · intro d
      constructor
      · rintro ⟨hd, heq⟩
        by_contra hne
        exact (hearlier.forall hd hmem hne).2 (heq.trans hid.symm)
      · rintro rfl
        exact ⟨hmem, hid⟩

theorem Repeats.unique {error' : LoggingError} (h : Repeats earlier e error)
    (h' : Repeats earlier e error') : error = error' := by
  cases h with
  | name hname =>
      cases h' with
      | name => rfl
      | id hname' =>
          obtain ⟨d, hd, heq⟩ := hname
          exact absurd heq (hname' d hd)
  | @id first hname hfirst =>
      cases h' with
      | name hname' =>
          obtain ⟨d, hd, heq⟩ := hname'
          exact absurd heq (hname d hd)
      | @id first' _ hfirst' => rw [(hfirst' first).mp ((hfirst first).mpr rfl)]

theorem Repeats.clash?_ne_none (h : Repeats earlier e error) : clash? earlier e ≠ none := by
  rw [ne_eq, clash?_eq_none_iff]
  intro hapart
  cases h with
  | name hname =>
      obtain ⟨d, hd, heq⟩ := hname
      exact (hapart d hd).1 heq
  | @id first _ hfirst =>
      obtain ⟨hmem, hid⟩ := (hfirst first).mpr rfl
      exact (hapart first hmem).2 hid

theorem clash?_eq_some_iff (hearlier : earlier.Pairwise Apart) :
    clash? earlier e = some error ↔ Repeats earlier e error := by
  refine ⟨repeats_of_clash? hearlier, ?_⟩
  intro h
  obtain ⟨error', hclash⟩ := Option.ne_none_iff_exists'.mp h.clash?_ne_none
  rw [hclash, h.unique (repeats_of_clash? hearlier hclash)]

theorem firstClash?_append {before : List LoggingElement} (h : firstClash? earlier before = none)
    (after : List LoggingElement) :
    firstClash? earlier (before ++ after) = firstClash? (earlier ++ before) after := by
  induction before generalizing earlier with
  | nil => rw [List.append_nil, List.nil_append]
  | cons d before ih =>
      rw [firstClash?] at h
      cases hclash : clash? earlier d with
      | some error =>
          rw [hclash] at h
          cases h
      | none =>
          rw [hclash] at h
          rw [List.cons_append, firstClash?, hclash]
          simp only
          rw [ih h, List.append_assoc, List.singleton_append]

theorem exists_of_firstClash? (h : firstClash? earlier es = some error) :
    ∃ before e after, es = before ++ e :: after ∧ firstClash? earlier before = none ∧
      clash? (earlier ++ before) e = some error := by
  induction es generalizing earlier with
  | nil => cases h
  | cons d es ih =>
      rw [firstClash?] at h
      cases hclash : clash? earlier d with
      | some error' =>
          rw [hclash] at h
          cases h
          exact ⟨[], d, es, rfl, rfl, by rwa [List.append_nil]⟩
      | none =>
          rw [hclash] at h
          obtain ⟨before, e, after, rfl, hbefore, he⟩ := ih h
          refine ⟨d :: before, e, after, rfl, ?_, ?_⟩
          · rw [firstClash?, hclash]
            exact hbefore
          · rwa [List.append_assoc, List.singleton_append] at he

theorem firstClash?_eq_none_iff_distinct : firstClash? [] es = none ↔ Distinct es := by
  rw [firstClash?_eq_none_iff, distinct_iff]
  simp

theorem firstClash?_eq_some_iff : firstClash? [] es = some error ↔ RepeatsFirst es error := by
  constructor
  · intro h
    obtain ⟨before, e, after, hsplit, hbefore, hclash⟩ := exists_of_firstClash? h
    have hdistinct := firstClash?_eq_none_iff_distinct.mp hbefore
    exact ⟨before, e, after, hsplit, hdistinct,
      (clash?_eq_some_iff (distinct_iff.mp hdistinct)).mp hclash⟩
  · rintro ⟨before, e, after, rfl, hdistinct, hrepeats⟩
    have hclash := (clash?_eq_some_iff (distinct_iff.mp hdistinct)).mpr hrepeats
    rw [firstClash?_append (firstClash?_eq_none_iff_distinct.mpr hdistinct), List.nil_append,
      firstClash?, hclash]

end LoggingElement

/-- What is known while the elements are gone through: those seen by their names, and the names of
those seen by their ids. -/
structure LoggingTables where
  byName : Std.HashMap String LoggingElement := ∅
  byId : Std.HashMap Int64 String := ∅

namespace LoggingTables

open LoggingElement

variable {tables : LoggingTables} {earlier es : List LoggingElement} {e : LoggingElement}
  {error : LoggingError}

/-- Looks an element up in both tables, and puts it into both if it is in neither. -/
def enter (tables : LoggingTables) (e : LoggingElement) : Except LoggingError LoggingTables :=
  if tables.byName.contains e.name then .error (.duplicateName e.name)
  else
    match tables.byId[e.id]? with
    | some first => .error (.duplicateId e.id first e.name)
    | none => .ok ⟨tables.byName.insert e.name e, tables.byId.insert e.id e.name⟩

/-- Enters the elements in order, up to the first one that cannot be entered. -/
def ofElements (es : List LoggingElement) : Except LoggingError LoggingTables :=
  es.foldlM enter {}

/-- The tables hold the given elements and nothing else. -/
structure Lists (tables : LoggingTables) (es : List LoggingElement) : Prop where
  byName : ∀ name, tables.byName[name]? = es.find? (·.name = name)
  byId : ∀ id, tables.byId[id]? = (es.find? (·.id = id)).map (·.name)
  size : tables.byName.size = es.length

theorem lists_empty : Lists {} [] := by
  constructor <;> simp

namespace Lists

theorem contains_iff (h : tables.Lists es) (name : String) :
    tables.byName.contains name = es.any (·.name = name) := by
  rw [Std.HashMap.contains_eq_isSome_getElem?, h.byName, Bool.eq_iff_iff, List.find?_isSome,
    List.any_eq_true]

theorem enter_eq_error (h : tables.Lists earlier) (hclash : clash? earlier e = some error) :
    tables.enter e = .error error := by
  rw [clash?] at hclash
  rw [enter, h.contains_iff]
  split_ifs at hclash ⊢ with hname
  · cases hclash
    rfl
  · obtain ⟨first, hfind, rfl⟩ := Option.map_eq_some_iff.mp hclash
    rw [h.byId, hfind]
    rfl

theorem exists_enter_eq_ok (h : tables.Lists earlier) (hclash : clash? earlier e = none) :
    ∃ tables', tables.enter e = .ok tables' ∧ tables'.Lists (earlier ++ [e]) := by
  have hapart := clash?_eq_none_iff.mp hclash
  have hname : earlier.find? (·.name = e.name) = none :=
    List.find?_eq_none.mpr fun d hd heq => (hapart d hd).1 (of_decide_eq_true heq)
  have hid : earlier.find? (·.id = e.id) = none :=
    List.find?_eq_none.mpr fun d hd heq => (hapart d hd).2 (of_decide_eq_true heq)
  have hnew : tables.byName.contains e.name = false := by
    rw [Std.HashMap.contains_eq_isSome_getElem?, h.byName, hname]
    rfl
  refine ⟨⟨tables.byName.insert e.name e, tables.byId.insert e.id e.name⟩, ?_, ?_, ?_, ?_⟩
  · rw [enter, hnew, h.byId, hid]
    rfl
  · intro name
    rw [Std.HashMap.getElem?_insert, h.byName, List.find?_append, List.find?_singleton]
    by_cases heq : e.name = name
    · subst heq
      simp [hname]
    · simp [heq]
  · intro id
    rw [Std.HashMap.getElem?_insert, h.byId, List.find?_append, List.find?_singleton]
    by_cases heq : e.id = id
    · subst heq
      simp [hid]
    · simp [heq]
  · rw [Std.HashMap.size_insert, if_neg, h.size, List.length_append, List.length_singleton]
    rw [← Std.HashMap.contains_iff_mem, hnew]
    exact Bool.false_ne_true

theorem foldlM_eq_error (h : tables.Lists earlier) (hclash : firstClash? earlier es = some error) :
    es.foldlM enter tables = .error error := by
  induction es generalizing tables earlier with
  | nil => cases hclash
  | cons e es ih =>
      rw [firstClash?] at hclash
      rw [List.foldlM_cons]
      cases he : clash? earlier e with
      | some error' =>
          rw [he] at hclash
          cases hclash
          rw [h.enter_eq_error he]
          rfl
      | none =>
          rw [he] at hclash
          obtain ⟨tables', henter, h'⟩ := h.exists_enter_eq_ok he
          rw [henter]
          exact ih h' hclash

theorem exists_foldlM_eq_ok (h : tables.Lists earlier) (hclash : firstClash? earlier es = none) :
    ∃ tables', es.foldlM enter tables = .ok tables' ∧ tables'.Lists (earlier ++ es) := by
  induction es generalizing tables earlier with
  | nil => exact ⟨tables, rfl, by rwa [List.append_nil]⟩
  | cons e es ih =>
      rw [firstClash?] at hclash
      rw [List.foldlM_cons]
      cases he : clash? earlier e with
      | some error' =>
          rw [he] at hclash
          cases hclash
      | none =>
          rw [he] at hclash
          obtain ⟨tables₁, henter, h₁⟩ := h.exists_enter_eq_ok he
          obtain ⟨tables', hrest, h'⟩ := ih h₁ hclash
          rw [henter]
          rw [List.append_assoc, List.singleton_append] at h'
          exact ⟨tables', hrest, h'⟩

end Lists

end LoggingTables

namespace LoggingConfig

open LoggingElement

variable {config : LoggingConfig} {c : ValidLoggingConfig} {error : LoggingError}

theorem validate_eq_error_iff :
    config.validate = .error error ↔ firstClash? [] config.elements = some error := by
  rw [validate]
  split
  · rename_i error' hclash
    rw [hclash, Except.error.injEq, Option.some.injEq]
  · rename_i hclash
    constructor
    · intro h
      cases h
    · intro h
      rw [hclash] at h
      cases h

theorem exists_validate_eq_ok_iff :
    (∃ c, config.validate = .ok c) ↔ firstClash? [] config.elements = none := by
  rw [validate]
  split
  · rename_i error hclash
    rw [hclash]
    constructor
    · rintro ⟨c, hc⟩
      cases hc
    · intro h
      cases h
  · rename_i hclash
    exact iff_of_true ⟨_, rfl⟩ hclash

/-- A configuration is valid if its elements are distinct, and a valid one finds by each name the
element of that name. Otherwise the first element that repeats another one is reported. The pass
with two tables comes to the same. -/
theorem validate_outcome (config : LoggingConfig) :
    ((∃ c, config.validate = .ok c) ↔ Distinct config.elements) ∧
    (∀ c, config.validate = .ok c → c.size = config.elements.length ∧
      (∀ name e, c.find? name = some e ↔ e ∈ config.elements ∧ e.name = name) ∧
      (∀ name, c.find? name = none ↔ ∀ e ∈ config.elements, e.name ≠ name) ∧
      (∀ name name' e e', c.find? name = some e → c.find? name' = some e' → name ≠ name' →
        e.id ≠ e'.id) ∧
      ∃ tables, LoggingTables.ofElements config.elements = .ok tables ∧
        tables.byName.size = c.size ∧ ∀ name, tables.byName[name]? = c.find? name) ∧
    ∀ error, config.validate = .error error ↔ RepeatsFirst config.elements error ∧
      LoggingTables.ofElements config.elements = .error error := by
  refine ⟨?_, ?_, ?_⟩
  · rw [exists_validate_eq_ok_iff, firstClash?_eq_none_iff_distinct]
  · intro c hc
    have helements := elements_of_validate hc
    have hclash := exists_validate_eq_ok_iff.mp ⟨c, hc⟩
    obtain ⟨tables, htables, hlists⟩ :=
      LoggingTables.lists_empty.exists_foldlM_eq_ok hclash
    rw [List.nil_append] at hlists
    refine ⟨?_, ?_, ?_, ?_, tables, htables, ?_, ?_⟩
    · rw [ValidLoggingConfig.size, helements]
    · intro name e
      rw [← helements, ValidLoggingConfig.find?_eq_some_iff]
    · intro name
      rw [← helements, ValidLoggingConfig.find?_eq_none_iff]
    · intro name name' e e' he he' hne hid
      obtain ⟨hmem, rfl⟩ := ValidLoggingConfig.mem_of_find? he
      obtain ⟨hmem', rfl⟩ := ValidLoggingConfig.mem_of_find? he'
      exact hne ((ValidLoggingConfig.id_eq_iff hmem hmem').mp hid)
    · rw [hlists.size, ValidLoggingConfig.size, helements]
    · intro name
      rw [hlists.byName, ValidLoggingConfig.find?, helements]
  · intro error
    rw [validate_eq_error_iff, ← firstClash?_eq_some_iff]
    exact ⟨fun h => ⟨h, LoggingTables.lists_empty.foldlM_eq_error h⟩, And.left⟩

/-- Two pages can be told apart. A third one takes the id of the first and the name of the second,
and the name counts. -/
theorem validate_outcome_pages :
    let home : LoggingElement := { name := "Home", id := 7 }
    let about : LoggingElement := { name := "About", id := 8 }
    (∃ c, (LoggingConfig.mk [home, about]).validate = .ok c ∧ c.size = 2 ∧
      c.find? "About" = some about ∧ ∃ tables, LoggingTables.ofElements [home, about] = .ok tables ∧
        tables.byName["About"]? = c.find? "About") ∧
    (LoggingConfig.mk [home, about, { name := "About", id := 7 }]).validate =
        .error (.duplicateName "About") ∧
      LoggingTables.ofElements [home, about, { name := "About", id := 7 }] =
        .error (.duplicateName "About") := by
  intro home about
  obtain ⟨hvalid, hfind, -⟩ := validate_outcome ⟨[home, about]⟩
  obtain ⟨c, hc⟩ := hvalid.mpr (by decide)
  obtain ⟨hsize, hlookup, -, -, tables, htables, -, hsame⟩ := hfind c hc
  obtain ⟨-, -, herror⟩ := validate_outcome ⟨[home, about, { name := "About", id := 7 }]⟩
  have hrepeated : (LoggingConfig.mk [home, about, { name := "About", id := 7 }]).validate =
      .error (.duplicateName "About") := rfl
  refine ⟨⟨c, hc, hsize, (hlookup "About" about).mpr ⟨by decide, rfl⟩, tables, htables,
    hsame "About"⟩, hrepeated, ((herror _).mp hrepeated).2⟩

end LoggingConfig

end TemplateLogging
