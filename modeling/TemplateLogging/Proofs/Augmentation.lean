import Mathlib.Data.List.Nodup
import TemplateLogging.Proofs.ByteOrder
import TemplateLogging.Proofs.Folding

namespace TemplateLogging

namespace Entries

variable {α : Type} {entries entries' : Entries α} {name : String} {a : α}

theorem mem_of_find?_eq_some (h : entries.find? name = some a) : (name, a) ∈ entries := by
  obtain ⟨before, after, rfl, -⟩ := List.lookup_eq_some_iff.mp h
  simp

theorem find?_eq_some_iff_of_nodup (h : entries.names.Nodup) :
    entries.find? name = some a ↔ (name, a) ∈ entries := by
  refine ⟨mem_of_find?_eq_some, ?_⟩
  intro hmem
  obtain ⟨before, after, rfl⟩ := List.append_of_mem hmem
  refine List.lookup_eq_some_iff.mpr ⟨before, after, rfl, ?_⟩
  rw [names, List.map_append, List.map_cons, List.nodup_middle, List.nodup_cons,
    List.mem_append, not_or] at h
  intro p hp
  rw [bne_iff_ne]
  rintro rfl
  exact h.1.1 (List.mem_map.mpr ⟨p, hp, rfl⟩)

theorem exists_find?_iff : (∃ a, entries.find? name = some a) ↔ name ∈ entries.names := by
  rw [← Option.ne_none_iff_exists', ne_eq, find?, List.lookup_eq_none_iff, names, List.mem_map]
  simp only [bne_iff_ne, ne_eq, not_forall, not_not, exists_prop]
  simp only [eq_comm]

theorem Ascending.pairwise_names (h : Ascending entries) : entries.names.Pairwise (· < ·) :=
  List.pairwise_map.mpr h

theorem Ascending.nodup_names (h : Ascending entries) : entries.names.Nodup := by
  apply h.pairwise_names.imp
  intro first second hlt
  exact Std.ne_of_lt hlt

theorem Ascending.ext (h : Ascending entries) (h' : Ascending entries')
    (hfind : ∀ name, entries.find? name = entries'.find? name) : entries = entries' := by
  have hperm : entries.Perm entries' := by
    apply (List.perm_ext_iff_of_nodup (List.Nodup.of_map _ h.nodup_names)
      (List.Nodup.of_map _ h'.nodup_names)).mpr
    rintro ⟨name, a⟩
    rw [← find?_eq_some_iff_of_nodup h.nodup_names, hfind,
      find?_eq_some_iff_of_nodup h'.nodup_names]
  refine hperm.eq_of_pairwise ?_ h h'
  intro p q _ _ hpq hqp
  exact absurd hqp (String.lt_asymm hpq)

theorem find?_reverse (h : entries.names.Nodup) (name : String) :
    find? entries.reverse name = entries.find? name := by
  have hreverse : names entries.reverse = entries.names.reverse := List.map_reverse
  ext a
  rw [find?_eq_some_iff_of_nodup h, find?_eq_some_iff_of_nodup, List.mem_reverse]
  rw [hreverse]
  exact List.nodup_reverse.mpr h

/-- The last pair for a name counts. -/
theorem find?_insertAll (entries : Entries α) (pairs : List (String × α)) (name : String) :
    (entries.insertAll pairs).find? name = (find? pairs.reverse name).or (entries.find? name) := by
  induction pairs generalizing entries with
  | nil => rfl
  | cons pair pairs ih =>
      obtain ⟨key, a⟩ := pair
      have hstep : entries.insertAll ((key, a) :: pairs) = (entries.insert key a).insertAll pairs :=
        rfl
      have hlast : find? ((key, a) :: pairs).reverse name =
          (find? pairs.reverse name).or (find? [(key, a)] name) := by
        rw [List.reverse_cons]
        exact List.lookup_append
      rw [hstep, ih, find?_insert, hlast, find?_cons, Option.or_assoc]
      split_ifs
      · rfl
      · rfl

theorem insertAll_insertAll (ps qs : List (String × α)) :
    insertAll (insertAll [] ps) (insertAll [] qs) = insertAll [] (ps ++ qs) := by
  have hp := ascending_nil.insertAll ps
  have hq := ascending_nil.insertAll qs
  apply (hp.insertAll _).ext (ascending_nil.insertAll _)
  intro name
  have hnone : find? ([] : Entries α) name = none := rfl
  rw [find?_insertAll, find?_reverse hq.nodup_names, find?_insertAll, find?_insertAll,
    find?_insertAll, hnone, List.reverse_append, Option.or_none, Option.or_none, Option.or_none]
  exact List.lookup_append.symm

theorem mem_names_insertAll_iff (pairs : List (String × α)) (name : String) :
    name ∈ (insertAll [] pairs).names ↔ name ∈ pairs.map (·.1) := by
  have hfind : (insertAll [] pairs).find? name = find? pairs.reverse name := by
    rw [find?_insertAll]
    exact Option.or_none
  rw [← exists_find?_iff, hfind, exists_find?_iff, names, List.map_reverse, List.mem_reverse]

theorem find?_insertAll_of_split {pairs before after : List (String × α)}
    (hpairs : pairs = before ++ (name, a) :: after) (hafter : name ∉ after.map (·.1)) :
    (insertAll [] pairs).find? name = some a := by
  have hlast : find? pairs.reverse name = some a := by
    refine List.lookup_eq_some_iff.mpr ⟨after.reverse, before.reverse, by simp [hpairs], ?_⟩
    intro p hp
    rw [bne_iff_ne]
    rintro rfl
    exact hafter (List.mem_map.mpr ⟨p, List.mem_reverse.mp hp, rfl⟩)
  rw [find?_insertAll, hlast, Option.some_or]

end Entries

namespace Expr

variable {r : Renaming} {fields : List (String × Expr)} {pairs : List (String × Value)}

theorem fieldConstants?_cons (name : String) (e : Expr) (fields : List (String × Expr)) :
    fieldConstants? r ((name, e) :: fields) = (e.constant? r).bind fun v =>
      (fieldConstants? r fields).map fun pairs => (name, v) :: pairs := by
  rw [fieldConstants?]
  cases e.constant? r <;> cases fieldConstants? r fields <;> rfl

theorem fieldConstants?_append (fs gs : List (String × Expr)) :
    fieldConstants? r (fs ++ gs) = (fieldConstants? r fs).bind fun ps =>
      (fieldConstants? r gs).map fun qs => ps ++ qs := by
  induction fs with
  | nil =>
      rw [List.nil_append, fieldConstants?, Option.bind_some]
      exact Option.map_id'.symm
  | cons field fs ih =>
      obtain ⟨name, e⟩ := field
      rw [List.cons_append, fieldConstants?_cons, fieldConstants?_cons, ih]
      cases e.constant? r <;> cases fieldConstants? r fs <;> cases fieldConstants? r gs <;> rfl

theorem map_fst_fieldConstants? (h : fieldConstants? r fields = some pairs) :
    pairs.map (·.1) = fields.map (·.1) := by
  induction fields generalizing pairs with
  | nil =>
      cases h
      rfl
  | cons field fields ih =>
      obtain ⟨name, e⟩ := field
      simp only [fieldConstants?_cons, Option.bind_eq_some_iff, Option.map_eq_some_iff] at h
      obtain ⟨v, -, pairs, hpairs, rfl⟩ := h
      rw [List.map_cons, List.map_cons, ih hpairs]

theorem fieldConstants?_eq_none_iff :
    fieldConstants? r fields = none ↔ ∃ field ∈ fields, field.2.constant? r = none := by
  induction fields with
  | nil => simp [fieldConstants?]
  | cons field fields ih =>
      obtain ⟨name, e⟩ := field
      rw [fieldConstants?_cons, List.exists_mem_cons_iff, ← ih]
      cases e.constant? r <;> cases fieldConstants? r fields <;> simp

theorem exists_split_of_fieldConstants? {before after : List (String × Expr)} {name : String}
    {e : Expr} (hfields : fields = before ++ (name, e) :: after)
    (h : fieldConstants? r fields = some pairs) :
    ∃ ps v qs, pairs = ps ++ (name, v) :: qs ∧ e.constant? r = some v ∧
      fieldConstants? r after = some qs := by
  simp only [hfields, fieldConstants?_append, fieldConstants?_cons, Option.bind_eq_some_iff,
    Option.map_eq_some_iff] at h
  obtain ⟨ps, -, qs', ⟨v, hv, qs, hqs, rfl⟩, rfl⟩ := h
  exact ⟨ps, v, qs, rfl, hv, hqs⟩

theorem constant?_augmentMap_eq (first second whole : String) (fs gs : List (String × Expr)) :
    (call (.builtin .augmentMap) [protoInit first fs, protoInit second gs]).constant? r =
      (protoInit whole (fs ++ gs)).constant? r := by
  simp only [constant?, constants?, fieldConstants?_append]
  cases fieldConstants? r fs with
  | none => rfl
  | some ps =>
      cases fieldConstants? r gs with
      | none => rfl
      | some qs =>
          have hentries := Entries.insertAll_insertAll ps qs
          exact congrArg (fun entries => some (Value.map entries)) hentries

/-- What a record has for its value: there is none if a field has none, else a map that binds the
names of the fields, each to the value of the last field of that name. -/
theorem constant?_protoInit_cases (typeName : String) (fields : List (String × Expr)) :
    ((protoInit typeName fields).constant? r = none ↔
      ∃ field ∈ fields, field.2.constant? r = none) ∧
    ∀ v, (protoInit typeName fields).constant? r = some v → ∃ entries : Entries Value,
      v = .map entries ∧ entries.Ascending ∧
      (∀ name, name ∈ entries.names ↔ name ∈ fields.map (·.1)) ∧
      ∀ before name e after, fields = before ++ (name, e) :: after → name ∉ after.map (·.1) →
        ∃ w, e.constant? r = some w ∧ entries.find? name = some w := by
  constructor
  · rw [constant?, Option.map_eq_none_iff, fieldConstants?_eq_none_iff]
  · intro v h
    rw [constant?, Option.map_eq_some_iff] at h
    obtain ⟨pairs, hpairs, rfl⟩ := h
    refine ⟨_, rfl, Entries.ascending_nil.insertAll pairs, ?_, ?_⟩
    · intro name
      rw [Entries.mem_names_insertAll_iff, map_fst_fieldConstants? hpairs]
    · intro before name e after hfields hafter
      obtain ⟨ps, w, qs, hsplit, hw, hqs⟩ := exists_split_of_fieldConstants? hfields hpairs
      rw [← map_fst_fieldConstants? hqs] at hafter
      exact ⟨w, hw, Entries.find?_insertAll_of_split hsplit hafter⟩

/-- To augment one record by another gives what a single record with the fields of both gives, and
nothing exactly if one of the fields has no value. The map binds the names of the fields, each to
the value of the last field of that name, and its keys are these names in the order of their bytes,
each once. -/
theorem constant?_augmentMap (r : Renaming) (first second whole : String)
    (fs gs : List (String × Expr)) :
    let merged : Expr :=
      .call (.builtin .augmentMap) [.protoInit first fs, .protoInit second gs]
    merged.constant? r = (protoInit whole (fs ++ gs)).constant? r ∧
    (merged.constant? r = none ↔ ∃ field ∈ fs ++ gs, field.2.constant? r = none) ∧
    ∀ v, merged.constant? r = some v → ∃ entries : Entries Value, v = .map entries ∧
      (∀ name, name ∈ entries.names ↔ name ∈ (fs ++ gs).map (·.1)) ∧
      (∀ before name e after, fs ++ gs = before ++ (name, e) :: after →
        name ∉ after.map (·.1) → ∃ w, e.constant? r = some w ∧ entries.find? name = some w) ∧
      (Expr.call (.builtin .keys) [merged]).constant? r =
        some (.list (entries.names.map .string)) ∧
      entries.names.Pairwise fun a b => Text.utf8Bytes a.toList < Text.utf8Bytes b.toList := by
  intro merged
  have hmerged := constant?_augmentMap_eq (r := r) first second whole fs gs
  obtain ⟨hnone, hsome⟩ := constant?_protoInit_cases (r := r) whole (fs ++ gs)
  refine ⟨hmerged, ?_, ?_⟩
  · rw [← hnone, ← hmerged]
  · intro v hv
    obtain ⟨entries, rfl, hascending, hnames, hlast⟩ := hsome v (hmerged.symm.trans hv)
    refine ⟨entries, rfl, hnames, hlast, ?_, ?_⟩
    · simp only [constant?, constants?, hv]
      simp [Value.keys?, Entries.names, Builtin.apply?]
    · apply hascending.pairwise_names.imp
      intro a b hlt
      exact Text.utf8Bytes_lt_iff.mpr hlt

/-- Of three fields with two names the last of each counts. -/
theorem constant?_augmentMap_repeated :
    let fs : List (String × Expr) := [("size", .integer 1), ("key", .str "a")]
    let gs : List (String × Expr) := [("size", .integer 2)]
    let merged : Expr :=
      .call (.builtin .augmentMap) [.protoInit "First" fs, .protoInit "Second" gs]
    ∃ entries : Entries Value, merged.constant? {} = some (.map entries) ∧
      entries.find? "key" = some (.string "a") ∧ entries.find? "size" = some (.integer 2) ∧
      (Expr.call (.builtin .keys) [merged]).constant? {} =
        some (.list [.string "key", .string "size"]) := by
  intro fs gs merged
  have hv : merged.constant? {} = some (.map [("key", .string "a"), ("size", .integer 2)]) := rfl
  obtain ⟨-, -, hsome⟩ := constant?_augmentMap {} "First" "Second" "Whole" fs gs
  obtain ⟨entries, hentries, -, hlast, hkeys, -⟩ := hsome _ hv
  cases hentries
  have hkey : "key" ∉ [("size", Expr.integer 2)].map (·.1) := by decide
  obtain ⟨v, h, hfind⟩ := hlast [("size", .integer 1)] "key" _ [("size", .integer 2)] rfl hkey
  cases h
  obtain ⟨w, h, hfind'⟩ := hlast [("size", .integer 1), ("key", .str "a")] "size" _ [] rfl nofun
  cases h
  exact ⟨_, hv, hfind, hfind', hkeys⟩

end Expr

end TemplateLogging
