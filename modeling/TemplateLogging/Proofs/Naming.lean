import TemplateLogging.Expr.Constant
import TemplateLogging.Proofs.Counting
import TemplateLogging.Proofs.Markers
import TemplateLogging.Proofs.Scopes
import TemplateLogging.Proofs.Separation

namespace TemplateLogging

open Instrument Rose

variable {o : InstrumentOptions} {r : Renaming}

theorem constant?_xid (r : Renaming) (key : String) :
    (Instrument.xid key).constant? r = some (.string (r.xid key)) :=
  rfl

theorem constant?_plus {e e' : Expr} {text text' : String}
    (h : e.constant? r = some (.string text)) (h' : e'.constant? r = some (.string text')) :
    (Expr.plus e e').constant? r = some (.string (text ++ text')) := by
  rw [Expr.constant?, h, h']
  rfl

/-- The text of the name of every marker. -/
def markerText (o : InstrumentOptions) (r : Renaming) : String :=
  o.attributeStart ++ r.xid o.markerKey

/-- The text of the name of the synthetic attribute with the number. -/
def functionText (o : InstrumentOptions) (r : Renaming) (number : Nat) : String :=
  o.attributeStart ++ (r.xid o.functionKey ++ toString number)

theorem constant?_markerName : (markerName o).constant? r = some (.string (markerText o r)) :=
  constant?_plus rfl (constant?_xid r _)

theorem constant?_functionAttributeName (number : Nat) :
    (functionAttributeName o number).constant? r = some (.string (functionText o r number)) :=
  constant?_plus rfl (constant?_plus (constant?_xid r _) rfl)

theorem toString_inj {m n : Nat} : toString m = toString n ↔ m = n := by
  refine ⟨fun h => ?_, congrArg toString⟩
  have hdigits : Nat.toDigits 10 m = Nat.toDigits 10 n := String.ofList_injective h
  rw [← @Nat.ofDigitChars_ten_toDigits m, hdigits, Nat.ofDigitChars_ten_toDigits]

theorem functionText_inj {m n : Nat} : functionText o r m = functionText o r n ↔ m = n := by
  rw [functionText, functionText, String.append_right_inj, String.append_right_inj, toString_inj]

namespace Tree

/-- The attribute has a placeholder for its value, with an id from `start` on. -/
def isMoved (t : Tree) (start : Nat) (attr : NodeId) : Bool :=
  (t.get? attr).any (·.kind matches .htmlAttribute) && (t.child? attr 1).any fun value =>
    decide (start ≤ value.index) && (t.get? value).any (·.kind matches .attributeValue .double)

/-- The name of the attribute is a reference to the variable, and has the id after it. -/
def NamedBy (t : Tree) (attr binding : NodeId) (varName : String) : Prop :=
  t.kind binding = .ok (.letContent varName) ∧ t.child? attr 0 = some ⟨binding.index + 1⟩ ∧
    t.kind ⟨binding.index + 1⟩ = .ok (.print (.varRef varName) true)

/-- The synthetic attribute stands under a condition on logging metadata and has the given name. Its
id is six before that of the placeholder in the attribute that it is for. -/
def SyntheticFor (t : Tree) (attr synthetic : NodeId) (name : Expr) : Prop :=
  t.child? attr 1 = some ⟨synthetic.index + 6⟩ ∧
    t.IsGateOf ⟨synthetic.index + 4⟩ synthetic ∧ t.kind synthetic = .ok .htmlAttribute ∧
      t.child? synthetic 0 = some ⟨synthetic.index + 1⟩ ∧
        t.kind ⟨synthetic.index + 1⟩ = .ok (.print name true)

/-- The attribute has the number in the name of its synthetic attribute and, if its own name is no
literal, in that of the variable. -/
def HasNumber (t : Tree) (o : InstrumentOptions) (number : Nat) (attr : NodeId) : Prop :=
  (∃ synthetic, t.SyntheticFor attr synthetic (functionAttributeName o number)) ∧
    ((∃ name text, t.child? attr 0 = some name ∧ t.kind name = .ok (.rawText text)) ∨
      ∃ binding, t.NamedBy attr binding (variableName o number))

variable {t t' : Tree} {start number : Nat} {parent : Option NodeId} {y b : Branch}
  {path : List Item} {whole : List Branch} {attr : NodeId}

theorem NamedBy.unique {binding binding' : NodeId} {varName varName' : String}
    (h : t.NamedBy attr binding varName) (h' : t.NamedBy attr binding' varName') :
    binding = binding' ∧ varName = varName' := by
  obtain ⟨hkind, hchild, -⟩ := h
  obtain ⟨hkind', hchild', -⟩ := h'
  rw [hchild, Option.some.injEq, NodeId.mk.injEq, Nat.add_right_cancel_iff] at hchild'
  obtain rfl : binding = binding' := congrArg NodeId.mk hchild'
  rw [hkind, Except.ok.injEq, NodeKind.letContent.injEq] at hkind'
  exact ⟨rfl, hkind'⟩

theorem SyntheticFor.unique {synthetic synthetic' : NodeId} {name name' : Expr}
    (h : t.SyntheticFor attr synthetic name) (h' : t.SyntheticFor attr synthetic' name') :
    synthetic = synthetic' ∧ name = name' := by
  obtain ⟨hchild, -, -, -, hname⟩ := h
  obtain ⟨hchild', -, -, -, hname'⟩ := h'
  rw [hchild, Option.some.injEq, NodeId.mk.injEq, Nat.add_right_cancel_iff] at hchild'
  obtain rfl : synthetic = synthetic' := congrArg NodeId.mk hchild'
  rw [hname, Except.ok.injEq, NodeKind.print.injEq] at hname'
  exact ⟨rfl, hname'.1⟩

theorem HasNumber.name_eq (h : t.HasNumber o number attr) {synthetic : NodeId} {name : Expr}
    (hsynthetic : t.SyntheticFor attr synthetic name) : name = functionAttributeName o number := by
  obtain ⟨synthetic', hsynthetic'⟩ := h.1
  exact (hsynthetic.unique hsynthetic').2

section

variable {root : NodeId} {next : Nat} {others : Multiset Node} {a : Item} {cs : List Branch}

/-- Below a node that does not hang in the tree there are only others that do not. -/
theorem Holds.mem_others_of_child (h : t.Holds root next ((Rose.node a cs).nodes none + others))
    (hclosed : Closed others) {id child : NodeId} (hid : id ∉ (Rose.node a cs).ids)
    (hchild : child ∈ t.children id) :
    child ∉ (Rose.node a cs).ids ∧ ∃ n ∈ others, n.id = child := by
  obtain ⟨n, hget, hmem⟩ := exists_get?_of_mem_children hchild
  have hn : n ∈ others := by
    refine (Multiset.mem_add.mp (h.mem hget)).resolve_left fun hn => hid ?_
    rw [← h.id_eq hget]
    exact (Rose.mem_ids_iff none).mpr ⟨n, hn, rfl⟩
  obtain ⟨m, hm, rfl, -⟩ := hclosed.child n hn child hmem
  refine ⟨?_, m, hm, rfl⟩
  have hnodup := h.nodup
  rw [Multiset.map_add, Multiset.nodup_add, map_id_nodes] at hnodup
  exact fun hids => Multiset.disjoint_left.mp hnodup.2.2 (Multiset.mem_coe.mpr hids)
    (Multiset.mem_map_of_mem _ hm)

theorem Holds.index_lt_of_mem (h : t.Holds root next ((Rose.node a cs).nodes none + others))
    {x : Item} (hx : x ∈ labelsAll cs) : x.id.index < next := by
  have hmem : x ∈ (Rose.node a cs).labels := List.mem_cons_of_mem a hx
  obtain ⟨n, hn, rfl⟩ := exists_node_of_mem_labels none hmem
  exact h.below n (Multiset.mem_add.mpr (Or.inl hn))

theorem Shows.noTemplate {z : Branch} (h : t.Shows parent z) (hnodup : z.ids.Nodup)
    (hflat : ∀ v name contentKind, t.Below z.id v → t.kind v = .ok (.template name contentKind) →
      v = z.id) : NoTemplate z.children := by
  obtain ⟨b, ds⟩ := z
  intro w hw
  rw [Bool.eq_false_iff]
  intro htemplate
  obtain ⟨name, contentKind, hkind⟩ : ∃ name contentKind, w.kind = .template name contentKind := by
    cases hk : w.kind with
    | template name contentKind => exact ⟨name, contentKind, rfl⟩
    | _ =>
        rw [hk] at htemplate
        cases htemplate
  have hmem : w ∈ (Rose.node b ds).labels := List.mem_cons_of_mem b hw
  have heq := hflat w.id name contentKind (h.below_of_mem w.id (List.mem_map_of_mem hmem))
    ((h.kind_of_mem hmem).trans (congrArg Except.ok hkind))
  rw [ids_node, List.nodup_cons] at hnodup
  rw [id_node] at heq
  exact hnodup.1 (heq ▸ List.mem_map_of_mem hw)

theorem Holds.noTemplate (h : t.Holds root next ((Rose.node a cs).nodes none + others))
    {z : Branch} (hz : Occurs z path cs)
    (hflat : ∀ v name contentKind, t.Below z.id v → t.kind v = .ok (.template name contentKind) →
      v = z.id) : NoTemplate z.children :=
  (h.shows.children.of_occurs hz).noTemplate
    (((hz.labels_sublist.cons a).map Item.id).nodup h.nodup_ids) hflat

end

variable {report : InstrumentReport}

end Tree

end TemplateLogging
