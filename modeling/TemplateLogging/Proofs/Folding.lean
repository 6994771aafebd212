import TemplateLogging.Expr.Constant

/-!
What constant folding looks at. The value of an expression is put together from the values of all
expressions that stand directly in it, so a part without a value, however deep, leaves the whole
without one. Of a renaming nothing but the names of keys is used, and by calls of `xid` only.
-/

namespace TemplateLogging

variable {r r' : Renaming}

/-- The numbers of arguments that the function takes, if its calls can have a constant value. -/
def Builtin.arities : Builtin → List Nat
  | hasLoggingMetadata | makeLoggingMarker | renderLoggingAttribute => []
  | xid | ceil | floor | keys | parseFloat | parseInt => [1]
  | augmentMap | max | min => [2]
  | round => [1, 2]

theorem Builtin.mem_arities_iff (b : Builtin) (n : Nat) :
    n ∈ b.arities ↔ ∃ r args v, args.length = n ∧ b.apply? r args = some v := by
  constructor
  · intro hn
    cases b with
    | hasLoggingMetadata | makeLoggingMarker | renderLoggingAttribute => cases hn
    | xid | ceil | floor | parseFloat | parseInt =>
        obtain rfl := List.mem_singleton.mp hn
        exact ⟨{}, [.integer 0], _, rfl, rfl⟩
    | keys =>
        obtain rfl := List.mem_singleton.mp hn
        exact ⟨{}, [.map []], _, rfl, rfl⟩
    | augmentMap =>
        obtain rfl := List.mem_singleton.mp hn
        exact ⟨{}, [.map [], .map []], _, rfl, rfl⟩
    | max | min =>
        obtain rfl := List.mem_singleton.mp hn
        exact ⟨{}, [.integer 0, .integer 0], _, rfl, rfl⟩
    | round =>
        simp only [arities, List.mem_cons, List.not_mem_nil, or_false] at hn
        rcases hn with rfl | rfl
        · exact ⟨{}, [.integer 0], _, rfl, rfl⟩
        · exact ⟨{}, [.integer 0, .integer 0], _, rfl, rfl⟩
  · rintro ⟨r, args, v, rfl, happly⟩
    unfold Builtin.apply? at happly
    split at happly
    all_goals first | cases happly; done | simp [arities]

theorem Builtin.apply?_congr {b : Builtin} (h : b = .xid → ∀ key, r.xid key = r'.xid key)
    (args : List Value) : b.apply? r args = b.apply? r' args := by
  unfold Builtin.apply?
  split
  · rw [h rfl]
  all_goals rfl

namespace Expr

variable {e part : Expr}

/-- The expressions that stand directly in an expression. -/
def operands : Expr → List Expr
  | list items => items
  | protoInit _ fields => fields.map (·.2)
  | plus left right => [left, right]
  | call _ args => args
  | _ => []

/-- The first expression stands in the second, at any depth. -/
inductive PartOf (part : Expr) : Expr → Prop
  | self : PartOf part part
  | operand {e c : Expr} (hc : c ∈ e.operands) (h : PartOf part c) : PartOf part e

theorem sizeOf_lt_of_mem_operands {c : Expr} (h : c ∈ e.operands) : sizeOf c < sizeOf e := by
  cases e with
  | list items =>
      have hlt := List.sizeOf_lt_of_mem (show c ∈ items from h)
      simp only [list.sizeOf_spec]
      omega
  | protoInit typeName fields =>
      obtain ⟨⟨name, c⟩, hfield, rfl⟩ := List.mem_map.mp h
      have hlt := List.sizeOf_lt_of_mem hfield
      simp only [protoInit.sizeOf_spec, Prod.mk.sizeOf_spec] at hlt ⊢
      omega
  | plus left right =>
      simp only [operands, List.mem_cons, List.not_mem_nil, or_false] at h
      rcases h with rfl | rfl
      · simp only [plus.sizeOf_spec]
        omega
      · simp only [plus.sizeOf_spec]
        omega
  | call callee args =>
      have hlt := List.sizeOf_lt_of_mem (show c ∈ args from h)
      simp only [call.sizeOf_spec]
      omega
  | _ => simp [operands] at h

/-- What an expression has if all that stands directly in it has it, every expression has. -/
theorem induction_operands {P : Expr → Prop} (h : ∀ e : Expr, (∀ c ∈ e.operands, P c) → P e)
    (e : Expr) : P e :=
  h e fun c _ => induction_operands h c
termination_by e
decreasing_by exact sizeOf_lt_of_mem_operands ‹_›

theorem mem_calls_iff_operands (c : Call) (e : Expr) :
    c ∈ e.calls ↔ e = .call c.callee c.args ∨ ∃ d ∈ e.operands, c ∈ d.calls := by
  cases e with
  | list items => simp [calls, listCalls_eq_flatMap, operands]
  | protoInit typeName fields =>
      simp only [calls, fieldCalls_eq_flatMap, operands, ← List.mem_flatMap, List.flatMap_map,
        reduceCtorEq, false_or]
  | call callee args =>
      obtain ⟨callee', args'⟩ := c
      simp [calls, listCalls_eq_flatMap, operands, eq_comm]
  | _ => simp [calls, operands]

theorem mem_calls_iff (c : Call) (e : Expr) : c ∈ e.calls ↔ PartOf (.call c.callee c.args) e := by
  induction e using induction_operands with
  | h e ih =>
      rw [mem_calls_iff_operands]
      constructor
      · rintro (rfl | ⟨d, hd, hc⟩)
        · exact .self
        · exact .operand hd ((ih d hd).mp hc)
      · intro hpart
        cases hpart with
        | self => exact Or.inl rfl
        | operand hd hpart => exact Or.inr ⟨_, hd, (ih _ hd).mpr hpart⟩

/-- The value of an expression when the values of what stands directly in it are known. -/
def assemble? (r : Renaming) : Expr → List Value → Option Value
  | null, _ => some .null
  | bool b, _ => some (.bool b)
  | integer n, _ => some (.integer n)
  | float x, _ => some (.float x)
  | str s, _ => some (.string s)
  | list _, values => some (.list values)
  | protoInit _ fields, values =>
      some (.map (Entries.insertAll [] ((fields.map (·.1)).zip values)))
  | plus _ _, values =>
      match values with
      | [v, w] => some (v.plus w)
      | _ => none
  | call (.builtin b) _, values => b.apply? r values
  | varRef _, _ | call _ _, _ => none

theorem assemble?_congr (h : ∀ args, e = .call (.builtin .xid) args → ∀ key, r.xid key = r'.xid key)
    (values : List Value) : e.assemble? r values = e.assemble? r' values := by
  cases e with
  | call callee args =>
      cases callee with
      | builtin b =>
          apply Builtin.apply?_congr
          rintro rfl
          exact h args rfl
      | logging f => rfl
      | user name => rfl
  | _ => rfl

theorem constants?_cons (e : Expr) (es : List Expr) : constants? r (e :: es) =
    (e.constant? r).bind fun v => (constants? r es).map fun values => v :: values := by
  rw [constants?]
  cases e.constant? r <;> cases constants? r es <;> rfl

theorem fieldConstants?_eq (fields : List (String × Expr)) : fieldConstants? r fields =
    (constants? r (fields.map (·.2))).map fun values => (fields.map (·.1)).zip values := by
  induction fields with
  | nil => rfl
  | cons field fields ih =>
      obtain ⟨name, e⟩ := field
      simp only [fieldConstants?, ih, List.map_cons, constants?_cons]
      cases e.constant? r <;> cases constants? r (fields.map (·.2)) <;> rfl

/-- No form leaves out anything that stands in it. -/
theorem constant?_eq_bind (e : Expr) :
    e.constant? r = (constants? r e.operands).bind (e.assemble? r) := by
  cases e with
  | list items =>
      rw [constant?, operands]
      cases constants? r items <;> rfl
  | protoInit typeName fields =>
      rw [constant?, operands, fieldConstants?_eq]
      cases constants? r (fields.map (·.2)) <;> rfl
  | plus left right =>
      rw [constant?, operands, constants?_cons, constants?_cons]
      cases left.constant? r <;> cases right.constant? r <;> rfl
  | call callee args =>
      cases callee with
      | builtin b =>
          rw [constant?, operands]
          cases constants? r args <;> rfl
      | logging f => cases h : constants? r args <;> simp [constant?, operands, assemble?, h]
      | user name => cases h : constants? r args <;> simp [constant?, operands, assemble?, h]
  | _ => simp [constant?, operands, constants?, assemble?]

theorem exists_of_constants? {es : List Expr} {values : List Value}
    (h : constants? r es = some values) :
    values.length = es.length ∧ ∀ e ∈ es, ∃ v, e.constant? r = some v := by
  induction es generalizing values with
  | nil =>
      cases h
      simp
  | cons e es ih =>
      simp only [constants?_cons, Option.bind_eq_some_iff, Option.map_eq_some_iff] at h
      obtain ⟨v, hv, values, hvalues, rfl⟩ := h
      obtain ⟨hlength, hes⟩ := ih hvalues
      simpa [hlength, hv] using hes

theorem PartOf.exists_constant? (hpart : PartOf part e) {v : Value}
    (h : e.constant? r = some v) : ∃ w, part.constant? r = some w := by
  induction hpart generalizing v with
  | self => exact ⟨v, h⟩
  | operand hc _ ih =>
      rw [constant?_eq_bind] at h
      obtain ⟨values, hvalues, -⟩ := Option.bind_eq_some_iff.mp h
      obtain ⟨w, hw⟩ := (exists_of_constants? hvalues).2 _ hc
      exact ih hw

theorem exists_of_constant?_call {callee : Callee} {args : List Expr} {v : Value}
    (h : (call callee args).constant? r = some v) :
    ∃ b, callee = .builtin b ∧ args.length ∈ b.arities := by
  rw [constant?_eq_bind] at h
  obtain ⟨values, hvalues, happly⟩ := Option.bind_eq_some_iff.mp h
  cases callee with
  | builtin b =>
      refine ⟨b, rfl, (b.mem_arities_iff _).mpr ⟨r, values, v, ?_, happly⟩⟩
      exact (exists_of_constants? hvalues).1
  | logging f => cases happly
  | user name => cases happly

theorem constants?_congr {es : List Expr} (h : ∀ e ∈ es, e.constant? r = e.constant? r') :
    constants? r es = constants? r' es := by
  induction es with
  | nil => rfl
  | cons e es ih =>
      rw [List.forall_mem_cons] at h
      rw [constants?_cons, constants?_cons, h.1, ih h.2]

theorem constant?_congr (e : Expr)
    (h : (∃ args, PartOf (.call (.builtin .xid) args) e) → ∀ key, r.xid key = r'.xid key) :
    e.constant? r = e.constant? r' := by
  induction e using induction_operands with
  | h e ih =>
      have hoperands : constants? r e.operands = constants? r' e.operands := by
        apply constants?_congr
        intro c hc
        apply ih c hc
        rintro ⟨args, hpart⟩
        exact h ⟨args, .operand hc hpart⟩
      have hassemble := funext (assemble?_congr fun args hxid => h ⟨args, hxid ▸ .self⟩)
      rw [constant?_eq_bind, constant?_eq_bind e, hoperands, hassemble]

/-- What the constant value of an expression depends on. If there is one under some renaming, no
variable stands in the expression at any depth, and no call but of a pure function or of `xid` with
as many arguments as it takes; no logging function is called. Under renamings that give all keys the
same names the value is the same, or there is none; without a call of `xid`, under any two. -/
theorem constant?_dependencies (e : Expr) :
    (∀ r v, e.constant? r = some v →
      (∀ name, ¬ PartOf (.varRef name) e) ∧
      (∀ callee args, PartOf (.call callee args) e →
        ∃ b, callee = .builtin b ∧ args.length ∈ b.arities) ∧
      e.loggingCalls = []) ∧
    (∀ r r' : Renaming, (∀ key, r.xid key = r'.xid key) → e.constant? r = e.constant? r') ∧
    ((∀ args, ¬ PartOf (.call (.builtin .xid) args) e) →
      ∀ r r', e.constant? r = e.constant? r') := by
  refine ⟨?_, ?_, ?_⟩
  · intro r v h
    have hcalls : ∀ callee args, PartOf (.call callee args) e →
        ∃ b, callee = .builtin b ∧ args.length ∈ b.arities := by
      intro callee args hpart
      obtain ⟨w, hw⟩ := hpart.exists_constant? h
      exact exists_of_constant?_call hw
    refine ⟨?_, hcalls, ?_⟩
    · intro name hpart
      obtain ⟨w, hw⟩ := hpart.exists_constant? h
      simp [constant?] at hw
    · rw [loggingCalls, List.filterMap_eq_nil_iff]
      intro c hc
      obtain ⟨b, hb, -⟩ := hcalls _ _ ((mem_calls_iff c e).mp hc)
      simp [Call.toLogging?, hb]
  · intro r r' h
    exact constant?_congr e fun _ => h
  · intro hxid r r'
    apply constant?_congr e
    rintro ⟨args, hpart⟩
    exact absurd hpart (hxid args)

/-- The name of an attribute is built with a renamed key, where a second entry for the key changes
nothing; the larger of two numbers is the same under all renamings. -/
theorem constant?_dependencies_attributeName :
    let name : Expr := .plus (.str "data-") (.call (.builtin .xid) [.str "soylog"])
    let larger : Expr := .call (.builtin .max) [.integer 1, .integer 2]
    let r : Renaming := { table := [("soylog", "q")] }
    let r' : Renaming := { table := [("soylog", "q"), ("soylog", "z")] }
    name.constant? r = some (.string "data-q") ∧ (∀ x, ¬ PartOf (.varRef x) name) ∧
      name.loggingCalls = [] ∧ (∀ key, r.xid key = r'.xid key) ∧
      name.constant? r = name.constant? r' ∧
      (∀ args, ¬ PartOf (.call (.builtin .xid) args) larger) ∧
      larger.constant? r = larger.constant? { fallback := .hashed } := by
  intro name larger r r'
  have hvalue : name.constant? r = some (.string "data-q") := rfl
  have hsame : ∀ key, r.xid key = r'.xid key := by
    intro key
    by_cases hkey : key = "soylog"
    · rw [hkey]
      rfl
    · have hbeq := beq_eq_false_iff_ne.mpr hkey
      simp [r, r', Renaming.xid, List.lookup_cons, hbeq]
  have hxid : ∀ args, ¬ PartOf (.call (.builtin .xid) args) larger := by
    intro args hpart
    have hcall := (mem_calls_iff ⟨.builtin .xid, args⟩ larger).mpr hpart
    simp [larger, calls, listCalls] at hcall
  obtain ⟨hreads, hagree, -⟩ := constant?_dependencies name
  obtain ⟨hvars, -, hlogging⟩ := hreads r _ hvalue
  exact ⟨hvalue, hvars, hlogging, hsame, hagree r r' hsame, hxid,
    (constant?_dependencies larger).2.2 hxid r _⟩

end Expr

end TemplateLogging
