import TemplateLogging.Instrument.Step

namespace TemplateLogging

namespace Expr

theorem loggingCalls_builtin (b : Builtin) (args : List Expr) :
    (Expr.call (.builtin b) args).loggingCalls = args.flatMap loggingCalls := by
  rw [loggingCalls, calls, List.filterMap_cons_none rfl, listCalls_eq_flatMap,
    List.filterMap_flatMap]
  rfl

theorem loggingCalls_plus (left right : Expr) :
    (Expr.plus left right).loggingCalls = left.loggingCalls ++ right.loggingCalls := by
  rw [loggingCalls, calls, List.filterMap_append]
  rfl

theorem loggingCalls_list (items : List Expr) :
    (Expr.list items).loggingCalls = items.flatMap loggingCalls := by
  rw [loggingCalls, calls, listCalls_eq_flatMap, List.filterMap_flatMap]
  rfl

@[simp] theorem loggingCalls_str (text : String) : (Expr.str text).loggingCalls = [] :=
  rfl

@[simp] theorem loggingCalls_integer (n : Int64) : (Expr.integer n).loggingCalls = [] :=
  rfl

mutual

theorem sublist_calls : ∀ (e : Expr) {c : Call}, c ∈ e.calls →
    (c :: listCalls c.args).Sublist e.calls
  | .list items, c, h => sublist_listCalls items h
  | .protoInit _ fields, c, h => sublist_fieldCalls fields h
  | .plus left right, c, h => by
      rw [calls] at h ⊢
      rcases List.mem_append.mp h with h | h
      · exact (sublist_calls left h).trans (List.sublist_append_left _ _)
      · exact (sublist_calls right h).trans (List.sublist_append_right _ _)
  | .call callee args, c, h => by
      rw [calls] at h ⊢
      rcases List.mem_cons.mp h with rfl | h
      · exact List.Sublist.refl _
      · exact (sublist_listCalls args h).trans (List.sublist_cons_self _ _)
  | .null, c, h | .bool _, c, h | .integer _, c, h | .float _, c, h | .str _, c, h
  | .varRef _, c, h => by
      cases h

theorem sublist_listCalls : ∀ (es : List Expr) {c : Call}, c ∈ listCalls es →
    (c :: listCalls c.args).Sublist (listCalls es)
  | e :: es, c, h => by
      rw [listCalls] at h ⊢
      rcases List.mem_append.mp h with h | h
      · exact (sublist_calls e h).trans (List.sublist_append_left _ _)
      · exact (sublist_listCalls es h).trans (List.sublist_append_right _ _)

theorem sublist_fieldCalls : ∀ (fields : List (String × Expr)) {c : Call}, c ∈ fieldCalls fields →
    (c :: listCalls c.args).Sublist (fieldCalls fields)
  | (_, e) :: fields, c, h => by
      rw [fieldCalls] at h ⊢
      rcases List.mem_append.mp h with h | h
      · exact (sublist_calls e h).trans (List.sublist_append_left _ _)
      · exact (sublist_fieldCalls fields h).trans (List.sublist_append_right _ _)

end

theorem sublist_loggingCalls {e : Expr} {call : LoggingCall} (h : call ∈ e.loggingCalls) :
    (call :: call.args.flatMap loggingCalls).Sublist e.loggingCalls := by
  obtain ⟨c, hc, hlogging⟩ := List.mem_filterMap.mp h
  have hsub := (sublist_calls e hc).filterMap Call.toLogging?
  rw [List.filterMap_cons_some hlogging, listCalls_eq_flatMap, List.filterMap_flatMap] at hsub
  obtain ⟨callee, args⟩ := c
  cases callee with
  | logging f =>
      cases hlogging
      exact hsub
  | builtin _ | user _ => cases hlogging

/-- A call that is the only one in some expressions has no call in its arguments. -/
theorem flatMap_args_eq_nil {es : List Expr} {call : LoggingCall}
    (h : es.flatMap loggingCalls = [call]) : call.args.flatMap loggingCalls = [] := by
  have hmem : call ∈ es.flatMap loggingCalls := by
    rw [h]
    exact List.mem_singleton_self call
  obtain ⟨e, he, hcall⟩ := List.mem_flatMap.mp hmem
  have hsub := (sublist_loggingCalls hcall).length_le
  have hle : e.loggingCalls.length ≤ 1 := by
    obtain ⟨before, after, rfl⟩ := List.append_of_mem he
    have hlength := congrArg List.length h
    simp only [List.flatMap_append, List.flatMap_cons, List.length_append,
      List.length_singleton] at hlength
    omega
  rw [List.length_cons] at hsub
  exact List.length_eq_zero_iff.mp (by omega)

end Expr

namespace Instrument

@[simp] theorem loggingCalls_markerName (o : InstrumentOptions) :
    (markerName o).loggingCalls = [] := by
  rw [markerName, xid, Expr.loggingCalls_plus, Expr.loggingCalls_builtin]
  rfl

@[simp] theorem loggingCalls_renderCall (call : LoggingCall) (name : Expr) :
    (renderCall call name).loggingCalls =
      call.args.flatMap Expr.loggingCalls ++ name.loggingCalls := by
  rw [renderCall, Expr.loggingCalls_builtin, List.flatMap_cons, List.flatMap_cons,
    List.flatMap_cons, Expr.loggingCalls_list]
  simp

theorem loggingCalls_marker (id : Int64) (block : LogBlock) :
    (marker id block).loggingCalls =
      (NodeKind.logBlock block).exprs.flatMap Expr.loggingCalls := by
  rw [marker, Expr.loggingCalls_builtin, NodeKind.exprs, List.flatMap_cons, List.flatMap_cons,
    List.flatMap_append]
  cases block.config with
  | none => rfl
  | some e => simp

end Instrument

end TemplateLogging
