import TemplateLogging.Proofs.JsonTexts
import TemplateLogging.Tree.Json

namespace TemplateLogging

namespace Json

variable {α : Type}

theorem mapM_map_eq_some {write : α → Json} {read : Json → Option α} {as : List α}
    (h : ∀ a ∈ as, read (write a) = some a) : (as.map write).mapM read = some as := by
  induction as with
  | nil => rfl
  | cons a as ih =>
      rw [List.map_cons, List.mapM_cons, h a List.mem_cons_self,
        ih fun b hb => h b (List.mem_cons_of_mem _ hb)]
      rfl

theorem toList?_map {write : α → Json} {read : Json → Option α} {as : List α}
    (h : ∀ a ∈ as, read (write a) = some a) : (arr (as.map write)).toList? read = some as :=
  mapM_map_eq_some h

theorem toOption?_of_ne_null {read : Json → Option α} {j : Json} (h : j ≠ null) :
    j.toOption? read = (read j).map some := by
  cases j with
  | null => exact absurd rfl h
  | _ => rfl

theorem toOption?_optionToJson {write : α → Json} {read : Json → Option α} {a? : Option α}
    (h : ∀ a, a? = some a → write a ≠ null ∧ read (write a) = some a) :
    (optionToJson write a?).toOption? read = some a? := by
  cases a? with
  | none => rfl
  | some a =>
      obtain ⟨hnull, hread⟩ := h a rfl
      rw [optionToJson, toOption?_of_ne_null hnull, hread]
      rfl

mutual

theorem isReadable_of_isPlain : ∀ {j : Json}, j.IsPlain → j.isReadable = true
  | null, _ => rfl
  | bool _, _ => rfl
  | int _, _ => rfl
  | float _, h => absurd h id
  | str _, _ => rfl
  | arr _, h => areReadable_of_arePlain h
  | obj _, h => areReadableMembers_of_arePlainMembers h
  | unreadable, h => absurd h id

theorem areReadable_of_arePlain : ∀ {items : List Json}, ArePlain items → areReadable items = true
  | [], _ => rfl
  | j :: items, h => by
      rw [areReadable, isReadable_of_isPlain h.1, areReadable_of_arePlain h.2]
      rfl

theorem areReadableMembers_of_arePlainMembers : ∀ {members : List (Key × Json)},
    ArePlainMembers members → areReadableMembers members = true
  | [], _ => rfl
  | (key, j) :: members, h => by
      rw [areReadableMembers, isReadable_of_isPlain h.2.1,
        areReadableMembers_of_arePlainMembers h.2.2]
      rfl

end

theorem readable?_of_isPlain {j : Json} (h : j.IsPlain) : j.readable? = some j := by
  rw [readable?, isReadable_of_isPlain h]
  rfl

theorem arePlain_map {write : α → Json} {as : List α} (h : ∀ a ∈ as, (write a).IsPlain) :
    ArePlain (as.map write) := by
  induction as with
  | nil => exact trivial
  | cons a as ih => exact ⟨h a List.mem_cons_self, ih fun b hb => h b (List.mem_cons_of_mem _ hb)⟩

theorem arePlainMembers_map {write : α → Key × Json} {as : List α}
    (h : ∀ a ∈ as, (write a).1.IsPlain ∧ (write a).2.IsPlain) : ArePlainMembers (as.map write) := by
  induction as with
  | nil => exact trivial
  | cons a as ih =>
      obtain ⟨hkey, hj⟩ := h a List.mem_cons_self
      exact ⟨hkey, hj, ih fun b hb => h b (List.mem_cons_of_mem _ hb)⟩

theorem isPlain_optionToJson {write : α → Json} {a? : Option α}
    (h : ∀ a, a? = some a → (write a).IsPlain) : (optionToJson write a?).IsPlain := by
  cases a? with
  | none => exact trivial
  | some a => exact h a rfl

-- The instance is given by hand, so that what is gone through is the name and not all characters.
instance (key : Key) : Decidable key.IsPlain :=
  @instDecidableAnd _ _ _ (List.decidableBAll _ _)

end Json

theorem Callee.ofJson?_toJson (c : Callee) : Callee.ofJson? c.toJson = some c := by
  cases c with
  | builtin b => cases b <;> rfl
  | logging f => rfl
  | user name => rfl

theorem Callee.isPlain_toJson (c : Callee) : c.toJson.IsPlain := by
  cases c with
  | builtin b => exact ⟨by decide, trivial, by decide, trivial, trivial⟩
  | logging f =>
      exact ⟨by decide, trivial, by decide, ⟨by decide, trivial, by decide, trivial, trivial⟩,
        trivial⟩
  | user name => exact ⟨by decide, trivial, by decide, trivial, trivial⟩

theorem isPlain_int64 (n : Int64) : (Json.int n.toInt).IsPlain := by
  have hhigh := n.toInt_lt
  exact ⟨n.le_toInt, by omega⟩

theorem toInt64?_toInt (n : Int64) : (Json.int n.toInt).toInt64? = some n := by
  rw [Json.toInt64?, Int64.ofInt_toInt, if_pos rfl]

namespace Expr

mutual

/-- Whether a double stands in an expression. -/
def hasFloat : Expr → Bool
  | float _ => true
  | list items => haveFloat items
  | protoInit _ fields => fieldsHaveFloat fields
  | plus left right => left.hasFloat || right.hasFloat
  | call _ args => haveFloat args
  | _ => false

def haveFloat : List Expr → Bool
  | [] => false
  | e :: rest => e.hasFloat || haveFloat rest

def fieldsHaveFloat : List (String × Expr) → Bool
  | [] => false
  | (_, e) :: rest => e.hasFloat || fieldsHaveFloat rest

end

mutual

theorem isPlain_toJson : ∀ {e : Expr}, e.hasFloat = false → e.toJson.IsPlain
  | null, _ => ⟨by decide, trivial, trivial⟩
  | bool b, _ => ⟨by decide, trivial, by decide, trivial, trivial⟩
  | integer n, _ => ⟨by decide, trivial, by decide, isPlain_int64 n, trivial⟩
  | float x, h => by cases h
  | str s, _ => ⟨by decide, trivial, by decide, trivial, trivial⟩
  | varRef name, _ => ⟨by decide, trivial, by decide, trivial, trivial⟩
  | list items, h => ⟨by decide, trivial, by decide, arePlain_listToJson h, trivial⟩
  | protoInit typeName fields, h =>
      ⟨by decide, trivial, by decide, trivial, by decide, arePlain_fieldsToJson h, trivial⟩
  | plus left right, h => by
      rw [hasFloat, Bool.or_eq_false_iff] at h
      exact ⟨by decide, trivial, by decide, isPlain_toJson h.1, by decide, isPlain_toJson h.2,
        trivial⟩
  | call callee args, h =>
      ⟨by decide, trivial, by decide, callee.isPlain_toJson, by decide, arePlain_listToJson h,
        trivial⟩

theorem arePlain_listToJson : ∀ {es : List Expr}, haveFloat es = false →
    Json.ArePlain (listToJson es)
  | [], _ => trivial
  | e :: es, h => by
      rw [haveFloat, Bool.or_eq_false_iff] at h
      exact ⟨isPlain_toJson h.1, arePlain_listToJson h.2⟩

theorem arePlain_fieldsToJson : ∀ {fields : List (String × Expr)}, fieldsHaveFloat fields = false →
    Json.ArePlain (fieldsToJson fields)
  | [], _ => trivial
  | (name, e) :: fields, h => by
      rw [fieldsHaveFloat, Bool.or_eq_false_iff] at h
      exact ⟨⟨trivial, isPlain_toJson h.1, trivial⟩, arePlain_fieldsToJson h.2⟩

end

mutual

theorem readInner?_toJson : ∀ {e : Expr} {levels : Nat}, e.hasFloat = false →
    e.toJson.depth ≤ levels → readInner? levels e.toJson = some e
  | null, levels + 1, _, _ => rfl
  | bool b, levels + 1, _, _ => rfl
  | integer n, levels + 1, _, _ => by
      show (do
        let m ← (Json.int n.toInt).toInt64?
        return Expr.integer m) = _
      rw [toInt64?_toInt]
      rfl
  | float x, levels + 1, h, _ => by cases h
  | str s, levels + 1, _, _ => rfl
  | varRef name, levels + 1, _, _ => rfl
  | list items, levels + 1, h, hlevels => by
      have hdepth : Json.depthItems (listToJson items) ≤ levels := by
        simp only [toJson, Json.depth, Json.depthMembers] at hlevels
        omega
      show (do
        let parts ← (listToJson items).mapM (readInner? levels)
        return Expr.list parts) = _
      rw [mapM_readInner?_listToJson h hdepth]
      rfl
  | protoInit typeName fields, levels + 1, h, hlevels => by
      have hdepth : Json.depthItems (fieldsToJson fields) ≤ levels := by
        simp only [toJson, Json.depth, Json.depthMembers] at hlevels
        omega
      show (do
        let parts ← (fieldsToJson fields).mapM (field? (readInner? levels))
        return Expr.protoInit typeName parts) = _
      rw [mapM_field?_fieldsToJson h hdepth]
      rfl
  | plus left right, levels + 1, h, hlevels => by
      rw [hasFloat, Bool.or_eq_false_iff] at h
      have hdepth : left.toJson.depth ≤ levels ∧ right.toJson.depth ≤ levels := by
        simp only [toJson, Json.depth, Json.depthMembers] at hlevels
        omega
      show (do
        let first ← readInner? levels left.toJson
        let second ← readInner? levels right.toJson
        return Expr.plus first second) = _
      rw [readInner?_toJson h.1 hdepth.1, readInner?_toJson h.2 hdepth.2]
      rfl
  | call callee args, levels + 1, h, hlevels => by
      have hdepth : Json.depthItems (listToJson args) ≤ levels := by
        simp only [toJson, Json.depth, Json.depthMembers] at hlevels
        omega
      show (do
        let function ← Callee.ofJson? callee.toJson
        let parts ← (listToJson args).mapM (readInner? levels)
        return Expr.call function parts) = _
      rw [callee.ofJson?_toJson, mapM_readInner?_listToJson h hdepth]
      rfl
  | e, 0, _, hlevels => by
      cases e <;> cases hlevels

theorem mapM_readInner?_listToJson : ∀ {es : List Expr} {levels : Nat}, haveFloat es = false →
    Json.depthItems (listToJson es) ≤ levels → (listToJson es).mapM (readInner? levels) = some es
  | [], _, _, _ => rfl
  | e :: es, levels, h, hlevels => by
      rw [haveFloat, Bool.or_eq_false_iff] at h
      rw [listToJson, Json.depthItems] at hlevels
      rw [listToJson, List.mapM_cons, readInner?_toJson h.1 (by omega),
        mapM_readInner?_listToJson h.2 (by omega)]
      rfl

theorem mapM_field?_fieldsToJson : ∀ {fields : List (String × Expr)} {levels : Nat},
    fieldsHaveFloat fields = false → Json.depthItems (fieldsToJson fields) ≤ levels →
      (fieldsToJson fields).mapM (field? (readInner? levels)) = some fields
  | [], _, _, _ => rfl
  | (name, e) :: fields, levels, h, hlevels => by
      rw [fieldsHaveFloat, Bool.or_eq_false_iff] at h
      rw [fieldsToJson, Json.depthItems] at hlevels
      have he : e.toJson.depth ≤ levels := by
        simp only [Json.depth, Json.depthItems] at hlevels
        omega
      rw [fieldsToJson, List.mapM_cons, field?, readInner?_toJson h.1 he,
        mapM_field?_fieldsToJson h.2 (by omega)]
      rfl

end

theorem ofInner?_toJson {e : Expr} (h : e.hasFloat = false) : ofInner? e.toJson = some e :=
  readInner?_toJson h (Nat.le_refl _)

theorem toJson_ne_null (e : Expr) : e.toJson ≠ .null := by
  cases e <;> exact Json.noConfusion

theorem toOption?_optionToJson {e? : Option Expr} (h : ∀ e ∈ e?.toList, e.hasFloat = false) :
    (optionToJson toJson e?).toOption? ofInner? = some e? := by
  apply Json.toOption?_optionToJson
  rintro e rfl
  exact ⟨e.toJson_ne_null, ofInner?_toJson (h e (by simp))⟩

end Expr

namespace LogBlock

variable {b : LogBlock}

theorem isPlain_members (hconfig : ∀ e ∈ b.config.toList, e.hasFloat = false)
    (hlogonly : ∀ e ∈ b.logonly.toList, e.hasFloat = false) : Json.ArePlainMembers b.members := by
  refine ⟨by decide, trivial, by decide, ?_, by decide, ?_, by decide, ?_, trivial⟩
  · exact Json.isPlain_optionToJson fun n _ => isPlain_int64 n
  · exact Json.isPlain_optionToJson fun e he => Expr.isPlain_toJson (hconfig e (by simp [he]))
  · exact Json.isPlain_optionToJson fun e he => Expr.isPlain_toJson (hlogonly e (by simp [he]))

theorem ofRecord?_members (hconfig : ∀ e ∈ b.config.toList, e.hasFloat = false)
    (hlogonly : ∀ e ∈ b.logonly.toList, e.hasFloat = false) :
    ofRecord? (.obj b.members) = some b := by
  have hloggingId : (optionToJson (fun n : Int64 => .int n.toInt) b.loggingId).toOption?
      Json.toInt64? = some b.loggingId := by
    apply Json.toOption?_optionToJson
    intro n _
    exact ⟨Json.noConfusion, toInt64?_toInt n⟩
  show (do
    let loggingId ← (optionToJson (fun n : Int64 => .int n.toInt) b.loggingId).toOption?
      Json.toInt64?
    let config ← (optionToJson Expr.toJson b.config).toOption? Expr.ofInner?
    let logonly ← (optionToJson Expr.toJson b.logonly).toOption? Expr.ofInner?
    return LogBlock.mk b.name loggingId config logonly) = _
  rw [hloggingId, Expr.toOption?_optionToJson hconfig, Expr.toOption?_optionToJson hlogonly]
  rfl

end LogBlock

namespace NodeKind

variable {kind : NodeKind}

theorem isPlain_toJson (h : ∀ e ∈ kind.exprs, e.hasFloat = false) : kind.toJson.IsPlain := by
  refine ⟨by decide, trivial, ?_⟩
  cases kind with
  | fileSet => exact trivial
  | file path fileKind => exact ⟨by decide, trivial, by decide, trivial, trivial⟩
  | template name contentKind => exact ⟨by decide, trivial, by decide, trivial, trivial⟩
  | rawText text => exact ⟨by decide, trivial, trivial⟩
  | print e isImplicit =>
      exact ⟨by decide, Expr.isPlain_toJson (h e (by simp [exprs])), by decide, trivial, trivial⟩
  | openTag name selfClosing => exact ⟨by decide, trivial, by decide, trivial, trivial⟩
  | closeTag name => exact ⟨by decide, trivial, trivial⟩
  | htmlAttribute => exact trivial
  | attributeValue quotes => exact ⟨by decide, trivial, trivial⟩
  | ifBlock => exact trivial
  | ifCond condition =>
      exact ⟨by decide, Expr.isPlain_toJson (h condition (by simp [exprs])), trivial⟩
  | ifElse => exact trivial
  | letContent varName => exact ⟨by decide, trivial, trivial⟩
  | logBlock block =>
      exact LogBlock.isPlain_members (fun e he => h e (List.mem_append_left _ he))
        fun e he => h e (List.mem_append_right _ he)

theorem ofRecord?_members (h : ∀ e ∈ kind.exprs, e.hasFloat = false) :
    ofRecord? kind.tag (.obj kind.members) = some kind := by
  cases kind with
  | fileSet => rfl
  | file path fileKind => cases fileKind <;> rfl
  | template name contentKind => cases contentKind <;> rfl
  | rawText text => rfl
  | print e isImplicit =>
      show (do
        let e ← Expr.ofInner? e.toJson
        return NodeKind.print e isImplicit) = _
      rw [Expr.ofInner?_toJson (h e (by simp [exprs]))]
      rfl
  | openTag name selfClosing => rfl
  | closeTag name => rfl
  | htmlAttribute => rfl
  | attributeValue quotes => cases quotes <;> rfl
  | ifBlock => rfl
  | ifCond condition =>
      show (do
        let condition ← Expr.ofInner? condition.toJson
        return NodeKind.ifCond condition) = _
      rw [Expr.ofInner?_toJson (h condition (by simp [exprs]))]
      rfl
  | ifElse => rfl
  | letContent varName => rfl
  | logBlock block =>
      show (LogBlock.ofRecord? (.obj block.members)).map NodeKind.logBlock = _
      rw [LogBlock.ofRecord?_members (fun e he => h e (List.mem_append_left _ he))
        fun e he => h e (List.mem_append_right _ he)]
      rfl

theorem ofJson?_toJson (h : ∀ e ∈ kind.exprs, e.hasFloat = false) :
    ofJson? kind.toJson = some kind := by
  have htagged : kind.toJson.tagged? "type" Json.toString? =
      some (kind.tag, .obj kind.members) := by
    cases kind <;> rfl
  rw [ofJson?, Json.readable?_of_isPlain (isPlain_toJson h)]
  show (kind.toJson.tagged? "type" Json.toString?).bind (fun read =>
    ofRecord? read.1 read.2) = _
  rw [htagged, Option.bind_some]
  exact ofRecord?_members h

end NodeKind

theorem toWord?_int {n : Nat} (h : n ≤ maxWord) : (Json.int n).toWord? = some n := by
  have hlt : n < UInt32.size := Nat.lt_succ_of_le h
  rw [Json.toWord?, Json.toNatBelow?, if_pos ⟨by omega, by omega⟩, Int.toNat_natCast]

theorem isPlain_word {n : Nat} (h : n ≤ maxWord) : (Json.int n).IsPlain := by
  rw [maxWord] at h
  exact ⟨by omega, by omega⟩

theorem NodeId.ofJson?_toJson {id : NodeId} (h : id.index ≤ maxWord) :
    ofJson? id.toJson = some id := by
  rw [ofJson?, toJson, toWord?_int h]
  rfl

theorem NodeId.toList_toKey (id : NodeId) : id.toKey.text.toList = Nat.toDigits 10 id.index := by
  show (toString id.index).toList = _
  rw [Nat.toString_eq_ofList_toDigits, String.toList_ofList]

theorem NodeId.ofKey?_toKey {id : NodeId} (h : id.index ≤ maxWord) :
    ofKey? id.toKey = some id := by
  have hall : (Nat.toDigits 10 id.index).all Char.isDigit = true :=
    List.all_eq_true.mpr fun c hc => Json.isDigit_of_mem_toDigits hc
  have hempty : (Nat.toDigits 10 id.index).isEmpty = false :=
    List.isEmpty_eq_false_iff.mpr Nat.toDigits_ne_nil
  have hescaped : id.toKey.escaped = false := rfl
  rw [ofKey?, id.toList_toKey, hall, hempty, hescaped, Json.isWhole_toDigits,
    Decimal.digitsValue_toDigits, if_neg (by decide), if_pos h]

theorem NodeId.isPlain_toKey (id : NodeId) : id.toKey.IsPlain := by
  refine ⟨rfl, ?_⟩
  intro c hc
  rw [id.toList_toKey] at hc
  exact Json.escapeChar_of_isDigit (Json.isDigit_of_mem_toDigits hc)

/-- Lines and columns are numbers with 32 bits. -/
def Point.FitsWords (p : Point) : Prop :=
  p.line ≤ maxWord ∧ p.column ≤ maxWord

def Location.FitsWords (l : Location) : Prop :=
  l.start.FitsWords ∧ l.stop.FitsWords

instance (p : Point) : Decidable p.FitsWords :=
  inferInstanceAs (Decidable (_ ∧ _))

instance (l : Location) : Decidable l.FitsWords :=
  inferInstanceAs (Decidable (_ ∧ _))

theorem Point.ofJson?_toJson {p : Point} (h : p.FitsWords) : ofJson? p.toJson = some p := by
  show (do
    let line ← (Json.int p.line).toWord?
    let column ← (Json.int p.column).toWord?
    return Point.mk line column) = _
  rw [toWord?_int h.1, toWord?_int h.2]
  rfl

theorem Point.isPlain_toJson {p : Point} (h : p.FitsWords) : p.toJson.IsPlain :=
  ⟨by decide, isPlain_word h.1, by decide, isPlain_word h.2, trivial⟩

theorem Location.ofJson?_toJson {l : Location} (h : l.FitsWords) : ofJson? l.toJson = some l := by
  have hfields : l.toJson.fields? [.required "filePath", .required "begin", .required "end"] =
      some [some (.str l.file), some l.start.toJson, some l.stop.toJson] := rfl
  rw [ofJson?, hfields]
  simp only [Point.ofJson?_toJson h.1, Point.ofJson?_toJson h.2]
  rfl

theorem Location.isPlain_toJson {l : Location} (h : l.FitsWords) : l.toJson.IsPlain :=
  ⟨by decide, trivial, by decide, Point.isPlain_toJson h.1, by decide, Point.isPlain_toJson h.2,
    trivial⟩

namespace Node

/-- What JSON can hold of a node: ids and places with 32 bits, and no doubles. -/
structure Storable (n : Node) : Prop where
  id : n.id.index ≤ maxWord
  location : n.location.FitsWords
  parent : ∀ parent, n.parent = some parent → parent.index ≤ maxWord
  children : ∀ child ∈ n.children, child.index ≤ maxWord
  exprs : ∀ e ∈ n.kind.exprs, e.hasFloat = false

variable {n : Node}

theorem Storable.ofJson?_toJson (h : n.Storable) : ofJson? n.toJson = some n := by
  have hparent :
      (optionToJson NodeId.toJson n.parent).toOption? NodeId.ofJson? = some n.parent := by
    apply Json.toOption?_optionToJson
    intro parent hparent
    exact ⟨Json.noConfusion, NodeId.ofJson?_toJson (h.parent parent hparent)⟩
  have hchildren : (Json.arr (n.children.map NodeId.toJson)).toList? NodeId.ofJson? =
      some n.children :=
    Json.toList?_map fun child hchild => NodeId.ofJson?_toJson (h.children child hchild)
  show (do
    let id ← NodeId.ofJson? n.id.toJson
    let location ← Location.ofJson? n.location.toJson
    let parent ← (optionToJson NodeId.toJson n.parent).toOption? NodeId.ofJson?
    let children ← (Json.arr (n.children.map NodeId.toJson)).toList? NodeId.ofJson?
    let kind ← NodeKind.ofJson? n.kind.toJson
    return Node.mk id location parent children kind) = _
  rw [NodeId.ofJson?_toJson h.id, Location.ofJson?_toJson h.location, hparent, hchildren,
    NodeKind.ofJson?_toJson h.exprs]
  rfl

theorem Storable.isPlain_toJson (h : n.Storable) : n.toJson.IsPlain := by
  refine ⟨by decide, isPlain_word h.id, by decide, Location.isPlain_toJson h.location, by decide,
    ?_, by decide, ?_, by decide, NodeKind.isPlain_toJson h.exprs, trivial⟩
  · exact Json.isPlain_optionToJson fun parent hparent => isPlain_word (h.parent parent hparent)
  · exact Json.arePlain_map fun child hchild => isPlain_word (h.children child hchild)

end Node

end TemplateLogging
