import TemplateLogging.Expr.Basic
import TemplateLogging.Renaming.Basic
import TemplateLogging.Value.Functions

namespace TemplateLogging

/-- Integers add up within 64 bits, other numbers as doubles, and everything else as text. -/
def Value.plus (v w : Value) : Value :=
  match v, w with
  | .integer m, .integer n => .integer (m + n)
  | v, w =>
      match v.number?, w.number? with
      | some x, some y => .float (x + y)
      | _, _ => .string (v.text ++ w.text)

/-- The value of a call of a pure function with the right number of arguments. Texts that write no
number parse to null. -/
def Builtin.apply? (r : Renaming) (b : Builtin) (args : List Value) : Option Value :=
  match b, args with
  | xid, [key] => some (.string (r.xid key.text))
  | augmentMap, [first, second] => Value.augmentMap? first second
  | ceil, [v] => v.ceil?.map .integer
  | floor, [v] => v.floor?.map .integer
  | keys, [v] => v.keys?.map .list
  | max, [v, w] => Value.max? v w
  | min, [v, w] => Value.min? v w
  | parseFloat, [v] => some ((Value.parseFloat? v.text).elim .null .float)
  | parseInt, [v] => some ((Value.parseInt? v.text).elim .null .integer)
  | round, [v] => v.round? 0
  | round, [v, .integer digits] => v.round? digits.toInt
  | _, _ => none

namespace Expr

mutual

/-- The constant value under a renaming of keys. Of two fields with one name the later counts. -/
def constant? (r : Renaming) : Expr → Option Value
  | null => some .null
  | bool b => some (.bool b)
  | integer n => some (.integer n)
  | float x => some (.float x)
  | str s => some (.string s)
  | varRef _ => none
  | list items => (constants? r items).map .list
  | protoInit _ fields =>
      (fieldConstants? r fields).map fun pairs => .map (Entries.insertAll [] pairs)
  | plus left right =>
      match left.constant? r, right.constant? r with
      | some v, some w => some (v.plus w)
      | _, _ => none
  | call (.builtin b) args =>
      match constants? r args with
      | some values => b.apply? r values
      | none => none
  | call _ _ => none

def constants? (r : Renaming) : List Expr → Option (List Value)
  | [] => some []
  | e :: rest =>
      match e.constant? r, constants? r rest with
      | some v, some values => some (v :: values)
      | _, _ => none

def fieldConstants? (r : Renaming) : List (String × Expr) → Option (List (String × Value))
  | [] => some []
  | (name, e) :: rest =>
      match e.constant? r, fieldConstants? r rest with
      | some v, some pairs => some ((name, v) :: pairs)
      | _, _ => none

end

end Expr

end TemplateLogging
