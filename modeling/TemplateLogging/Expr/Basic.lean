namespace TemplateLogging

/-- The functions that the template language itself knows. The first four stand in instrumented
templates: a renamed key, the test for logging metadata, the marker of a logging block and the
attribute of a logging function. -/
inductive Builtin where
  | xid
  | hasLoggingMetadata
  | makeLoggingMarker
  | renderLoggingAttribute
  | augmentMap
  | ceil
  | floor
  | keys
  | max
  | min
  | parseFloat
  | parseInt
  | round
deriving DecidableEq

def Builtin.sourceName : Builtin → String
  | xid => "xid"
  | hasLoggingMetadata => "$$hasLoggingMetadata"
  | makeLoggingMarker => "$$makeLoggingMarker"
  | renderLoggingAttribute => "$$renderLoggingAttribute"
  | augmentMap => "augmentMap"
  | ceil => "ceiling"
  | floor => "floor"
  | keys => "keys"
  | max => "max"
  | min => "min"
  | parseFloat => "parseFloat"
  | parseInt => "parseInt"
  | round => "round"

/-- A function whose calls in attribute values are put off until the page is rendered; until then
its placeholder stands in the attribute. -/
structure LoggingFunction where
  name : String
  placeholder : String
deriving DecidableEq

inductive Callee where
  | builtin (b : Builtin)
  | logging (f : LoggingFunction)
  | user (name : String)
deriving DecidableEq

def Callee.name : Callee → String
  | builtin b => b.sourceName
  | logging f => f.name
  | user name => name

inductive Expr where
  | null
  | bool (b : Bool)
  | integer (n : Int64)
  | float (x : Float)
  | str (s : String)
  | varRef (name : String)
  | list (items : List Expr)
  | protoInit (typeName : String) (fields : List (String × Expr))
  | plus (left right : Expr)
  | call (callee : Callee) (args : List Expr)
deriving Inhabited

structure Call where
  callee : Callee
  args : List Expr

structure LoggingCall where
  function : LoggingFunction
  args : List Expr

def Call.toLogging? (c : Call) : Option LoggingCall :=
  match c.callee with
  | .logging f => some ⟨f, c.args⟩
  | _ => none

namespace Expr

mutual

/-- All calls, a call before the calls in its arguments. -/
def calls : Expr → List Call
  | list items => listCalls items
  | protoInit _ fields => fieldCalls fields
  | plus left right => left.calls ++ right.calls
  | call callee args => ⟨callee, args⟩ :: listCalls args
  | _ => []

def listCalls : List Expr → List Call
  | [] => []
  | e :: rest => e.calls ++ listCalls rest

def fieldCalls : List (String × Expr) → List Call
  | [] => []
  | (_, e) :: rest => e.calls ++ fieldCalls rest

end

/-- The calls of logging functions, in the order of `calls`. -/
def loggingCalls (e : Expr) : List LoggingCall :=
  e.calls.filterMap Call.toLogging?

theorem listCalls_eq_flatMap (es : List Expr) : listCalls es = es.flatMap calls := by
  induction es with
  | nil => rfl
  | cons e es ih => simp [listCalls, ih]

theorem fieldCalls_eq_flatMap (fields : List (String × Expr)) :
    fieldCalls fields = fields.flatMap fun (_, e) => e.calls := by
  induction fields with
  | nil => rfl
  | cons field rest ih => simp [fieldCalls, ih]

end Expr

end TemplateLogging
