import TemplateLogging.Decimal.Notation
import TemplateLogging.Expr.Basic

namespace TemplateLogging.Expr

def escapeQuote (c : Char) : List Char :=
  if c = '\'' then ['\\', '\''] else [c]

def quoted (s : String) : String :=
  String.ofList ('\'' :: s.toList.flatMap escapeQuote ++ ['\''])

mutual

def source : Expr → String
  | null => "null"
  | bool b => if b then "true" else "false"
  | integer n => toString n.toInt
  | float x => Decimal.plainText x
  | str s => quoted s
  | varRef name => "$" ++ name
  | list items => "[" ++ ", ".intercalate (sources items) ++ "]"
  | protoInit typeName fields => typeName ++ "(" ++ ", ".intercalate (fieldSources fields) ++ ")"
  | plus left right => left.source ++ " + " ++ right.source
  | call callee args => callee.name ++ "(" ++ ", ".intercalate (sources args) ++ ")"

def sources : List Expr → List String
  | [] => []
  | e :: rest => e.source :: sources rest

def fieldSources : List (String × Expr) → List String
  | [] => []
  | (name, e) :: rest => (name ++ ": " ++ e.source) :: fieldSources rest

end

end TemplateLogging.Expr
