import TemplateLogging.Decimal.Notation
import TemplateLogging.Value.Entries

namespace TemplateLogging

/-- The kind of context that a piece of content is meant for. -/
inductive ContentKind where
  | html
  | attributes
  | js
  | uri
  | trustedResourceUri
  | css
  | text
deriving DecidableEq

def ContentKind.name : ContentKind → String
  | html => "html"
  | attributes => "attributes"
  | js => "js"
  | uri => "uri"
  | trustedResourceUri => "trusted_resource_uri"
  | css => "css"
  | text => "text"

def ContentKind.all : List ContentKind :=
  [html, attributes, js, uri, trustedResourceUri, css, text]

def ContentKind.ofName? (name : String) : Option ContentKind :=
  all.find? (·.name == name)

inductive Direction where
  | ltr
  | rtl
  | neutral
deriving DecidableEq

def Direction.name : Direction → String
  | ltr => "ltr"
  | rtl => "rtl"
  | neutral => "neutral"

def Direction.ofName? (name : String) : Option Direction :=
  [ltr, rtl, neutral].find? (·.name == name)

/-- The direction of the page around a text. -/
inductive PageDirection where
  | ltr
  | rtl
deriving DecidableEq

def PageDirection.toDirection : PageDirection → Direction
  | ltr => .ltr
  | rtl => .rtl

/-- Content that is safe in contexts of its kind. -/
structure SanitizedContent where
  content : String
  kind : ContentKind
  direction : Option Direction
deriving DecidableEq

inductive Value where
  | null
  | bool (b : Bool)
  | integer (n : Int64)
  | float (x : Float)
  | string (s : String)
  | list (items : List Value)
  | map (entries : List (String × Value))
  | sanitized (c : SanitizedContent)

namespace Value

/-- HTML that some escaper has produced. -/
def html (content : String) (direction : Option Direction) : Value :=
  .sanitized ⟨content, .html, direction⟩

def toSanitized? : Value → Option SanitizedContent
  | sanitized c => some c
  | _ => none

def toHtml? (v : Value) : Option SanitizedContent :=
  v.toSanitized?.filter (·.kind = .html)

mutual

def text : Value → String
  | null => "null"
  | bool b => if b then "true" else "false"
  | integer n => toString n.toInt
  | float x => Decimal.pointedText x
  | string s => s
  | list items => "[" ++ ", ".intercalate (texts items) ++ "]"
  | map entries => "\x7b" ++ ", ".intercalate (entryTexts entries) ++ "\x7d"
  | sanitized c => c.content

def texts : List Value → List String
  | [] => []
  | v :: rest => v.text :: texts rest

def entryTexts : List (String × Value) → List String
  | [] => []
  | (name, v) :: rest => (name ++ ": " ++ v.text) :: entryTexts rest

end

def isNumeric : Value → Bool
  | integer _ => true
  | float _ => true
  | _ => false

def number? : Value → Option Float
  | integer n => some n.toFloat
  | float x => some x
  | _ => none

/-- The result of a directive on a value: HTML stays HTML, with its own direction unless another is
given, and everything else becomes a plain string. -/
def withText (v : Value) (result : String) (direction : Option Direction) : Value :=
  match v.toHtml? with
  | some c => .sanitized ⟨result, .html, direction <|> c.direction⟩
  | none => .string result

theorem html_or_toHtml?_eq_none (v : Value) :
    (∃ content direction, v = .html content direction) ∨ v.toHtml? = none := by
  cases v with
  | sanitized c =>
      obtain ⟨content, kind, direction⟩ := c
      by_cases hkind : kind = .html
      · subst hkind
        exact Or.inl ⟨content, direction, rfl⟩
      · refine Or.inr ?_
        rw [toHtml?, toSanitized?, Option.filter_some, if_neg (by simpa using hkind)]
  | _ => exact Or.inr rfl

theorem text_withText (v : Value) (result : String) (direction : Option Direction) :
    (v.withText result direction).text = result := by
  rw [withText]
  cases v.toHtml? with
  | none => rw [text]
  | some c => rw [text]

end Value

end TemplateLogging
