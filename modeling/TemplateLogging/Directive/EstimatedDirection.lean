import TemplateLogging.Text.Words
import TemplateLogging.Value.Basic

namespace TemplateLogging.Directive

open TemplateLogging.Text

/-- The length of the tag at the front, up to the next `>`. -/
def tagLength? (cs : List Char) : Option Nat :=
  if cs.head? = some '<' then (cs.idxOf? '>').map (· + 1) else none

/-- The length of the entity at the front: an ampersand, at least one character that is neither a
semicolon nor white space, and a semicolon. -/
def entityLength? (cs : List Char) : Option Nat :=
  match cs with
  | '&' :: cs =>
      let name := cs.takeWhile fun c => c != ';' && !isBlank c
      if !name.isEmpty && cs[name.length]? == some ';' then some (name.length + 2) else none
  | _ => none

def markupLength? (cs : List Char) : Option Nat :=
  tagLength? cs <|> entityLength? cs

/-- Puts a space in the place of every tag and entity; `skip` characters still belong to the last
one. -/
def blankMarkup : Nat → List Char → List Char
  | _, [] => []
  | skip + 1, _ :: cs => blankMarkup skip cs
  | 0, c :: cs =>
      match markupLength? (c :: cs) with
      | some n => ' ' :: blankMarkup (n - 1) cs
      | none => c :: blankMarkup 0 cs

/-- What a word says about the direction of its text. -/
inductive WordClass where
  | rtl
  | ltr
  /-- A number or an address, which only counts where no word is strong. -/
  | weakLtr
  | neutral
deriving DecidableEq

def classify (word : List Char) : WordClass :=
  if startsRtl word then .rtl
  else if "http://".toList.isPrefixOf word || "https://".toList.isPrefixOf word then .weakLtr
  else if word.any isStrongLtr then .ltr
  else if word.any isWeakDigit then .weakLtr
  else .neutral

def directionOf (classes : List WordClass) : Direction :=
  let rtl := classes.count .rtl
  let strong := rtl + classes.count .ltr
  if strong = 0 then
    if classes.contains .weakLtr then .ltr else .neutral
  else if 2 * strong < 5 * rtl then .rtl
  else .ltr

/-- The direction of a text; in HTML, markup says nothing. -/
def estimateDirection (s : String) (isHtml : Bool) : Direction :=
  let cs := if isHtml then blankMarkup 0 s.toList else s.toList
  directionOf ((words cs).map classify)

end TemplateLogging.Directive
