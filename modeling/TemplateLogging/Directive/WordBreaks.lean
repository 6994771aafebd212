import TemplateLogging.Value.Basic

namespace TemplateLogging.Directive

def wordBreak : String := "<wbr>"

/-- Where in the text a scan stands. -/
inductive Region where
  | plain
  | tag
  /-- After an ampersand, which begins an entity if a semicolon comes before a space or a tag. -/
  | entity
deriving DecidableEq

/-- A scan's region, and the number of characters since the last break opportunity. -/
structure WordScan where
  region : Region := .plain
  count : Nat := 0

def WordScan.next (s : WordScan) (c : Char) : WordScan :=
  match s.region with
  | .tag => if c = '>' then { s with region := .plain } else s
  | .entity =>
      if c = ';' then ⟨.plain, s.count + 1⟩
      else if c = '<' then { s with region := .tag }
      else if c = ' ' then ⟨.plain, 0⟩
      else s
  | .plain =>
      if c = '<' then { s with region := .tag }
      else if c = '&' then { s with region := .entity }
      else if c = ' ' then { s with count := 0 }
      else { s with count := s.count + 1 }

/-- Copies the characters, with a break before each one, other than a space, that finds the count at
the limit. -/
def breakWords (limit : Nat) : WordScan → List Char → List Char
  | _, [] => []
  | s, c :: cs =>
      if limit ≤ s.count ∧ c ≠ ' ' then
        wordBreak.toList ++ c :: breakWords limit (WordScan.next { s with count := 0 } c) cs
      else c :: breakWords limit (s.next c) cs

def insertWordBreaks (v : Value) (limit : Nat) : Value :=
  v.withText (String.ofList (breakWords limit {} v.text.toList)) none

end TemplateLogging.Directive
