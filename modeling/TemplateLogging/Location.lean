import TemplateLogging.Fault
import TemplateLogging.Json.Reader

namespace TemplateLogging

structure Point where
  line : Nat := 0
  column : Nat := 0
deriving DecidableEq

namespace Point

/-- Moves a line or column number, no further than to 1 and to the largest number with 32 bits. -/
def shift (value : Nat) (offset : Int) : Nat :=
  (max 1 (min (value + offset) maxWord)).toNat

def offset (p : Point) (lines columns : Int) : Point :=
  ⟨shift p.line lines, shift p.column columns⟩

def toJson (p : Point) : Json :=
  .obj [("line", .int p.line), ("column", .int p.column)]

def ofJson? (j : Json) : Option Point :=
  match j.fields? [.required "line", .required "column"] with
  | some [some line, some column] => do
      return ⟨← line.toWord?, ← column.toWord?⟩
  | _ => none

end Point

/-- A stretch of a file, from `start` up to `stop`. -/
structure Location where
  file : String := ""
  start : Point := {}
  stop : Point := {}
deriving DecidableEq

namespace Location

def unknown : Location := {}

def atPoint (file : String) (p : Point) : Location := ⟨file, p, p⟩

def toJson (l : Location) : Json :=
  .obj [("filePath", .str l.file), ("begin", l.start.toJson), ("end", l.stop.toJson)]

def ofJson? (j : Json) : Option Location :=
  match j.fields? [.required "filePath", .required "begin", .required "end"] with
  | some [some file, some start, some stop] => do
      return ⟨← file.toString?, ← Point.ofJson? start, ← Point.ofJson? stop⟩
  | _ => none

end Location

end TemplateLogging
