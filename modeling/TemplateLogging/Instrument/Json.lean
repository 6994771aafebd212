import TemplateLogging.Instrument.Basic
import TemplateLogging.Tree.Json

namespace TemplateLogging

namespace CompilerFault

def toJson (f : CompilerFault) : Json :=
  .obj [("code", .str f.code), ("errorType", .str errorType), ("message", .str f.message),
    ("guarantee", .str f.guarantee), ("file", .str f.file), ("line", .int f.line),
    ("column", .int f.column), ("context", optionToJson .str f.context)]

end CompilerFault

/-- Why a text could not be instrumented. -/
inductive TextError where
  | load (error : LoadError)
  | compiler (fault : CompilerFault)

/-- Instruments the tree that a text describes, with the options of another text or the default
ones. The answer is the text of the changed tree and the report. -/
def instrumentText (tree : String) (options? : Option String) :
    Except Fault (Except TextError String) :=
  match Tree.load tree with
  | .error error => .ok (.error (.load error))
  | .ok t =>
      match options?.elim (some {}) InstrumentOptions.load? with
      | none => .ok (.error (.load .malformed))
      | some o => do
          match ← t.instrument o with
          | (.error fault, _) => return .error (.compiler fault)
          | (.ok report, t) =>
              return .ok (Json.obj [("tree", t.toJson), ("report", report.toJson)]).text

/-- Instruments trees that have nothing to do with each other. -/
def instrumentAll (trees : List Tree) (o : InstrumentOptions) :
    Except Fault (List (Except CompilerFault InstrumentReport × Tree)) :=
  trees.mapM (·.instrument o)

end TemplateLogging
