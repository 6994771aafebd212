import TemplateLogging.Text.Utf8
import TemplateLogging.Value.Basic

namespace TemplateLogging

/-- Why a sink did not take what it was given. -/
inductive AppendError where
  | format
  | io
  | invalidRange (start stop length : Nat)
deriving DecidableEq

def AppendError.message : AppendError → String
  | format => "formatting failed"
  | io => "writing failed"
  | invalidRange start stop length =>
      "range " ++ toString start ++ ".." ++ toString stop ++
        " is not a char-aligned slice of a " ++ toString length ++ "-byte string"

/-- The beginning of a logging block. -/
structure LogStatement where
  id : Int64
  metadata : Option Value
  logonly : Bool

/-- A call of a logging function at render time. -/
structure LoggingInvocation where
  function : String
  placeholder : String
  args : List Value

/-- Appending to a sink; what was taken before an error stays taken. -/
abbrev SinkM (σ : Type) : Type → Type :=
  ExceptT AppendError (StateM σ)

class Sink (σ : Type) where
  append : String → SinkM σ Unit
  appendChar : Char → SinkM σ Unit := fun c => append (String.singleton c)
  /-- Appends the bytes of a text from `start` up to `stop`. -/
  appendRange : String → Nat → Nat → SinkM σ Unit := fun s start stop =>
    match Text.slice? s start stop with
    | some part => append part
    | none => throw (.invalidRange start stop s.utf8ByteSize)
  enterBlock : LogStatement → SinkM σ Unit := fun _ => pure ()
  exitBlock : SinkM σ Unit := pure ()
  appendInvocation : LoggingInvocation → SinkM σ Unit := fun i => append i.placeholder

structure TextSink where
  text : String := ""

instance : Sink TextSink where
  append s := modify fun sink => ⟨sink.text ++ s⟩
  appendChar c := modify fun sink => ⟨sink.text.push c⟩

inductive SinkStep where
  | text (s : String)
  | char (c : Char)
  | range (s : String) (start stop : Nat)
  | enter (statement : LogStatement)
  | exit
  | invoke (invocation : LoggingInvocation)

def SinkStep.run {σ : Type} [Sink σ] : SinkStep → SinkM σ Unit
  | text s => Sink.append s
  | char c => Sink.appendChar c
  | range s start stop => Sink.appendRange s start stop
  | enter statement => Sink.enterBlock statement
  | exit => Sink.exitBlock
  | invoke invocation => Sink.appendInvocation invocation

/-- The outcome of each step, with the sink after it; errors do not stop the steps that follow. -/
def runSteps {σ : Type} [Sink σ] (sink : σ) : List SinkStep → List (Except AppendError Unit × σ)
  | [] => []
  | step :: rest =>
      let (result, sink) := step.run.run.run sink
      (result, sink) :: runSteps sink rest

end TemplateLogging
