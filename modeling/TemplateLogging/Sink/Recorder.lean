import TemplateLogging.Sink.Basic

namespace TemplateLogging

/-- A call on a sink. A range that is no slice of its text has no part. -/
inductive SinkEvent where
  | text (s : String)
  | char (c : Char)
  | range (part : Option String) (start stop : Nat)
  | enter (statement : LogStatement)
  | exit
  | invoke (invocation : LoggingInvocation)

/-- The calls so far, latest first, and the number of the call that fails. -/
structure RecorderSink where
  latest : List SinkEvent := []
  failAt : Option Nat := none

namespace RecorderSink

def record (event : SinkEvent) : SinkM RecorderSink Unit := do
  let sink ← get
  set { sink with latest := event :: sink.latest }
  if sink.failAt = some sink.latest.length then throw .format else pure ()

def events (sink : RecorderSink) : List SinkEvent :=
  sink.latest.reverse

end RecorderSink

instance : Sink RecorderSink where
  append s := RecorderSink.record (.text s)
  appendChar c := RecorderSink.record (.char c)
  appendRange s start stop := do
    let part := Text.slice? s start stop
    RecorderSink.record (.range part start stop)
    if part.isSome then pure () else throw (.invalidRange start stop s.utf8ByteSize)
  enterBlock statement := RecorderSink.record (.enter statement)
  exitBlock := RecorderSink.record .exit
  appendInvocation invocation := RecorderSink.record (.invoke invocation)

end TemplateLogging
