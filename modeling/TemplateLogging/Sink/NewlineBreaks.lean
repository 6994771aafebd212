import TemplateLogging.Directive.NewlineBreaks
import TemplateLogging.Sink.Basic

/-!
The directive `changeNewlineToBr` on a sink. What is appended goes on to another sink, with a line
break tag for every newline. A carriage return at the end of one append and a line feed at the
beginning of the next are one newline, so the sink remembers whether it took a carriage return last.
-/

namespace TemplateLogging

/-- Sends text on to `delegate` with line break tags for newlines. -/
structure BreakingSink (σ : Type) where
  delegate : σ
  afterReturn : Bool := false

namespace BreakingSink

variable {σ : Type} [Sink σ]

def send (act : SinkM σ Unit) : SinkM (BreakingSink σ) Unit :=
  fun sink =>
    let (result, delegate) := act.run.run sink.delegate
    (result, { sink with delegate })

def setAfterReturn (b : Bool) : SinkM (BreakingSink σ) Unit :=
  modify fun sink => { sink with afterReturn := b }

/-- Sends a stretch without newlines, unless it is empty. -/
def sendRange (s : String) (start stop : Nat) : SinkM (BreakingSink σ) Unit :=
  if start = stop then pure () else send (Sink.appendRange s start stop)

def sendBreak : SinkM (BreakingSink σ) Unit :=
  send (Sink.append Directive.lineBreak)

/-- Sends the characters of `s` that begin at byte `next`, the last ones from byte `pending` on not
being sent yet. The result tells whether the last character was a carriage return. -/
def sendChars (s : String) : (pending next : Nat) → (afterReturn : Bool) → List Char →
    SinkM (BreakingSink σ) Bool
  | pending, next, afterReturn, [] => do
      sendRange s pending next
      return afterReturn
  | pending, next, afterReturn, c :: cs =>
      if c = '\n' then do
        sendRange s pending next
        if !afterReturn then sendBreak
        sendChars s (next + 1) (next + 1) false cs
      else if c = '\r' then do
        sendRange s pending next
        sendBreak
        sendChars s (next + 1) (next + 1) true cs
      else sendChars s pending (next + c.utf8Size) false cs

/-- Only an append that succeeds changes what the sink remembers. -/
def appendRange (s : String) (start stop : Nat) : SinkM (BreakingSink σ) Unit :=
  match Text.slice? s start stop with
  | none => send (Sink.appendRange s start stop)
  | some part => do
      let afterReturn ← sendChars s start start (← get).afterReturn part.toList
      setAfterReturn afterReturn

def appendChar (c : Char) : SinkM (BreakingSink σ) Unit := do
  if c = '\n' then
    if !(← get).afterReturn then sendBreak
    setAfterReturn false
  else if c = '\r' then
    sendBreak
    setAfterReturn true
  else
    send (Sink.appendChar c)
    setAfterReturn false

instance : Sink (BreakingSink σ) where
  append s := appendRange s 0 s.utf8ByteSize
  appendChar := appendChar
  appendRange := appendRange
  enterBlock statement := send (Sink.enterBlock statement)
  exitBlock := send Sink.exitBlock
  appendInvocation invocation := send (Sink.appendInvocation invocation)

end BreakingSink

/-- A sink behind the given number of breaking sinks. -/
def Wrapped (σ : Type) : Nat → Type
  | 0 => σ
  | n + 1 => BreakingSink (Wrapped σ n)

namespace Wrapped

variable {σ : Type}

instance instSink [Sink σ] : (n : Nat) → Sink (Wrapped σ n)
  | 0 => inferInstanceAs (Sink σ)
  | n + 1 =>
      let _ : Sink (Wrapped σ n) := instSink n
      inferInstanceAs (Sink (BreakingSink (Wrapped σ n)))

def wrap (sink : σ) : (n : Nat) → Wrapped σ n
  | 0 => sink
  | n + 1 => ({ delegate := wrap sink n } : BreakingSink (Wrapped σ n))

def base : (n : Nat) → Wrapped σ n → σ
  | 0, sink => sink
  | n + 1, sink => base n (BreakingSink.delegate sink)

end Wrapped

end TemplateLogging
