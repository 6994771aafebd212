import TemplateLogging.Sink.Basic
import TemplateLogging.Text.Utf8

namespace TemplateLogging

/-- The bytes written so far, and the number of bytes that may be written in all. -/
structure WriterSink where
  written : List UInt8 := []
  limit : Option Nat := none

namespace WriterSink

def fits (w : WriterSink) (bytes : List UInt8) : Bool :=
  match w.limit with
  | none => true
  | some limit => w.written.length + bytes.length ≤ limit

def write (w : WriterSink) (bytes : List UInt8) : WriterSink :=
  match w.limit with
  | none => { w with written := w.written ++ bytes }
  | some limit => { w with written := w.written ++ bytes.take (limit - w.written.length) }

def text (w : WriterSink) : String :=
  String.ofList (Text.ofUtf8Bytes w.written)

end WriterSink

instance : Sink WriterSink where
  append s := do
    let bytes := Text.utf8Bytes s.toList
    let w ← get
    set (w.write bytes)
    if bytes.isEmpty || w.fits bytes then pure () else throw .io

end TemplateLogging
