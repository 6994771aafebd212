import TemplateLogging.Proofs.Streaming

namespace TemplateLogging

open Directive

/-- A character that a step gives out: of the text that it appends, or of a placeholder. -/
inductive Emission where
  | input (c : Char)
  | placeholder (c : Char)
deriving DecidableEq

namespace Emission

def char : Emission → Char
  | input c => c
  | placeholder c => c

def input? : Emission → Option Char
  | input c => some c
  | placeholder _ => none

/-- What a character becomes, by whether a carriage return comes before it. -/
def output (afterReturn : Bool) : Emission → List Char
  | input c => breakPart afterReturn [c]
  | placeholder c => [c]

/-- What each character becomes. -/
def outputs : Bool → List Emission → List (List Char)
  | _, [] => []
  | afterReturn, emission :: emissions =>
      emission.output afterReturn ::
        outputs (endsInReturn afterReturn emission.input?.toList) emissions

variable {r : Bool} {as bs emissions : List Emission}

theorem filterMap_cons_input? (emission : Emission) (emissions : List Emission) :
    (emission :: emissions).filterMap input? =
      emission.input?.toList ++ emissions.filterMap input? := by
  cases emission <;> rfl

theorem length_outputs (r : Bool) (emissions : List Emission) :
    (outputs r emissions).length = emissions.length := by
  induction emissions generalizing r with
  | nil => rfl
  | cons emission emissions ih => simp [outputs, ih]

theorem outputs_append : outputs r (as ++ bs) =
    outputs r as ++ outputs (endsInReturn r (as.filterMap input?)) bs := by
  induction as generalizing r with
  | nil => rfl
  | cons emission as ih =>
      rw [filterMap_cons_input?, endsInReturn_append]
      simp [outputs, ih]

theorem getElem?_outputs (r : Bool) (emissions : List Emission) (i : Nat) :
    (outputs r emissions)[i]? =
      emissions[i]?.map (output (endsInReturn r ((emissions.take i).filterMap input?))) := by
  induction emissions generalizing r i with
  | nil => rfl
  | cons emission emissions ih =>
      cases i with
      | zero => rfl
      | succ i =>
          rw [List.take_succ_cons, filterMap_cons_input?, endsInReturn_append]
          exact ih _ i

theorem flatten_outputs_input (r : Bool) (cs : List Char) :
    (outputs r (cs.map input)).flatten = breakPart r cs := by
  induction cs generalizing r with
  | nil => rfl
  | cons c cs ih =>
      rw [List.map_cons, outputs, List.flatten_cons, ih, breakPart_cons r c cs]
      rfl

theorem flatten_outputs_placeholder (r : Bool) (cs : List Char) :
    (outputs r (cs.map placeholder)).flatten = cs := by
  induction cs generalizing r with
  | nil => rfl
  | cons c cs ih =>
      rw [List.map_cons, outputs, List.flatten_cons, ih]
      rfl

theorem filterMap_map_input (cs : List Char) : (cs.map input).filterMap input? = cs := by
  simp [List.filterMap_map, Function.comp_def, input?]

theorem filterMap_map_placeholder (cs : List Char) :
    (cs.map placeholder).filterMap input? = [] := by
  simp [input?]

end Emission

namespace SinkStep

def emissions : SinkStep → List Emission
  | invoke invocation => invocation.placeholder.toList.map .placeholder
  | step => step.taken.toList.map .input

end SinkStep

namespace BreakingSink

/-- The sink after it has given out some characters. -/
def emit (sink : BreakingSink TextSink) (emissions : List Emission) : BreakingSink TextSink :=
  { sink.put (Emission.outputs sink.afterReturn emissions).flatten with
    afterReturn := endsInReturn sink.afterReturn (emissions.filterMap Emission.input?) }

variable {sink : BreakingSink TextSink}

theorem emit_emit (as bs : List Emission) : (sink.emit as).emit bs = sink.emit (as ++ bs) := by
  rw [emit, emit, emit, Emission.outputs_append, List.flatten_append, List.filterMap_append,
    endsInReturn_append, ← put_put]
  rfl

theorem emit_input (cs : List Char) : sink.emit (cs.map .input) = sink.feed cs := by
  rw [emit, Emission.flatten_outputs_input, Emission.filterMap_map_input]
  rfl

theorem emit_placeholder (cs : List Char) : sink.emit (cs.map .placeholder) = sink.put cs := by
  rw [emit, Emission.flatten_outputs_placeholder, Emission.filterMap_map_placeholder]
  rfl

theorem run_emissions (step : SinkStep) (sink : BreakingSink TextSink) :
    (step.run.run.run sink).2 = sink.emit step.emissions := by
  have happend : step.IsAppend → step.emissions = step.taken.toList.map .input →
      (step.run.run.run sink).2 = sink.emit step.emissions := by
    intro hstep hemissions
    rw [SinkStep.run_append hstep, hemissions, emit_input]
  cases step with
  | text | char | range => exact happend trivial rfl
  | enter | exit => exact put_nil.symm
  | invoke invocation =>
      rw [SinkStep.emissions, emit_placeholder]
      exact congrArg Prod.snd (run_sendAppend invocation.placeholder)

theorem afterSteps_emissions (steps : List SinkStep) (sink : BreakingSink TextSink) :
    afterSteps sink steps = sink.emit (steps.flatMap SinkStep.emissions) := by
  induction steps generalizing sink with
  | nil => exact put_nil.symm
  | cons step steps ih => rw [afterSteps, run_emissions, ih, emit_emit, List.flatMap_cons]

end BreakingSink

/-- What the characters become. A carriage return in an appended text becomes a line break, a line
feed becomes a line break or nothing, and all other characters come out as they are. -/
structure Rendering (emissions : List Emission) (outputs : List (List Char)) : Prop where
  length_eq : outputs.length = emissions.length
  placeholder : ∀ (i : Nat) (c : Char), emissions[i]? = some (Emission.placeholder c) →
    outputs[i]? = some [c]
  kept : ∀ (i : Nat) (c : Char), emissions[i]? = some (Emission.input c) → c ≠ '\r' → c ≠ '\n' →
    outputs[i]? = some [c]
  carriageReturn : ∀ i : Nat, emissions[i]? = some (Emission.input '\r') →
    outputs[i]? = some lineBreak.toList
  lineFeed : ∀ i : Nat, emissions[i]? = some (Emission.input '\n') →
    outputs[i]? = some [] ∨ outputs[i]? = some lineBreak.toList

theorem output_lineFeed (r : Bool) :
    (Emission.input '\n').output r = if r then [] else lineBreak.toList := by
  cases r <;> rfl

theorem rendering_outputs (r : Bool) (emissions : List Emission) :
    Rendering emissions (Emission.outputs r emissions) where
  length_eq := Emission.length_outputs r emissions
  placeholder i c hi := by
    rw [Emission.getElem?_outputs, hi]
    rfl
  kept i c hi hreturn hfeed := by
    rw [Emission.getElem?_outputs, hi, Option.map_some, Emission.output, breakPart, if_neg hfeed,
      if_neg hreturn, breakPart]
  carriageReturn i hi := by
    rw [Emission.getElem?_outputs, hi]
    rfl
  lineFeed i hi := by
    rw [Emission.getElem?_outputs, hi, Option.map_some, output_lineFeed]
    split
    · exact .inl rfl
    · exact .inr rfl

/-- After every step, the delegate has got what the characters so far become. A line feed becomes
nothing exactly when the character that was appended last before it is a carriage return, no matter
which hooks and placeholders are in between. -/
theorem runSteps_placeholders (t₀ : String) (steps : List SinkStep) (i : Nat) (step : SinkStep)
    (hstep : steps[i]? = some step) :
    let sink : BreakingSink TextSink := { delegate := ⟨t₀⟩ }
    let emissions := (steps.take (i + 1)).flatMap SinkStep.emissions
    ∃ outcome outputs, (runSteps sink steps)[i]? = some outcome ∧
      outcome.2.delegate.text = t₀ ++ String.ofList outputs.flatten ∧
      Rendering emissions outputs ∧
      ∀ n : Nat, emissions[n]? = some (Emission.input '\n') → (outputs[n]? = some [] ↔
        ((emissions.take n).filterMap Emission.input?).getLast? = some '\r') := by
  intro sink emissions
  have hemissions : (steps.take i).flatMap SinkStep.emissions ++ step.emissions = emissions := by
    show _ = (steps.take (i + 1)).flatMap SinkStep.emissions
    rw [List.take_add_one, hstep, List.flatMap_append]
    simp
  refine ⟨_, Emission.outputs false emissions, by rw [getElem?_runSteps_eq, hstep]; rfl, ?_,
    rendering_outputs false emissions, ?_⟩
  · rw [BreakingSink.run_emissions, BreakingSink.afterSteps_emissions, BreakingSink.emit_emit,
      hemissions]
    rfl
  · intro n hn
    rw [Emission.getElem?_outputs, hn, Option.map_some, output_lineFeed, ← endsInReturn_iff]
    cases endsInReturn false ((emissions.take n).filterMap Emission.input?) <;> simp [lineBreak]

theorem runSteps_placeholders_return :
    let sink : BreakingSink TextSink := { delegate := ⟨">"⟩ }
    let steps : List SinkStep := [.text "\n", .invoke ⟨"track", "\r", []⟩, .char '\n']
    steps[2]? = some (.char '\n') ∧
      (runSteps sink steps)[2]?.map (·.2.delegate.text) = some "><br>\r<br>" := by
  intro sink steps
  obtain ⟨outcome, outputs, hrun, htext, hrendering, hfeeds⟩ :=
    runSteps_placeholders ">" steps 2 (.char '\n') rfl
  have hfirst : ¬ outputs[0]? = some [] := by
    rw [hfeeds 0 rfl]
    decide
  have hplaceholder : outputs[1]? = some ['\r'] := hrendering.placeholder 1 '\r' rfl
  have hsecond : ¬ outputs[2]? = some [] := by
    rw [hfeeds 2 rfl]
    decide
  have hbreaks := hrendering.lineFeed
  obtain ⟨first, placeholder, second, rfl⟩ := List.length_eq_three.mp hrendering.length_eq
  obtain rfl := Option.some.inj ((hbreaks 0 rfl).resolve_left hfirst)
  obtain rfl := Option.some.inj hplaceholder
  obtain rfl := Option.some.inj ((hbreaks 2 rfl).resolve_left hsecond)
  rw [hrun, Option.map_some, htext]
  exact ⟨rfl, by decide⟩

/-- The placeholder between a carriage return and a line feed does not count: the line feed becomes
nothing, although the character before it is that of the placeholder. -/
theorem placeholder_between_return_and_lineFeed :
    let sink : BreakingSink TextSink := { delegate := ⟨""⟩ }
    let steps : List SinkStep := [.text "\r", .invoke ⟨"track", "x", []⟩, .text "\n"]
    let emissions := steps.flatMap SinkStep.emissions
    (runSteps sink steps)[2]?.map (·.2.delegate.text) = some "<br>x" ∧
      ¬ ∃ outputs, "<br>x" = String.ofList outputs.flatten ∧ Rendering emissions outputs ∧
        ∀ n : Nat, emissions[n]? = some (Emission.input '\n') → outputs[n]? = some [] →
          (emissions.take n).getLast?.map Emission.char = some '\r' := by
  refine ⟨rfl, ?_⟩
  rintro ⟨outputs, htext, hrendering, hfeed⟩
  have hreturn : outputs[0]? = some lineBreak.toList := hrendering.carriageReturn 0 rfl
  have hplaceholder : outputs[1]? = some ['x'] := hrendering.placeholder 1 'x' rfl
  rcases hrendering.lineFeed 2 rfl with hnone | hbreak
  · have hlast := hfeed 2 rfl hnone
    revert hlast
    decide
  · obtain ⟨first, second, third, rfl⟩ := List.length_eq_three.mp hrendering.length_eq
    simp at hreturn hplaceholder hbreak
    subst hreturn hplaceholder hbreak
    revert htext
    decide

end TemplateLogging
