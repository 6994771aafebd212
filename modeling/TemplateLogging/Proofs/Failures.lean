import TemplateLogging.Proofs.Delegation
import TemplateLogging.Sink.Recorder

namespace TemplateLogging

open Directive

variable {σ : Type} [Sink σ]

/-- The characters of the portions that the delegate accepts before it refuses a call. -/
def Portion.accepted : List Portion → σ → List Char
  | [], _ => []
  | portion :: portions, delegate =>
      match (makeCalls portion.call.toList).run.run delegate with
      | (.ok _, delegate) => portion.input ++ accepted portions delegate
      | (.error _, _) => []

theorem Portion.accepted_of_ok {portions : List Portion} {delegate : σ}
    (h : ((makeCalls (calls portions)).run.run delegate).1 = .ok ()) :
    accepted portions delegate = inputs portions := by
  induction portions generalizing delegate with
  | nil => rfl
  | cons portion portions ih =>
      rw [calls_cons, makeCalls_append] at h
      rw [accepted, inputs_cons]
      rcases hcall : (makeCalls portion.call.toList).run.run delegate with ⟨error | _, delegate'⟩
      · rw [SinkM.run_bind_error hcall] at h
        cases h
      · rw [SinkM.run_bind hcall] at h
        exact congrArg _ (ih h)

namespace BreakingSink

/-- The text that the delegate has accepted in the course of some steps. -/
def accepted (sink : BreakingSink σ) : List SinkStep → List Char
  | [] => []
  | step :: steps =>
      Portion.accepted (Portion.ofStep sink.afterReturn step) sink.delegate ++
        accepted (step.run.run.run sink).2 steps

/-- The text of the steps that have gone through. -/
def acknowledged (sink : BreakingSink σ) : List SinkStep → List Char
  | [] => []
  | step :: steps =>
      (match (step.run.run.run sink).1 with
        | .ok _ => step.taken.toList
        | .error _ => []) ++ acknowledged (step.run.run.run sink).2 steps

theorem afterReturn_afterSteps (sink : BreakingSink σ) (steps : List SinkStep) :
    (afterSteps sink steps).afterReturn =
      endsInReturn sink.afterReturn (acknowledged sink steps) := by
  induction steps generalizing sink with
  | nil => rfl
  | cons step steps ih =>
      rw [afterSteps, ih, acknowledged, endsInReturn_append, run_step]
      congr 1
      rw [settled]
      cases ((makeCalls (Portion.calls (Portion.ofStep sink.afterReturn step))).run.run
        sink.delegate).1 <;> rfl

/-- The step fails when the delegate has already accepted a part of its text. -/
def CutShort (sink : BreakingSink σ) (step : SinkStep) : Prop :=
  (step.run.run.run sink).1 ≠ .ok () ∧
    Portion.accepted (Portion.ofStep sink.afterReturn step) sink.delegate ≠ []

theorem accepted_eq_acknowledged {sink : BreakingSink σ} {steps : List SinkStep}
    (h : ∀ i step, steps[i]? = some step → ¬ CutShort (afterSteps sink (steps.take i)) step) :
    accepted sink steps = acknowledged sink steps := by
  induction steps generalizing sink with
  | nil => rfl
  | cons step steps ih =>
      have hstep : ¬ CutShort sink step := h 0 step rfl
      have hsteps : accepted (step.run.run.run sink).2 steps = _ := ih fun i step => h (i + 1) step
      rw [accepted, acknowledged, hsteps]
      congr 1
      have hanswer : (step.run.run.run sink).1 =
          ((makeCalls (Portion.calls (Portion.ofStep sink.afterReturn step))).run.run
            sink.delegate).1 := by
        rw [run_step, settled]
      rcases hresult : (step.run.run.run sink).1 with error | _
      · by_contra hne
        exact hstep ⟨by simp [hresult], hne⟩
      · rw [hresult] at hanswer
        rw [Portion.accepted_of_ok hanswer.symm]
        exact (Portion.covers_ofStep _ step).inputs_eq

end BreakingSink

/-- A step makes the calls of its portions on the delegate, up to the first one that fails. Each
line feed has one, unless a carriage return comes before it in the text of the steps that have gone
through and of the step itself. That text is what the delegate has accepted, if no step has been cut
short. -/
theorem runSteps_lineFeeds (delegate : σ) (steps : List SinkStep) (i : Nat) (step : SinkStep)
    (hstep : steps[i]? = some step) :
    let start : BreakingSink σ := { delegate }
    let past := steps.take i
    let sink := afterSteps start past
    let portions := Portion.ofStep sink.afterReturn step
    (runSteps start steps)[i]? = some (sink.settled step.taken.toList
        ((makeCalls (Portion.calls portions)).run.run sink.delegate)) ∧
      Portion.inputs portions = step.taken.toList ∧
      (∀ earlier feed later, portions = earlier ++ feed :: later → '\n' ∈ feed.input →
        feed.input = ['\n'] ∧ feed.call =
          if endsInReturn false (start.acknowledged past ++ Portion.inputs earlier) then none
          else some (.text lineBreak)) ∧
      ((∀ j failed, past[j]? = some failed →
          ¬ BreakingSink.CutShort (afterSteps start (past.take j)) failed) →
        start.accepted past = start.acknowledged past) := by
  intro start past sink portions
  obtain ⟨hchain, hinputs⟩ := Portion.covers_ofStep sink.afterReturn step
  refine ⟨?_, hinputs, ?_, BreakingSink.accepted_eq_acknowledged⟩
  · rw [getElem?_runSteps_eq, hstep]
    exact congrArg some (BreakingSink.run_step sink step)
  · intro earlier feed later hportions hfeed
    rw [show Portion.ofStep sink.afterReturn step = _ from hportions] at hchain
    have heq := hchain.right.head.eq_lineFeed hfeed
    rw [BreakingSink.afterReturn_afterSteps, ← endsInReturn_append] at heq
    rw [heq]
    exact ⟨rfl, rfl⟩

theorem runSteps_lineFeeds_refused :
    let start : BreakingSink RecorderSink := { delegate := { failAt := some 0 } }
    let steps : List SinkStep := [.text "a\n", .text "\n"]
    steps[1]? = some (.text "\n") ∧ ¬ start.CutShort (.text "a\n") ∧
      start.accepted [.text "a\n"] = start.acknowledged [.text "a\n"] ∧
      (runSteps start steps)[1]? = some (.ok (),
        { delegate := { latest := [.text "<br>", .range (some "a") 0 1], failAt := some 0 } }) := by
  intro start steps
  have hcut : ¬ start.CutShort (.text "a\n") := fun h => h.2 rfl
  obtain ⟨hrun, -, -, haccepted⟩ :=
    runSteps_lineFeeds ({ failAt := some 0 } : RecorderSink) steps 1 (.text "\n") rfl
  refine ⟨rfl, hcut, haccepted ?_, hrun⟩
  intro j failed hj
  cases j with
  | zero =>
      obtain rfl := Option.some.inj hj
      exact hcut
  | succ j => cases hj

/-- The delegate accepts the carriage return and the `x` after it, and refuses the line break for
the first line feed. The sink goes on remembering the carriage return, so it makes no call for the
next line feed, and nothing tells that it is lost. -/
theorem lineFeed_after_cutShort :
    let start : BreakingSink RecorderSink := { delegate := { failAt := some 2 } }
    let past : List SinkStep := [.text "\r", .text "x\n"]
    let delegate : RecorderSink :=
      { latest := [.text "<br>", .range (some "x") 0 1, .text "<br>"], failAt := some 2 }
    start.accepted past = ['\r', 'x'] ∧
      (runSteps start (past ++ [.text "\n"]))[1]? =
        some (.error .format, { delegate, afterReturn := true }) ∧
      (runSteps start (past ++ [.text "\n"]))[2]? = some (.ok (), { delegate := delegate }) := by
  intro start past delegate
  refine ⟨rfl, rfl, rfl⟩

end TemplateLogging
