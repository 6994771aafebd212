import TemplateLogging.Proofs.Delegation
import TemplateLogging.Sink.Writer

namespace TemplateLogging

open Directive

/-- A sink for which a text is the range of all its bytes. -/
class WholeSink (σ : Type) [Sink σ] : Prop where
  appendRange_whole : ∀ s : String,
    (Sink.appendRange s 0 s.utf8ByteSize : SinkM σ Unit) = Sink.append s

instance : WholeSink TextSink where
  appendRange_whole s := by
    simp only [Sink.appendRange, Text.slice?_whole]
    rfl

instance : WholeSink WriterSink where
  appendRange_whole s := by
    simp only [Sink.appendRange, Text.slice?_whole]
    rfl

variable {σ : Type} [Sink σ]

instance : WholeSink (BreakingSink σ) where
  appendRange_whole _ := rfl

instance [WholeSink σ] : (n : Nat) → WholeSink (Wrapped σ n)
  | 0 => inferInstanceAs (WholeSink σ)
  | n + 1 => inferInstanceAs (WholeSink (BreakingSink (Wrapped σ n)))

theorem SinkStep.Clean.whole {s : String} (h : Clean (.text s)) :
    Clean (.range s 0 s.utf8ByteSize) where
  isLine := by
    rw [taken_whole]
    exact h.isLine
  ne_empty _ _ := by
    rw [taken_whole]
    exact h.ne_empty trivial trivial

namespace Portion

theorem ofChars_line {cs : List Char} (h : IsLine cs) (s : String) (pending next : Nat)
    (held : List Char) (r : Bool) : ofChars s pending next held r cs =
      stretch s pending (next + Text.utf8Size cs) (held ++ cs) := by
  induction cs generalizing next held r with
  | nil => simp [ofChars, Text.utf8Size]
  | cons c cs ih =>
      obtain ⟨hc, hcs⟩ := isLine_cons.mp h
      rw [ofChars, if_neg hc.2, if_neg hc.1, ih hcs, Text.utf8Size, Nat.add_assoc,
        List.append_assoc, List.singleton_append]

theorem calls_ofRange {s : String} {start stop : Nat} (h : SinkStep.Clean (.range s start stop))
    (r : Bool) : calls (ofRange r s start stop) = [.range s start stop] := by
  rw [ofRange]
  by_cases haligned : Text.Aligned s start stop
  · have hslice := Text.slice?_of_aligned haligned
    have hline := h.isLine
    have hne := h.ne_empty trivial haligned
    rw [SinkStep.taken, if_pos haligned] at hline hne
    rw [hslice]
    generalize String.Pos.Raw.extract s ⟨start⟩ ⟨stop⟩ = part at hslice hline hne
    obtain ⟨before, after, -, rfl, rfl⟩ := Text.slice?_eq_some_iff.mp hslice
    have hsize : Text.utf8Size part.toList ≠ 0 := by
      intro hsize
      exact hne (String.toList_eq_nil_iff.mp (Text.eq_nil_of_utf8Size hsize))
    simp [ofChars_line hline, stretch, calls, hsize]
  · rw [Text.slice?_eq_none haligned]
    rfl

end Portion

theorem makeCalls_clean [WholeSink σ] {step : SinkStep} (h : step.Clean) (r : Bool) :
    (makeCalls (Portion.calls (Portion.ofStep r step)) : SinkM σ Unit) = step.run := by
  cases step with
  | text s =>
      rw [Portion.ofStep, Portion.calls_ofRange h.whole, makeCalls_singleton]
      exact WholeSink.appendRange_whole s
  | range s start stop => rw [Portion.ofStep, Portion.calls_ofRange h, makeCalls_singleton]
  | char c =>
      obtain ⟨hreturn, hfeed⟩ := h.isLine c (by simp [SinkStep.taken])
      rw [Portion.ofStep, if_neg hfeed, if_neg hreturn]
      exact makeCalls_singleton (.char c)
  | enter statement => exact makeCalls_singleton (.enter statement)
  | exit => exact makeCalls_singleton .exit
  | invoke invocation => exact makeCalls_singleton (.invoke invocation)

theorem BreakingSink.run_clean [WholeSink σ] {step : SinkStep} (h : step.Clean) (delegate : σ) :
    step.run.run.run ({ delegate } : BreakingSink σ) =
      ((step.run.run.run delegate).1, { delegate := (step.run.run.run delegate).2 }) := by
  rw [run_step, makeCalls_clean h, settled]
  congr 2
  cases (step.run.run.run delegate).1 with
  | ok => exact endsInReturn_line h.isLine
  | error => rfl

namespace Wrapped

theorem run_clean [WholeSink σ] {step : SinkStep} (h : step.Clean) (sink : σ) (n : Nat) :
    step.run.run.run (wrap sink n) =
      ((step.run.run.run sink).1, wrap (step.run.run.run sink).2 n) := by
  induction n with
  | zero => rfl
  | succ n ih =>
      have hlayer := BreakingSink.run_clean h (wrap sink n)
      rw [ih] at hlayer
      exact hlayer

theorem makeCalls_wrap [WholeSink σ] {calls : List SinkStep} (h : ∀ call ∈ calls, call.Clean)
    (sink : σ) (n : Nat) : (makeCalls calls).run.run (wrap sink n) =
      (((makeCalls calls).run.run sink).1, wrap ((makeCalls calls).run.run sink).2 n) := by
  induction calls generalizing sink with
  | nil => rfl
  | cons call calls ih =>
      obtain ⟨hcall, hcalls⟩ := List.forall_mem_cons.mp h
      have hwrap := run_clean hcall sink n
      rcases hrun : call.run.run.run sink with ⟨error | _, sink'⟩
      · rw [hrun] at hwrap
        rw [makeCalls_cons_error hwrap, makeCalls_cons_error hrun]
      · rw [hrun] at hwrap
        rw [makeCalls_cons_ok hwrap, makeCalls_cons_ok hrun, ih hcalls]

/-- A breaking sink with more layers between it and its delegate. -/
def deepen (n : Nat) (sink : BreakingSink σ) : BreakingSink (Wrapped σ n) :=
  { delegate := wrap sink.delegate n, afterReturn := sink.afterReturn }

theorem run_deepen [WholeSink σ] (n : Nat) (sink : BreakingSink σ) (step : SinkStep) :
    step.run.run.run (deepen n sink) =
      ((step.run.run.run sink).1, deepen n (step.run.run.run sink).2) := by
  -- Only the outermost layer sees newlines, so what the others remember stays as it is.
  have hclean := (Portion.covers_ofStep sink.afterReturn step).chain.clean
  rw [BreakingSink.run_step, BreakingSink.run_step, deepen, makeCalls_wrap hclean]
  rfl

omit [Sink σ] in
theorem base_wrap (sink : σ) (n : Nat) : base n (wrap sink n) = sink := by
  induction n with
  | zero => rfl
  | succ n ih => exact ih

theorem runSteps_deepen [WholeSink σ] (n : Nat) (sink : BreakingSink σ) (steps : List SinkStep) :
    (runSteps (deepen n sink) steps).map (fun outcome => (outcome.1, base n outcome.2.delegate)) =
      (runSteps sink steps).map fun outcome => (outcome.1, outcome.2.delegate) := by
  induction steps generalizing sink with
  | nil => rfl
  | cons step steps ih =>
      rw [runSteps_cons, runSteps_cons, List.map_cons, List.map_cons, run_deepen, ih, deepen,
        base_wrap]

/-- What steps on a sink behind `n` layers show: the answers, and the sink at the base. -/
def observed (sink : σ) (n : Nat) (steps : List SinkStep) : List (Except AppendError Unit × σ) :=
  (runSteps (wrap sink n) steps).map fun outcome => (outcome.1, base n outcome.2)

theorem observed_succ [WholeSink σ] (sink : σ) (n : Nat) (steps : List SinkStep) :
    observed sink (n + 1) steps = observed sink 1 steps :=
  runSteps_deepen n ({ delegate := sink } : BreakingSink σ) steps

end Wrapped

/-- Behind any positive number of layers, a text or a writer, limited or not, gets after every step
what it gets behind one layer, and the answers are the same. -/
theorem observed_layers (n : Nat) (steps : List SinkStep) :
    (∀ sink : TextSink, Wrapped.observed sink (n + 1) steps = Wrapped.observed sink 1 steps) ∧
      ∀ sink : WriterSink, Wrapped.observed sink (n + 1) steps = Wrapped.observed sink 1 steps :=
  ⟨fun sink => Wrapped.observed_succ sink n steps, fun sink => Wrapped.observed_succ sink n steps⟩

end TemplateLogging
