import Mathlib.Data.List.Forall2
import TemplateLogging.Proofs.Layers

namespace TemplateLogging

variable {σ τ : Type} [Sink σ] [Sink τ]

/-- Sinks in the first relation answer alike and stay in it, or come into the second one. What comes
into the second relation stays in it, also when one side only goes on. -/
structure InStep (R Q : σ → τ → Prop) : Prop where
  step : ∀ (step : SinkStep) (a : σ) (b : τ), R a b →
    (step.run.run.run a).1 = (step.run.run.run b).1 ∧
        R (step.run.run.run a).2 (step.run.run.run b).2 ∨
      Q (step.run.run.run a).2 (step.run.run.run b).2
  left : ∀ (step : SinkStep) (a : σ) (b : τ), Q a b → Q (step.run.run.run a).2 b
  right : ∀ (step : SinkStep) (a : σ) (b : τ), Q a b → Q a (step.run.run.run b).2

theorem makeCalls_cons_keeps {P : σ → Prop} {call : SinkStep} {calls : List SinkStep}
    (hcalls : ∀ sink : σ, P sink → P ((makeCalls calls).run.run sink).2) {sink : σ}
    (hcall : P (call.run.run.run sink).2) : P ((makeCalls (call :: calls)).run.run sink).2 := by
  rcases hrun : call.run.run.run sink with ⟨error | _, sink'⟩
  · rw [hrun] at hcall
    rw [makeCalls_cons_error hrun]
    exact hcall
  · rw [hrun] at hcall
    rw [makeCalls_cons_ok hrun]
    exact hcalls sink' hcall

theorem makeCalls_keeps {P : σ → Prop}
    (h : ∀ (step : SinkStep) (sink : σ), P sink → P (step.run.run.run sink).2)
    (calls : List SinkStep) (sink : σ) (hsink : P sink) :
    P ((makeCalls calls).run.run sink).2 := by
  induction calls generalizing sink with
  | nil => exact hsink
  | cons call calls ih => exact makeCalls_cons_keeps ih (h call sink hsink)

namespace InStep

variable {R Q : σ → τ → Prop}

theorem makeCalls_left (h : InStep R Q) (calls : List SinkStep) {b : τ} (a : σ) (hab : Q a b) :
    Q ((makeCalls calls).run.run a).2 b :=
  makeCalls_keeps (P := fun a => Q a b) (fun step a => h.left step a b) calls a hab

theorem makeCalls_right (h : InStep R Q) (calls : List SinkStep) {a : σ} (b : τ) (hab : Q a b) :
    Q a ((makeCalls calls).run.run b).2 :=
  makeCalls_keeps (P := Q a) (fun step b => h.right step a b) calls b hab

theorem makeCalls (h : InStep R Q) (calls : List SinkStep) {a : σ} {b : τ} (hab : R a b) :
    ((makeCalls calls).run.run a).1 = ((makeCalls calls).run.run b).1 ∧
        R ((makeCalls calls).run.run a).2 ((makeCalls calls).run.run b).2 ∨
      Q ((makeCalls calls).run.run a).2 ((makeCalls calls).run.run b).2 := by
  induction calls generalizing a b with
  | nil => exact .inl ⟨rfl, hab⟩
  | cons call calls ih =>
      rcases h.step call a b hab with ⟨hanswer, hstep⟩ | hstep
      · rcases ha : call.run.run.run a with ⟨answer, a'⟩
        rcases hb : call.run.run.run b with ⟨answer', b'⟩
        rw [ha, hb] at hanswer hstep
        obtain rfl : answer = answer' := hanswer
        cases answer with
        | error =>
            rw [makeCalls_cons_error ha, makeCalls_cons_error hb]
            exact .inl ⟨rfl, hstep⟩
        | ok =>
            rw [makeCalls_cons_ok ha, makeCalls_cons_ok hb]
            exact ih hstep
      · -- From here on each side goes on or stops on its own.
        have hleft := makeCalls_cons_keeps (h.makeCalls_left calls) hstep
        exact .inr (makeCalls_cons_keeps (h.makeCalls_right calls) hleft)

theorem breaking (h : InStep R Q) :
    InStep (fun (a : BreakingSink σ) (b : BreakingSink τ) =>
        a.afterReturn = b.afterReturn ∧ R a.delegate b.delegate)
      (fun a b => Q a.delegate b.delegate) where
  step step a b hab := by
    obtain ⟨hafter, hab⟩ := hab
    rw [BreakingSink.run_step, BreakingSink.run_step, ← hafter]
    refine (h.makeCalls (Portion.calls (Portion.ofStep a.afterReturn step)) hab).imp_left ?_
    rintro ⟨hanswer, hstep⟩
    refine ⟨hanswer, ?_, hstep⟩
    show BreakingSink.carried _ _ _ = BreakingSink.carried _ _ _
    rw [hanswer, hafter]
  left step a b hab := by
    rw [BreakingSink.run_step]
    exact h.makeCalls_left _ _ hab
  right step a b hab := by
    rw [BreakingSink.run_step]
    exact h.makeCalls_right _ _ hab

end InStep

namespace Wrapped

/-- The layers remember the same, and the sinks at the base are in a relation. -/
def Agree (R : σ → τ → Prop) : (n : Nat) → Wrapped σ n → Wrapped τ n → Prop
  | 0, a, b => R a b
  | n + 1, a, b => BreakingSink.afterReturn a = BreakingSink.afterReturn b ∧
      Agree R n (BreakingSink.delegate a) (BreakingSink.delegate b)

omit [Sink σ] [Sink τ] in
theorem agree_wrap {R : σ → τ → Prop} {a : σ} {b : τ} (hab : R a b) (n : Nat) :
    Agree R n (wrap a n) (wrap b n) := by
  induction n with
  | zero => exact hab
  | succ n ih => exact ⟨rfl, ih⟩

omit [Sink σ] [Sink τ] in
theorem Agree.base {R : σ → τ → Prop} {n : Nat} {a : Wrapped σ n} {b : Wrapped τ n}
    (h : Agree R n a b) : R (base n a) (base n b) := by
  induction n with
  | zero => exact h
  | succ n ih => exact ih h.2

end Wrapped

theorem InStep.wrapped {R Q : σ → τ → Prop} (h : InStep R Q) (n : Nat) :
    InStep (Wrapped.Agree R n) (fun a b => Q (Wrapped.base n a) (Wrapped.base n b)) := by
  induction n with
  | zero => exact h
  | succ n ih => exact ih.breaking

theorem InStep.runSteps {R Q : σ → τ → Prop} (h : InStep R Q) (steps : List SinkStep) {a : σ}
    {b : τ} (hab : R a b ∨ Q a b) :
    List.Forall₂ (fun x y => R x.2 y.2 ∨ Q x.2 y.2) (runSteps a steps) (runSteps b steps) := by
  induction steps generalizing a b with
  | nil => exact .nil
  | cons step steps ih =>
      rw [runSteps_cons, runSteps_cons]
      have hstep : R (step.run.run.run a).2 (step.run.run.run b).2 ∨
          Q (step.run.run.run a).2 (step.run.run.run b).2 := by
        rcases hab with hab | hab
        · exact (h.step step a b hab).imp_left And.right
        · exact .inr (h.right step _ b (h.left step a b hab))
      exact .cons hstep (ih hstep)

/-- The text that a sink without logging prints for a step. -/
def SinkStep.printed : SinkStep → String
  | invoke invocation => invocation.placeholder
  | step => step.taken

namespace WriterSink

variable {limit : Nat} {a b : WriterSink}

theorem write_nil (w : WriterSink) : w.write [] = w := by
  obtain ⟨written, limit⟩ := w
  cases limit <;> simp [write]

/-- What a writer answers to some bytes. -/
def answer (w : WriterSink) (bytes : List UInt8) : Except AppendError Unit :=
  if bytes.isEmpty || w.fits bytes then .ok () else .error .io

theorem run_append (w : WriterSink) (s : String) :
    (Sink.append s : SinkM WriterSink Unit).run.run w =
      (w.answer (Text.utf8Bytes s.toList), w.write (Text.utf8Bytes s.toList)) := by
  show (if _ then pure () else throw AppendError.io : SinkM WriterSink Unit).run.run (w.write _) = _
  rw [answer]
  split <;> rfl

theorem run_appendRange (w : WriterSink) (s : String) (start stop : Nat) :
    (Sink.appendRange s start stop : SinkM WriterSink Unit).run.run w =
      (SinkStep.outcome (.range s start stop) >>= fun _ =>
          w.answer (Text.utf8Bytes (SinkStep.taken (.range s start stop)).toList),
        w.write (Text.utf8Bytes (SinkStep.taken (.range s start stop)).toList)) := by
  by_cases haligned : Text.Aligned s start stop
  · simp only [Sink.appendRange, Text.slice?_of_aligned haligned, SinkStep.outcome, SinkStep.taken,
      if_pos haligned]
    exact run_append w _
  · simp only [Sink.appendRange, Text.slice?_eq_none haligned, SinkStep.outcome, SinkStep.taken,
      if_neg haligned]
    exact congrArg _ (write_nil w).symm

theorem run_step (w : WriterSink) (step : SinkStep) :
    step.run.run.run w = (step.outcome >>= fun _ => w.answer (Text.utf8Bytes step.printed.toList),
      w.write (Text.utf8Bytes step.printed.toList)) := by
  cases step with
  | text s => exact run_append w s
  | char c => exact run_append w (String.singleton c)
  | range s start stop => exact run_appendRange w s start stop
  | enter | exit => exact congrArg _ (write_nil w).symm
  | invoke invocation => exact run_append w invocation.placeholder

/-- A writer that has met no limit yet, beside an unlimited one. -/
structure Below (limit : Nat) (a b : WriterSink) : Prop where
  limit_eq : a.limit = some limit
  unlimited : b.limit = none
  written_eq : a.written = b.written
  le : a.written.length ≤ limit

/-- A writer that takes nothing more, beside an unlimited one. -/
structure Full (limit : Nat) (a b : WriterSink) : Prop where
  limit_eq : a.limit = some limit
  unlimited : b.limit = none
  begins : a.written <+: b.written
  length_eq : a.written.length = limit

theorem write_unlimited (h : b.limit = none) (bytes : List UInt8) :
    b.write bytes = { b with written := b.written ++ bytes } := by
  simp only [write, h]

theorem write_limited (h : a.limit = some limit) (bytes : List UInt8) : a.write bytes =
    { a with written := a.written ++ bytes.take (limit - a.written.length) } := by
  simp only [write, h]

theorem inStep (limit : Nat) : InStep (Below limit) (Full limit) where
  step step a b hab := by
    obtain ⟨hlimit, hunlimited, hwritten, hle⟩ := hab
    rw [run_step, run_step, write_unlimited hunlimited, write_limited hlimit]
    generalize Text.utf8Bytes step.printed.toList = bytes
    by_cases hfits : a.written.length + bytes.length ≤ limit
    · have htake : bytes.take (limit - a.written.length) = bytes :=
        List.take_of_length_le (by omega)
      have hanswer : a.answer bytes = b.answer bytes := by
        simp [answer, fits, hlimit, hunlimited, hfits]
      refine .inl ⟨by rw [hanswer], hlimit, hunlimited, ?_, ?_⟩
      · show a.written ++ bytes.take _ = b.written ++ bytes
        rw [htake, hwritten]
      · simpa [htake] using hfits
    · refine .inr ⟨hlimit, hunlimited, ?_, ?_⟩
      · simp only [hwritten]
        exact List.prefix_append_right_inj _ |>.mpr (List.take_prefix _ _)
      · simp only [List.length_append, List.length_take]
        omega
  left step a b hab := by
    obtain ⟨hlimit, hunlimited, hbegins, hlength⟩ := hab
    rw [run_step, write_limited hlimit]
    exact ⟨hlimit, hunlimited, by simpa [hlength] using hbegins, by simp [hlength]⟩
  right step a b hab := by
    obtain ⟨hlimit, hunlimited, hbegins, hlength⟩ := hab
    rw [run_step, write_unlimited hunlimited]
    exact ⟨hlimit, hunlimited, hbegins.trans (List.prefix_append _ _), hlength⟩

theorem written_eq_take (h : Below limit a b ∨ Full limit a b) :
    a.written = b.written.take limit := by
  rcases h with ⟨-, -, hwritten, hle⟩ | ⟨-, -, hbegins, hlength⟩
  · rw [← hwritten, List.take_of_length_le hle]
  · rw [← hlength]
    exact List.prefix_iff_eq_take.mp hbegins

end WriterSink

/-- After every step, a limited writer behind any number of layers has got the first bytes of what
an unlimited writer gets. -/
theorem observed_limited (limit n : Nat) (steps : List SinkStep) :
    (Wrapped.observed ({ limit := some limit } : WriterSink) n steps).map (fun o => o.2.written) =
      (Wrapped.observed ({} : WriterSink) n steps).map fun o => o.2.written.take limit := by
  have hstart : WriterSink.Below limit { limit := some limit } {} := ⟨rfl, rfl, rfl, Nat.zero_le _⟩
  have hruns := ((WriterSink.inStep limit).wrapped n).runSteps steps
    (.inl (Wrapped.agree_wrap hstart n))
  rw [Wrapped.observed, Wrapped.observed, List.map_map, List.map_map]
  apply (congrFun₂ List.forall₂_eq_eq_eq _ _).mp
  rw [List.forall₂_map_left_iff, List.forall₂_map_right_iff]
  exact hruns.imp fun x y hxy => WriterSink.written_eq_take (hxy.imp_left Wrapped.Agree.base)

end TemplateLogging
