import TemplateLogging.Proofs.Portions

namespace TemplateLogging

open Directive

variable {σ : Type}

theorem SinkM.run_bind_error {α β : Type} {act : SinkM σ α} {next : α → SinkM σ β}
    {error : AppendError} {sink sink' : σ} (h : act.run.run sink = (.error error, sink')) :
    (act >>= next).run.run sink = (.error error, sink') := by
  rw [ExceptT.run_bind, StateT.run_bind, h]
  rfl

section Calls

variable [Sink σ]

/-- Makes the calls in order, up to the first one that fails. -/
def makeCalls : List SinkStep → SinkM σ Unit
  | [] => pure ()
  | call :: calls => do
      call.run
      makeCalls calls

theorem makeCalls_append (as bs : List SinkStep) :
    (makeCalls (as ++ bs) : SinkM σ Unit) = makeCalls as >>= fun _ => makeCalls bs := by
  induction as with
  | nil => rw [List.nil_append, makeCalls, pure_bind]
  | cons call as ih => rw [List.cons_append, makeCalls, ih, makeCalls, bind_assoc]

theorem makeCalls_singleton (call : SinkStep) : (makeCalls [call] : SinkM σ Unit) = call.run :=
  bind_pure call.run

theorem makeCalls_cons_ok {call : SinkStep} {calls : List SinkStep} {sink sink' : σ}
    (h : call.run.run.run sink = (.ok (), sink')) :
    (makeCalls (call :: calls)).run.run sink = (makeCalls calls).run.run sink' := by
  rw [makeCalls, SinkM.run_bind h]

theorem makeCalls_cons_error {call : SinkStep} {calls : List SinkStep} {sink sink' : σ}
    {error : AppendError} (h : call.run.run.run sink = (.error error, sink')) :
    (makeCalls (call :: calls)).run.run sink = (.error error, sink') := by
  rw [makeCalls, SinkM.run_bind_error h]

end Calls

namespace BreakingSink

theorem run_send (act : SinkM σ Unit) (sink : BreakingSink σ) : (send act).run.run sink =
    ((act.run.run sink.delegate).1, { sink with delegate := (act.run.run sink.delegate).2 }) :=
  rfl

theorem send_bind (act next : SinkM σ Unit) :
    (send (act >>= fun _ => next) : SinkM (BreakingSink σ) Unit) =
      send act >>= fun _ => send next := by
  funext sink
  show (send (act >>= fun _ => next)).run.run sink = (send act >>= fun _ => send next).run.run sink
  rcases hact : act.run.run sink.delegate with ⟨error | _, delegate⟩
  · have hsend : (send act).run.run sink = (.error error, { sink with delegate }) := by
      rw [run_send, hact]
    rw [SinkM.run_bind_error hsend, run_send, SinkM.run_bind_error hact]
  · have hsend : (send act).run.run sink = (.ok (), { sink with delegate }) := by
      rw [run_send, hact]
    rw [SinkM.run_bind hsend, run_send, SinkM.run_bind hact, run_send]

/-- What the sink remembers after some characters, by what it has remembered and how the append of
the characters has ended. -/
def carried (afterReturn : Bool) (cs : List Char) : Except AppendError Unit → Bool
  | .ok _ => endsInReturn afterReturn cs
  | .error _ => afterReturn

/-- The answer and the sink after calls on its delegate that stand for some characters. -/
def settled (sink : BreakingSink σ) (cs : List Char) (made : Except AppendError Unit × σ) :
    Except AppendError Unit × BreakingSink σ :=
  (made.1, { delegate := made.2, afterReturn := carried sink.afterReturn cs made.1 })

theorem run_send_settled (act : SinkM σ Unit) (sink : BreakingSink σ) :
    (send act).run.run sink = sink.settled [] (act.run.run sink.delegate) := by
  rw [run_send, settled]
  cases (act.run.run sink.delegate).1 <;> rfl

theorem run_send_setAfterReturn (act : SinkM σ Unit) (cs : List Char) (sink : BreakingSink σ) :
    (send act >>= fun _ => setAfterReturn (endsInReturn sink.afterReturn cs)).run.run sink =
      sink.settled cs (act.run.run sink.delegate) := by
  rcases hact : act.run.run sink.delegate with ⟨error | _, delegate⟩
  · have hsend : (send act).run.run sink = (.error error, { sink with delegate }) := by
      rw [run_send, hact]
    rw [SinkM.run_bind_error hsend]
    rfl
  · have hsend : (send act).run.run sink = (.ok (), { sink with delegate }) := by
      rw [run_send, hact]
    rw [SinkM.run_bind hsend]
    rfl

variable [Sink σ]

theorem send_calls_append (as bs : List Portion) :
    (send (makeCalls (Portion.calls (as ++ bs))) : SinkM (BreakingSink σ) Unit) =
      send (makeCalls (Portion.calls as)) >>= fun _ => send (makeCalls (Portion.calls bs)) := by
  rw [Portion.calls_append, makeCalls_append, send_bind]

theorem send_calls_cons (portion : Portion) (portions : List Portion) :
    (send (makeCalls (Portion.calls (portion :: portions))) : SinkM (BreakingSink σ) Unit) =
      send (makeCalls (Portion.calls [portion])) >>= fun _ =>
        send (makeCalls (Portion.calls portions)) :=
  send_calls_append [portion] portions

theorem sendRange_eq (s : String) (start stop : Nat) (cs : List Char) :
    (sendRange s start stop : SinkM (BreakingSink σ) Unit) =
      send (makeCalls (Portion.calls (Portion.stretch s start stop cs))) := by
  rw [sendRange, Portion.stretch]
  split
  · rfl
  · exact congrArg send (makeCalls_singleton (.range s start stop)).symm

theorem sendFeed_eq (afterReturn : Bool) :
    (if !afterReturn then sendBreak else pure () : SinkM (BreakingSink σ) Unit) =
      send (makeCalls (Portion.calls [Portion.lineFeed afterReturn])) := by
  cases afterReturn with
  | true => rfl
  | false => exact congrArg send (makeCalls_singleton (.text lineBreak)).symm

theorem sendBreak_eq : (sendBreak : SinkM (BreakingSink σ) Unit) =
    send (makeCalls (Portion.calls [Portion.carriageReturn])) :=
  congrArg send (makeCalls_singleton (.text lineBreak)).symm

theorem sendChars_eq (s : String) (pending next : Nat) (held : List Char) (afterReturn : Bool)
    (cs : List Char) :
    (sendChars s pending next afterReturn cs : SinkM (BreakingSink σ) Bool) = do
      send (makeCalls (Portion.calls (Portion.ofChars s pending next held afterReturn cs)))
      return endsInReturn afterReturn cs := by
  induction cs generalizing pending next held afterReturn with
  | nil =>
      rw [sendChars, sendRange_eq s pending next held]
      rfl
  | cons c cs ih =>
      rw [sendChars, Portion.ofChars]
      split
      · rename_i hc
        subst hc
        rw [send_calls_append, send_calls_cons, bind_assoc, bind_assoc, ← sendRange_eq,
          ← sendFeed_eq, ih _ _ []]
        cases afterReturn <;> rfl
      · split
        · rename_i hc
          subst hc
          rw [send_calls_append, send_calls_cons, bind_assoc, bind_assoc, ← sendRange_eq,
            ← sendBreak_eq, ih _ _ []]
          rfl
        · rename_i hfeed hreturn
          -- No call is made for the character yet: it joins those that are held.
          rw [ih _ _ (held ++ [c]), endsInReturn, beq_false_of_ne hreturn]

theorem run_appendRange_eq (sink : BreakingSink σ) (s : String) (start stop : Nat) :
    (appendRange s start stop).run.run sink =
      sink.settled (SinkStep.taken (.range s start stop)).toList
        ((makeCalls (Portion.calls (Portion.ofRange sink.afterReturn s start stop))).run.run
          sink.delegate) := by
  rw [appendRange, Portion.ofRange, SinkStep.taken]
  by_cases haligned : Text.Aligned s start stop
  · simp only [Text.slice?_of_aligned haligned, if_pos haligned]
    rw [← run_send_setAfterReturn]
    have hget : (get : SinkM (BreakingSink σ) _).run.run sink = (.ok sink, sink) := rfl
    rw [SinkM.run_bind hget, sendChars_eq s start start [], bind_assoc]
    rfl
  · simp only [Text.slice?_eq_none haligned, if_neg haligned]
    rw [run_send_settled, String.toList_empty]
    exact congrArg (fun act : SinkM σ Unit => sink.settled [] (act.run.run sink.delegate))
      (makeCalls_singleton (.range s start stop)).symm

theorem run_appendChar_eq (sink : BreakingSink σ) (c : Char) : (appendChar c).run.run sink =
    sink.settled [c]
      ((makeCalls (Portion.calls (Portion.ofStep sink.afterReturn (.char c)))).run.run
        sink.delegate) := by
  rw [appendChar, Portion.ofStep, ← run_send_setAfterReturn]
  split
  · rename_i hc
    subst hc
    have hget : (get : SinkM (BreakingSink σ) _).run.run sink = (.ok sink, sink) := rfl
    rw [SinkM.run_bind hget, ← sendFeed_eq]
    cases sink.afterReturn <;> rfl
  · split
    · rename_i hc
      subst hc
      rw [← sendBreak_eq]
      rfl
    · rename_i hfeed hreturn
      rw [endsInReturn, beq_false_of_ne hreturn]
      exact congrArg (fun act => (send act >>= fun _ => setAfterReturn false).run.run sink)
        (makeCalls_singleton (.char c)).symm

theorem run_hook_eq (sink : BreakingSink σ) (hook : SinkStep) :
    (send hook.run).run.run sink = sink.settled [] ((makeCalls [hook]).run.run sink.delegate) := by
  rw [makeCalls_singleton, run_send_settled]

/-- A step makes the calls of its portions on the delegate, and answers as they do. -/
theorem run_step (sink : BreakingSink σ) (step : SinkStep) :
    step.run.run.run sink = sink.settled step.taken.toList
      ((makeCalls (Portion.calls (Portion.ofStep sink.afterReturn step))).run.run
        sink.delegate) := by
  cases step with
  | text s =>
      have happend := run_appendRange_eq sink s 0 s.utf8ByteSize
      rw [SinkStep.taken_whole] at happend
      exact happend
  | char c =>
      rw [SinkStep.taken, String.toList_singleton]
      exact run_appendChar_eq sink c
  | range s start stop => exact run_appendRange_eq sink s start stop
  | enter statement => exact run_hook_eq sink (.enter statement)
  | exit => exact run_hook_eq sink .exit
  | invoke invocation => exact run_hook_eq sink (.invoke invocation)

end BreakingSink

end TemplateLogging
