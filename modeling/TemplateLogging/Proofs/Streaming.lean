import TemplateLogging.Proofs.LineBreaks
import TemplateLogging.Proofs.Slices
import TemplateLogging.Sink.NewlineBreaks

namespace TemplateLogging

open Directive

namespace SinkStep

def IsAppend : SinkStep → Prop
  | text _ => True
  | char _ => True
  | range _ _ _ => True
  | _ => False

def Valid : SinkStep → Prop
  | range s start stop => Text.Aligned s start stop
  | _ => True

/-- The text that an append takes. -/
def taken : SinkStep → String
  | text s => s
  | char c => String.singleton c
  | range s start stop =>
      if Text.Aligned s start stop then String.Pos.Raw.extract s ⟨start⟩ ⟨stop⟩ else ""
  | _ => ""

def takenAll (steps : List SinkStep) : String :=
  String.join (steps.map taken)

def outcome : SinkStep → Except AppendError Unit
  | range s start stop =>
      if Text.Aligned s start stop then .ok ()
      else .error (.invalidRange start stop s.utf8ByteSize)
  | _ => .ok ()

theorem outcome_of_valid {step : SinkStep} (h : step.Valid) : step.outcome = .ok () := by
  cases step with
  | range s start stop => exact if_pos h
  | _ => rfl

theorem takenAll_cons (step : SinkStep) (steps : List SinkStep) :
    (takenAll (step :: steps)).toList = step.taken.toList ++ (takenAll steps).toList := by
  simp [takenAll]

end SinkStep

theorem SinkM.run_bind {σ α β : Type} {act : SinkM σ α} {next : α → SinkM σ β} {a : α}
    {sink sink' : σ} (h : act.run.run sink = (.ok a, sink')) :
    (act >>= next).run.run sink = (next a).run.run sink' := by
  rw [ExceptT.run_bind, StateT.run_bind, h]
  rfl

namespace BreakingSink

open Text

variable {s : String} {before part after cs : List Char} {sink : BreakingSink TextSink}

/-- The sink after its delegate has got some characters. -/
def put (sink : BreakingSink TextSink) (cs : List Char) : BreakingSink TextSink :=
  { sink with delegate := ⟨sink.delegate.text ++ String.ofList cs⟩ }

/-- The sink after it has taken some characters. -/
def feed (sink : BreakingSink TextSink) (cs : List Char) : BreakingSink TextSink :=
  { sink.put (breakPart sink.afterReturn cs) with
    afterReturn := endsInReturn sink.afterReturn cs }

theorem put_nil : sink.put [] = sink := by
  rw [put, String.ofList_nil, String.append_empty]

theorem put_put (as bs : List Char) : (sink.put as).put bs = sink.put (as ++ bs) := by
  rw [put, put, put, String.ofList_append, String.append_assoc]

theorem feed_nil : sink.feed [] = sink := by
  rw [feed, breakPart, put_nil]
  rfl

theorem feed_feed (as bs : List Char) : (sink.feed as).feed bs = sink.feed (as ++ bs) := by
  rw [feed, feed, feed, breakPart_append, endsInReturn_append, ← put_put]
  rfl

theorem run_sendAppend (text : String) :
    (send (Sink.append text)).run.run sink = (.ok (), sink.put text.toList) := by
  rw [put, String.ofList_toList]
  rfl

theorem run_sendRange (hs : s.toList = before ++ part ++ after) :
    (sendRange s (utf8Size before) (utf8Size before + utf8Size part)).run.run sink =
      (.ok (), sink.put part) := by
  rw [sendRange]
  split
  · have hpart : utf8Size part = 0 := by omega
    obtain rfl := eq_nil_of_utf8Size hpart
    rw [put_nil]
    rfl
  · have hslice : slice? s (utf8Size before) (utf8Size before + utf8Size part) =
        some (String.ofList part) := by
      rw [slice?_eq_some_iff, String.toList_ofList]
      exact ⟨before, after, hs, rfl, rfl⟩
    have happend : (Sink.appendRange s (utf8Size before) (utf8Size before + utf8Size part) :
        SinkM TextSink Unit) = Sink.append (String.ofList part) := by
      simp only [Sink.appendRange, hslice]
      rfl
    rw [happend, run_sendAppend, String.toList_ofList]

theorem run_sendBreak : (sendBreak : SinkM (BreakingSink TextSink) Unit).run.run sink =
    (.ok (), sink.put lineBreak.toList) :=
  run_sendAppend lineBreak

/-- The characters from `before` on have been read up to `part`, which has not been sent yet. -/
theorem run_sendChars (r : Bool) (hs : s.toList = before ++ part ++ (cs ++ after)) :
    (sendChars s (utf8Size before) (utf8Size before + utf8Size part) r cs).run.run sink =
      (.ok (endsInReturn r cs), sink.put (part ++ breakPart r cs)) := by
  induction cs generalizing before part r sink with
  | nil =>
      rw [sendChars, SinkM.run_bind (run_sendRange hs), breakPart, List.append_nil]
      rfl
  | cons c cs ih =>
      have hresume : ∀ r (sink : BreakingSink TextSink), c.utf8Size = 1 →
          (sendChars s (utf8Size before + utf8Size part + 1)
            (utf8Size before + utf8Size part + 1) r cs).run.run sink =
              (.ok (endsInReturn r cs), sink.put (breakPart r cs)) := by
        intro r sink hc
        have hs' : s.toList = before ++ part ++ [c] ++ [] ++ (cs ++ after) := by
          rw [hs]
          simp only [List.append_assoc, List.cons_append, List.nil_append]
        have hcs : (sendChars _ _ _ _ _).run.run sink = _ := ih r hs'
        rwa [utf8Size_append, utf8Size_append, utf8Size, utf8Size, hc, Nat.add_zero] at hcs
      rw [sendChars]
      split
      · rename_i hc
        subst hc
        rw [SinkM.run_bind (run_sendRange hs)]
        cases r with
        | true =>
            refine (hresume false _ rfl).trans ?_
            rw [put_put]
            rfl
        | false =>
            refine (SinkM.run_bind run_sendBreak).trans ?_
            rw [hresume false _ rfl, put_put, put_put]
            rfl
      · split
        · rename_i hc
          subst hc
          rw [SinkM.run_bind (run_sendRange hs), SinkM.run_bind run_sendBreak, hresume true _ rfl,
            put_put, put_put]
          rfl
        · rename_i hfeed hreturn
          have hs' : s.toList = before ++ (part ++ [c]) ++ (cs ++ after) := by
            rw [hs]
            simp only [List.append_assoc, List.cons_append, List.nil_append]
          have hcs : (sendChars _ _ _ _ _).run.run sink = _ := ih false hs'
          rw [utf8Size_append, utf8Size, utf8Size, Nat.add_zero, ← Nat.add_assoc] at hcs
          rw [hcs, breakPart, if_neg hfeed, if_neg hreturn, endsInReturn, beq_false_of_ne hreturn,
            List.append_assoc]
          rfl

theorem run_appendRange {start stop : Nat} (h : Aligned s start stop) :
    (appendRange s start stop).run.run sink =
      (.ok (), sink.feed (String.Pos.Raw.extract s ⟨start⟩ ⟨stop⟩).toList) := by
  have hslice := slice?_of_aligned h
  generalize String.Pos.Raw.extract s ⟨start⟩ ⟨stop⟩ = part at hslice
  obtain ⟨before, after, hs, rfl, -⟩ := slice?_eq_some_iff.mp hslice
  rw [appendRange, hslice]
  have hs' : s.toList = before ++ [] ++ (part.toList ++ after) := by
    rw [hs, List.append_nil, List.append_assoc]
  exact (SinkM.run_bind (run_sendChars sink.afterReturn hs')).trans rfl

theorem run_appendRange_of_not {start stop : Nat} (h : ¬ Aligned s start stop) :
    (appendRange s start stop).run.run sink =
      (.error (.invalidRange start stop s.utf8ByteSize), sink) := by
  have hslice := slice?_eq_none h
  have happend : (Sink.appendRange s start stop : SinkM TextSink Unit) =
      throw (.invalidRange start stop s.utf8ByteSize) := by
    simp only [Sink.appendRange, hslice]
  rw [appendRange, hslice, happend]
  rfl

theorem run_appendChar (c : Char) :
    (appendChar c).run.run sink = (.ok (), sink.feed [c]) := by
  rw [appendChar]
  split
  · rename_i hc
    subst hc
    obtain ⟨delegate, afterReturn⟩ := sink
    cases afterReturn with
    | true =>
        show _ = (Except.ok (), { put ⟨delegate, true⟩ [] with afterReturn := false })
        rw [put_nil]
        rfl
    | false =>
        have hget : (get : SinkM (BreakingSink TextSink) _).run.run ⟨delegate, false⟩ = _ := rfl
        exact (SinkM.run_bind hget).trans (SinkM.run_bind run_sendBreak)
  · split
    · rename_i hc
      subst hc
      exact SinkM.run_bind run_sendBreak
    · rename_i hfeed hreturn
      have hsend : (send (Sink.appendChar c)).run.run sink = (Except.ok (), sink.put [c]) := by
        rw [put, ← String.singleton_eq_ofList, String.append_singleton]
        rfl
      rw [SinkM.run_bind hsend, feed, breakPart, if_neg hfeed, if_neg hreturn, endsInReturn,
        beq_false_of_ne hreturn]
      rfl

end BreakingSink

variable {sink : BreakingSink TextSink} {step : SinkStep} {steps : List SinkStep} {t₀ : String}

theorem SinkStep.run_append (h : step.IsAppend) :
    step.run.run.run sink = (step.outcome, sink.feed step.taken.toList) := by
  cases step with
  | text s =>
      have hall : Text.Aligned s 0 s.utf8ByteSize :=
        ⟨Nat.zero_le _, String.Pos.Raw.isValid_zero, String.Pos.Raw.isValid_rawEndPos⟩
      have happend : _ = (Except.ok (), sink.feed _) := BreakingSink.run_appendRange hall
      have hextract : String.Pos.Raw.extract s ⟨0⟩ ⟨s.utf8ByteSize⟩ = s :=
        String.extract_zero_rawEndPos s
      rwa [hextract] at happend
  | char c =>
      rw [taken, String.toList_singleton]
      exact BreakingSink.run_appendChar c
  | range s start stop =>
      by_cases haligned : Text.Aligned s start stop
      · rw [outcome, taken, if_pos haligned, if_pos haligned]
        exact BreakingSink.run_appendRange haligned
      · rw [outcome, taken, if_neg haligned, if_neg haligned]
        refine (BreakingSink.run_appendRange_of_not haligned).trans ?_
        rw [String.toList_empty, BreakingSink.feed_nil]
  | enter _ | exit | invoke _ => exact h.elim

theorem runSteps_cons {σ : Type} [Sink σ] (sink : σ) (step : SinkStep) (steps : List SinkStep) :
    runSteps sink (step :: steps) =
      step.run.run.run sink :: runSteps (step.run.run.run sink).2 steps :=
  rfl

theorem getElem?_runSteps (h : ∀ step ∈ steps, step.IsAppend) (i : Nat) :
    (runSteps sink steps)[i]? = steps[i]?.map fun step =>
      (step.outcome, sink.feed (SinkStep.takenAll (steps.take (i + 1))).toList) := by
  induction steps generalizing sink i with
  | nil => rfl
  | cons step steps ih =>
      obtain ⟨hstep, hsteps⟩ := List.forall_mem_cons.mp h
      rw [runSteps_cons, SinkStep.run_append hstep, List.take_succ_cons, SinkStep.takenAll_cons]
      cases i with
      | zero =>
          have hnone : SinkStep.takenAll (List.take 0 steps) = "" := rfl
          rw [hnone, String.toList_empty, List.append_nil]
          rfl
      | succ i =>
          rw [List.getElem?_cons_succ, List.getElem?_cons_succ, ih hsteps, BreakingSink.feed_feed]

theorem length_runSteps {σ : Type} [Sink σ] (sink : σ) (steps : List SinkStep) :
    (runSteps sink steps).length = steps.length := by
  induction steps generalizing sink with
  | nil => rfl
  | cons step steps ih => rw [runSteps_cons, List.length_cons, ih, List.length_cons]

/-- The sink after some steps; errors do not stop the steps that follow. -/
def afterSteps {σ : Type} [Sink σ] (sink : σ) : List SinkStep → σ
  | [] => sink
  | step :: steps => afterSteps (step.run.run.run sink).2 steps

theorem getElem?_runSteps_eq {σ : Type} [Sink σ] (sink : σ) (steps : List SinkStep) (i : Nat) :
    (runSteps sink steps)[i]? =
      steps[i]?.map fun step => step.run.run.run (afterSteps sink (steps.take i)) := by
  induction steps generalizing sink i with
  | nil => rfl
  | cons step steps ih =>
      cases i with
      | zero => rfl
      | succ i => simp [runSteps_cons, afterSteps, ih]

theorem runSteps_eraseIdx {σ : Type} [Sink σ] {i : Nat} {idle : SinkStep}
    (hi : steps[i]? = some idle) (hidle : ∀ sink : σ, (idle.run.run.run sink).2 = sink) (sink : σ) :
    runSteps sink (steps.eraseIdx i) = (runSteps sink steps).eraseIdx i := by
  induction steps generalizing sink i with
  | nil => cases hi
  | cons step steps ih =>
      cases i with
      | zero =>
          obtain rfl := Option.some.inj hi
          rw [List.eraseIdx_cons_zero, runSteps_cons, List.eraseIdx_cons_zero, hidle]
      | succ i =>
          rw [List.eraseIdx_cons_succ, runSteps_cons, ih hi, runSteps_cons, List.eraseIdx_cons_succ]

theorem newlinesBroken (w : String) : ∃ lines,
    NewlinesBroken w.toList (changeNewlineToBr (.string w)).text.toList lines := by
  obtain ⟨line, lines, h⟩ := exists_cuts w.toList
  have htext : (changeNewlineToBr (.string w)).text.toList = breakLines w.toList :=
    String.toList_ofList
  rw [htext]
  refine ⟨line :: lines, h, h.breakLines_eq, h.flatten, h.length, ?_⟩
  rw [Directive.breakLines_eq]
  exact isLine_breakPart false w.toList

/-- After every append, the delegate has got the text so far as `changeNewlineToBr` makes it as a
whole. A range that is no slice is refused, and nothing else is different for it. -/
theorem runSteps_breaking (t₀ : String) (steps : List SinkStep)
    (happend : ∀ step ∈ steps, step.IsAppend) :
    let sink : BreakingSink TextSink := { delegate := ⟨t₀⟩ }
    (runSteps sink steps).length = steps.length ∧
    (∀ i step, steps[i]? = some step → ∃ outcome, (runSteps sink steps)[i]? = some outcome ∧
      outcome.2.delegate.text =
          t₀ ++ (changeNewlineToBr (.string (SinkStep.takenAll (steps.take (i + 1))))).text ∧
        (step.Valid → outcome.1 = .ok ()) ∧
        ∀ s start stop, step = .range s start stop → ¬ Text.Aligned s start stop →
          outcome.1 = .error (.invalidRange start stop s.utf8ByteSize) ∧
            runSteps sink (steps.eraseIdx i) = (runSteps sink steps).eraseIdx i) ∧
    ∀ w : String, ∃ lines,
      NewlinesBroken w.toList (changeNewlineToBr (.string w)).text.toList lines := by
  refine ⟨length_runSteps _ steps, ?_, newlinesBroken⟩
  intro i step hstep
  rw [getElem?_runSteps happend, hstep]
  refine ⟨_, rfl, ?_, SinkStep.outcome_of_valid, ?_⟩
  · show t₀ ++ String.ofList (breakPart false _) = _
    rw [← Directive.breakLines_eq]
    rfl
  · rintro s start stop rfl hrange
    refine ⟨if_neg hrange, runSteps_eraseIdx hstep ?_ _⟩
    intro sink
    exact congrArg Prod.snd (BreakingSink.run_appendRange_of_not hrange)

theorem runSteps_breaking_split :
    let sink : BreakingSink TextSink := { delegate := ⟨">"⟩ }
    let steps : List SinkStep := [.text "a\r", .range "é" 0 1, .range "b\nc" 1 3]
    (runSteps sink steps)[1]?.map (·.1) = some (.error (.invalidRange 0 1 2)) ∧
      (runSteps sink steps)[2]?.map (·.2.delegate.text) = some ">a<br>c" := by
  intro sink steps
  have happend : ∀ step ∈ steps, step.IsAppend := by
    simp [steps, SinkStep.IsAppend]
  have hwhole :
      (changeNewlineToBr (.string (SinkStep.takenAll (steps.take 3)))).text = "a<br>c" := by
    decide
  obtain ⟨-, hsteps, -⟩ := runSteps_breaking ">" steps happend
  obtain ⟨refused, hrefused, -, -, hrange⟩ := hsteps 1 _ rfl
  obtain ⟨taken, htaken, htext, -⟩ := hsteps 2 _ rfl
  rw [hwhole] at htext
  rw [hrefused, htaken]
  exact ⟨congrArg some (hrange "é" 0 1 rfl (by decide)).1, congrArg some htext⟩

end TemplateLogging
