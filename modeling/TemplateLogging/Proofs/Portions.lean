import TemplateLogging.Proofs.Streaming

/-!
What a breaking sink makes of a step: portions, each the characters that it stands for with the call
on the delegate that they take. A line feed behind a carriage return takes none. No call of a
portion has a newline in its text.
-/

namespace TemplateLogging

open Directive

namespace SinkStep

/-- The step brings no newline and is no empty append. -/
structure Clean (step : SinkStep) : Prop where
  isLine : IsLine step.taken.toList
  ne_empty : step.IsAppend → step.Valid → step.taken ≠ ""

theorem taken_whole (s : String) : taken (.range s 0 s.utf8ByteSize) = s := by
  rw [taken, if_pos (Text.aligned_whole s)]
  exact String.extract_zero_rawEndPos s

theorem taken_part {s : String} {before part after : List Char}
    (hs : s.toList = before ++ part ++ after) :
    taken (.range s (Text.utf8Size before) (Text.utf8Size before + Text.utf8Size part)) =
      String.ofList part := by
  rw [taken, if_pos (Text.aligned_part hs), Text.extract_eq hs]

theorem clean_lineBreak : Clean (.text lineBreak) where
  isLine := by
    show IsLine ['<', 'b', 'r', '>']
    simp [IsLine]
  ne_empty := by
    intro _ _
    simp [taken, lineBreak]

theorem clean_char {c : Char} (hc : c ≠ '\r' ∧ c ≠ '\n') : Clean (.char c) where
  isLine := by simpa [taken, IsLine] using hc
  ne_empty := by simp [taken]

theorem clean_part {s : String} {before part after : List Char}
    (hs : s.toList = before ++ part ++ after) (hline : IsLine part) (hne : part ≠ []) :
    Clean (.range s (Text.utf8Size before) (Text.utf8Size before + Text.utf8Size part)) where
  isLine := by rwa [taken_part hs, String.toList_ofList]
  ne_empty := by
    intro _ _
    rw [taken_part hs]
    simpa using hne

theorem clean_of_taken {step : SinkStep} (htaken : step.taken = "")
    (h : ¬ (step.IsAppend ∧ step.Valid)) : Clean step where
  isLine := by
    rw [htaken]
    exact isLine_nil
  ne_empty happend hvalid := (h ⟨happend, hvalid⟩).elim

end SinkStep

/-- A part of what is appended, with the call on the delegate that it takes, if any. -/
structure Portion where
  input : List Char
  call : Option SinkStep

namespace Portion

/-- A stretch without newlines, unless it is empty. -/
def stretch (s : String) (start stop : Nat) (cs : List Char) : List Portion :=
  if start = stop then [] else [⟨cs, some (.range s start stop)⟩]

def lineFeed (afterReturn : Bool) : Portion :=
  ⟨['\n'], if afterReturn then none else some (.text lineBreak)⟩

def carriageReturn : Portion :=
  ⟨['\r'], some (.text lineBreak)⟩

/-- The portions of the characters of `s` that begin at byte `next`, and before them of the
characters `held` from byte `pending` on, for which no call has been made yet. -/
def ofChars (s : String) : (pending next : Nat) → (held : List Char) → (afterReturn : Bool) →
    List Char → List Portion
  | pending, next, held, _, [] => stretch s pending next held
  | pending, next, held, afterReturn, c :: cs =>
      if c = '\n' then
        stretch s pending next held ++
          lineFeed afterReturn :: ofChars s (next + 1) (next + 1) [] false cs
      else if c = '\r' then
        stretch s pending next held ++
          carriageReturn :: ofChars s (next + 1) (next + 1) [] true cs
      else ofChars s pending (next + c.utf8Size) (held ++ [c]) false cs

/-- A range that is no slice is handed on as it is. -/
def ofRange (afterReturn : Bool) (s : String) (start stop : Nat) : List Portion :=
  match Text.slice? s start stop with
  | some part => ofChars s start start [] afterReturn part.toList
  | none => [⟨[], some (.range s start stop)⟩]

def ofStep (afterReturn : Bool) : SinkStep → List Portion
  | .text s => ofRange afterReturn s 0 s.utf8ByteSize
  | .char c =>
      if c = '\n' then [lineFeed afterReturn]
      else if c = '\r' then [carriageReturn]
      else [⟨[c], some (.char c)⟩]
  | .range s start stop => ofRange afterReturn s start stop
  | hook => [⟨[], some hook⟩]

def inputs (portions : List Portion) : List Char :=
  portions.flatMap input

def calls (portions : List Portion) : List SinkStep :=
  portions.filterMap call

@[simp] theorem inputs_cons (portion : Portion) (portions : List Portion) :
    inputs (portion :: portions) = portion.input ++ inputs portions :=
  List.flatMap_cons

theorem calls_append (as bs : List Portion) : calls (as ++ bs) = calls as ++ calls bs :=
  List.filterMap_append

theorem calls_cons (portion : Portion) (portions : List Portion) :
    calls (portion :: portions) = portion.call.toList ++ calls portions := by
  rw [calls, List.filterMap_cons]
  cases portion.call <;> rfl

/-- A portion as it may come, by whether a carriage return has come last: text without newlines, a
hook or an invalid range goes on as it is, and a newline has its own call. -/
inductive Fits (afterReturn : Bool) : Portion → Prop where
  | through {step : SinkStep} (h : step.Clean) : Fits afterReturn ⟨step.taken.toList, some step⟩
  | lineFeed : Fits afterReturn (lineFeed afterReturn)
  | carriageReturn : Fits afterReturn carriageReturn

/-- Each portion fits what comes before it. -/
inductive Chain : Bool → List Portion → Prop where
  | nil {afterReturn} : Chain afterReturn []
  | cons {afterReturn portion portions} (h : Fits afterReturn portion)
      (hs : Chain (endsInReturn afterReturn portion.input) portions) :
      Chain afterReturn (portion :: portions)

variable {r : Bool} {portion : Portion} {as bs portions : List Portion}

theorem Fits.clean (h : Fits r portion) {call : SinkStep} (hcall : portion.call = some call) :
    call.Clean := by
  cases h with
  | through hclean =>
      obtain rfl := Option.some.inj hcall
      exact hclean
  | carriageReturn =>
      obtain rfl := Option.some.inj hcall
      exact SinkStep.clean_lineBreak
  | lineFeed =>
      cases r with
      | true => cases hcall
      | false =>
          obtain rfl := Option.some.inj hcall
          exact SinkStep.clean_lineBreak

theorem Fits.eq_lineFeed (h : Fits r portion) (hfeed : '\n' ∈ portion.input) :
    portion = Portion.lineFeed r := by
  cases h with
  | through hclean => exact ((hclean.isLine _ hfeed).2 rfl).elim
  | lineFeed => rfl
  | carriageReturn => simp [Portion.carriageReturn] at hfeed

theorem Chain.clean (h : Chain r portions) : ∀ call ∈ calls portions, call.Clean := by
  induction h with
  | nil => simp [calls]
  | cons h hs ih =>
      intro call hcall
      rw [calls, List.mem_filterMap] at hcall
      obtain ⟨portion, hportion, hcall⟩ := hcall
      rcases List.mem_cons.mp hportion with rfl | hportion
      · exact h.clean hcall
      · exact ih call (List.mem_filterMap.mpr ⟨portion, hportion, hcall⟩)

theorem Chain.right (h : Chain r (as ++ bs)) : Chain (endsInReturn r (inputs as)) bs := by
  induction as generalizing r with
  | nil => exact h
  | cons portion as ih =>
      rw [inputs_cons, endsInReturn_append]
      cases h with
      | cons _ hs => exact ih hs

theorem Chain.head (h : Chain r (portion :: portions)) : Fits r portion := by
  cases h with
  | cons h _ => exact h

/-- The portions stand for the characters, in order. -/
structure Covers (afterReturn : Bool) (portions : List Portion) (cs : List Char) : Prop where
  chain : Chain afterReturn portions
  inputs_eq : inputs portions = cs

theorem Covers.nil : Covers r [] [] :=
  ⟨.nil, rfl⟩

theorem Covers.cons {cs : List Char} (h : Fits r portion)
    (hs : Covers (endsInReturn r portion.input) portions cs) :
    Covers r (portion :: portions) (portion.input ++ cs) where
  chain := .cons h hs.chain
  inputs_eq := by rw [inputs_cons, hs.inputs_eq]

theorem Fits.covers (h : Fits r portion) : Covers r [portion] portion.input := by
  simpa using Covers.cons h Covers.nil

theorem Covers.append {cs ds : List Char} (h : Covers r as cs)
    (hs : Covers (endsInReturn r cs) bs ds) : Covers r (as ++ bs) (cs ++ ds) := by
  obtain ⟨hchain, rfl⟩ := h
  induction hchain with
  | nil => exact hs
  | cons h _ ih =>
      rw [inputs_cons, endsInReturn_append] at hs
      rw [inputs_cons, List.append_assoc]
      exact .cons h (ih hs)

variable {s : String} {before held cs after : List Char}

theorem covers_stretch (hs : s.toList = before ++ held ++ after) (hline : IsLine held) :
    Covers r (stretch s (Text.utf8Size before) (Text.utf8Size before + Text.utf8Size held) held)
      held := by
  rw [stretch]
  split
  · have hheld : Text.utf8Size held = 0 := by omega
    obtain rfl := Text.eq_nil_of_utf8Size hheld
    exact .nil
  · rename_i hne
    have hheld : held ≠ [] := by
      rintro rfl
      exact hne rfl
    have hfits : Fits r ⟨_, some _⟩ := .through (SinkStep.clean_part hs hline hheld)
    rw [SinkStep.taken_part hs, String.toList_ofList] at hfits
    exact hfits.covers

theorem covers_ofChars (hs : s.toList = before ++ held ++ (cs ++ after)) (hline : IsLine held) :
    Covers r (ofChars s (Text.utf8Size before) (Text.utf8Size before + Text.utf8Size held) held
      (endsInReturn r held) cs) (held ++ cs) := by
  induction cs generalizing before held r with
  | nil =>
      rw [List.append_nil]
      exact covers_stretch hs hline
  | cons c cs ih =>
      -- Behind a newline, which takes one byte, nothing is held.
      have hresume : c.utf8Size = 1 → ∀ r : Bool,
          Covers r (ofChars s (Text.utf8Size before + Text.utf8Size held + 1)
            (Text.utf8Size before + Text.utf8Size held + 1) [] r cs) cs := by
        intro hc r
        have hs' : s.toList = (before ++ held ++ [c]) ++ [] ++ (cs ++ after) := by
          simpa using hs
        simpa [Text.utf8Size_append, Text.utf8Size, hc, Nat.add_assoc, endsInReturn] using
          ih (r := r) hs' isLine_nil
      have hstretch := covers_stretch (r := r) hs hline
      rw [ofChars]
      split
      · rename_i hc
        subst hc
        exact hstretch.append (.cons .lineFeed (hresume rfl false))
      · split
        · rename_i hc
          subst hc
          exact hstretch.append (.cons .carriageReturn (hresume rfl true))
        · rename_i hfeed hreturn
          have hs' : s.toList = before ++ (held ++ [c]) ++ (cs ++ after) := by
            simpa using hs
          have hline' : IsLine (held ++ [c]) := by
            simpa [IsLine, or_imp, forall_and, hfeed, hreturn] using hline
          have hcs := ih (r := r) hs' hline'
          rw [endsInReturn_append, Text.utf8Size_append, ← Nat.add_assoc] at hcs
          simpa [endsInReturn, Text.utf8Size, beq_false_of_ne hreturn] using hcs

theorem covers_through {step : SinkStep} (htaken : step.taken = "")
    (h : ¬ (step.IsAppend ∧ step.Valid)) : Covers r [⟨[], some step⟩] step.taken.toList := by
  have hfits : Fits r ⟨_, some step⟩ := .through (SinkStep.clean_of_taken htaken h)
  rw [htaken, String.toList_empty] at hfits
  rw [htaken, String.toList_empty]
  exact hfits.covers

theorem covers_ofRange (r : Bool) (s : String) (start stop : Nat) :
    Covers r (ofRange r s start stop) (SinkStep.taken (.range s start stop)).toList := by
  rw [ofRange]
  by_cases haligned : Text.Aligned s start stop
  · have hslice := Text.slice?_of_aligned haligned
    rw [hslice, SinkStep.taken, if_pos haligned]
    generalize String.Pos.Raw.extract s ⟨start⟩ ⟨stop⟩ = part at hslice
    obtain ⟨before, after, hs, rfl, -⟩ := Text.slice?_eq_some_iff.mp hslice
    have hs' : s.toList = before ++ [] ++ (part.toList ++ after) := by
      simpa using hs
    exact covers_ofChars hs' isLine_nil
  · rw [Text.slice?_eq_none haligned]
    exact covers_through (if_neg haligned) fun h => haligned h.2

theorem covers_ofStep (r : Bool) (step : SinkStep) :
    Covers r (ofStep r step) step.taken.toList := by
  cases step with
  | text s =>
      have hcovers := covers_ofRange r s 0 s.utf8ByteSize
      rwa [SinkStep.taken_whole] at hcovers
  | range s start stop => exact covers_ofRange r s start stop
  | char c =>
      rw [ofStep, SinkStep.taken, String.toList_singleton]
      split
      · rename_i hc
        subst hc
        exact Fits.lineFeed.covers
      · split
        · rename_i hc
          subst hc
          exact Fits.carriageReturn.covers
        · rename_i hfeed hreturn
          have hfits : Fits r ⟨_, some _⟩ := .through (SinkStep.clean_char ⟨hreturn, hfeed⟩)
          rw [SinkStep.taken, String.toList_singleton] at hfits
          exact hfits.covers
  | enter | exit | invoke => exact covers_through rfl fun h => h.1

end Portion

end TemplateLogging
