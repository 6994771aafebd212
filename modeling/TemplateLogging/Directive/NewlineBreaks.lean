import TemplateLogging.Value.Basic

namespace TemplateLogging.Directive

def lineBreak : String := "<br>"

def breakLines : List Char → List Char
  | [] => []
  | '\r' :: '\n' :: cs => lineBreak.toList ++ breakLines cs
  | c :: cs =>
      if c = '\r' ∨ c = '\n' then lineBreak.toList ++ breakLines cs else c :: breakLines cs

def changeNewlineToBr (v : Value) : Value :=
  v.withText (String.ofList (breakLines v.text.toList)) none

/-- What a part of a text becomes, by whether a carriage return comes before it. -/
def breakPart : Bool → List Char → List Char
  | _, [] => []
  | afterReturn, c :: cs =>
      if c = '\n' then (if afterReturn then [] else lineBreak.toList) ++ breakPart false cs
      else if c = '\r' then lineBreak.toList ++ breakPart true cs
      else c :: breakPart false cs

/-- Whether a carriage return comes last, by whether one comes before the part. -/
def endsInReturn : Bool → List Char → Bool
  | afterReturn, [] => afterReturn
  | _, c :: cs => endsInReturn (c == '\r') cs

variable {r : Bool} {c : Char} {cs as bs : List Char}

theorem endsInReturn_append (r : Bool) (as bs : List Char) :
    endsInReturn r (as ++ bs) = endsInReturn (endsInReturn r as) bs := by
  induction as generalizing r with
  | nil => rfl
  | cons c as ih => exact ih _

theorem endsInReturn_iff (cs : List Char) :
    endsInReturn false cs = true ↔ cs.getLast? = some '\r' := by
  rcases List.eq_nil_or_concat cs with rfl | ⟨before, c, rfl⟩
  · simp [endsInReturn]
  · simp [endsInReturn_append, endsInReturn]

theorem breakPart_cons (r : Bool) (c : Char) (cs : List Char) :
    breakPart r (c :: cs) = breakPart r [c] ++ breakPart (c == '\r') cs := by
  rw [breakPart, breakPart]
  split
  · rename_i hc
    subst hc
    rw [breakPart, List.append_nil]
    rfl
  · split
    · rename_i hc
      subst hc
      rw [breakPart, List.append_nil]
      rfl
    · rename_i hc
      rw [breakPart, beq_false_of_ne hc]
      rfl

theorem breakPart_append (r : Bool) (as bs : List Char) :
    breakPart r (as ++ bs) = breakPart r as ++ breakPart (endsInReturn r as) bs := by
  induction as generalizing r with
  | nil => rfl
  | cons c as ih =>
      rw [List.cons_append, breakPart_cons, ih, breakPart_cons r c as, List.append_assoc]
      rfl

theorem breakPart_of_head (h : cs.head? ≠ some '\n') (r : Bool) :
    breakPart r cs = breakPart false cs := by
  cases cs with
  | nil => rfl
  | cons c cs =>
      have hc : c ≠ '\n' := fun heq => h (congrArg some heq)
      rw [breakPart, breakPart, if_neg hc, if_neg hc]

theorem head?_ne_of_unpaired
    (h : ∀ rest, c = '\r' → cs = '\n' :: rest → False) : c = '\r' → cs.head? ≠ some '\n' := by
  rintro rfl hhead
  cases cs with
  | nil => cases hhead
  | cons d cs =>
      obtain rfl := Option.some.inj hhead
      exact h cs rfl rfl

theorem breakLines_eq (cs : List Char) : breakLines cs = breakPart false cs := by
  induction cs using breakLines.induct with
  | case1 => rfl
  | case2 cs ih =>
      rw [breakLines, ih]
      rfl
  | case3 c cs hpair hc ih =>
      rw [breakLines, if_pos hc, ih, breakPart_cons]
      · rcases hc with rfl | rfl
        · have hhead := head?_ne_of_unpaired hpair rfl
          exact congrArg _ (breakPart_of_head hhead true).symm
        · rfl
      · exact hpair
  | case4 c cs hpair hc ih =>
      rw [not_or] at hc
      rw [breakLines, if_neg (not_or.mpr hc), ih, breakPart, if_neg hc.2, if_neg hc.1]
      exact hpair

end TemplateLogging.Directive
