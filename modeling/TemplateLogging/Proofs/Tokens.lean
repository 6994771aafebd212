import Mathlib.Data.List.TakeDrop

/-!
The tokens of a text: tags, entities, ampersands that begin no entity, spaces and single characters.
`tokens` reads them off from the left; `Splits` says the same with one rule for each kind of token.
-/

namespace TemplateLogging.Directive

inductive Token where
  /-- A `<` with all up to and including the next `>`, or up to the end. -/
  | tag (rest : List Char)
  /-- An ampersand, a name and a semicolon. -/
  | entity (name : List Char)
  /-- An ampersand that begins no entity, with all up to the next `<` or space, or up to the end. -/
  | bareAmpersand (rest : List Char)
  | space
  | single (c : Char)
deriving DecidableEq

namespace Token

def chars : Token → List Char
  | tag rest => '<' :: rest
  | entity name => '&' :: (name ++ [';'])
  | bareAmpersand rest => '&' :: rest
  | space => [' ']
  | single c => [c]

theorem chars_ne_nil (t : Token) : t.chars ≠ [] := by
  cases t <;> exact List.cons_ne_nil _ _

end Token

/-- The character neither completes an entity nor rules one out. -/
def isNameChar (c : Char) : Bool :=
  c != ';' && c != '<' && c != ' '

def IsName (cs : List Char) : Prop :=
  ∀ c ∈ cs, isNameChar c = true

/-- The token that a character begins, with what comes after it. -/
def firstToken (c : Char) (cs : List Char) : Token × List Char :=
  if c = '<' then
    let (body, rest) := cs.span (· != '>')
    (.tag (body ++ rest.take 1), rest.drop 1)
  else if c = '&' then
    match cs.span isNameChar with
    | (name, ';' :: rest) => (.entity name, rest)
    | (run, rest) => (.bareAmpersand run, rest)
  else if c = ' ' then (.space, cs)
  else (.single c, cs)

/-- The tokens are those of the text. -/
inductive Splits : List Char → List Token → Prop where
  | nil : Splits [] []
  | tag {body rest ts} (hbody : '>' ∉ body) (h : Splits rest ts) :
      Splits ('<' :: (body ++ '>' :: rest)) (.tag (body ++ ['>']) :: ts)
  | openTag {body} (hbody : '>' ∉ body) : Splits ('<' :: body) [.tag body]
  | entity {name rest ts} (hname : IsName name) (h : Splits rest ts) :
      Splits ('&' :: (name ++ ';' :: rest)) (.entity name :: ts)
  | bareAmpersand {run rest ts} (hrun : IsName run)
      (hstop : ∀ c, rest.head? = some c → c = '<' ∨ c = ' ') (h : Splits rest ts) :
      Splits ('&' :: (run ++ rest)) (.bareAmpersand run :: ts)
  | space {rest ts} (h : Splits rest ts) : Splits (' ' :: rest) (.space :: ts)
  | single {c rest ts} (hc : c ≠ '<' ∧ c ≠ '&' ∧ c ≠ ' ') (h : Splits rest ts) :
      Splits (c :: rest) (.single c :: ts)

variable {c : Char} {cs body name run rest : List Char} {ts : List Token}

theorem span_append {p : Char → Bool} (hall : ∀ c ∈ body, p c = true)
    (hstop : ∀ c, rest.head? = some c → p c = false) : (body ++ rest).span p = (body, rest) := by
  rw [List.span_eq_takeWhile_dropWhile, List.takeWhile_append_of_pos hall,
    List.dropWhile_append_of_pos hall]
  cases rest with
  | nil => simp
  | cons d rest => simp [hstop d rfl]

theorem exists_span (p : Char → Bool) (cs : List Char) : ∃ body rest, cs = body ++ rest ∧
    cs.span p = (body, rest) ∧ (∀ c ∈ body, p c = true) ∧
      ∀ c, rest.head? = some c → p c = false := by
  refine ⟨cs.takeWhile p, cs.dropWhile p, List.takeWhile_append_dropWhile.symm,
    List.span_eq_takeWhile_dropWhile p cs, List.all_eq_true.mp List.all_takeWhile, ?_⟩
  intro c hc
  have hhead := List.head?_dropWhile_not p cs
  rwa [hc] at hhead

theorem forall_ne_iff : (∀ c ∈ body, (c != '>') = true) ↔ '>' ∉ body := by
  simp only [bne_iff_ne]
  exact List.forall_mem_ne'

theorem firstToken_tag (h : '>' ∉ body) :
    firstToken '<' (body ++ '>' :: rest) = (.tag (body ++ ['>']), rest) := by
  have hspan : (body ++ '>' :: rest).span (· != '>') = (body, '>' :: rest) :=
    span_append (forall_ne_iff.mpr h) (by simp)
  rw [firstToken, if_pos rfl, hspan]
  rfl

theorem firstToken_openTag (h : '>' ∉ body) : firstToken '<' body = (.tag body, []) := by
  have hspan : (body ++ []).span (· != '>') = (body, []) :=
    span_append (forall_ne_iff.mpr h) (by simp)
  rw [List.append_nil] at hspan
  rw [firstToken, if_pos rfl, hspan]
  exact congrArg (fun cs => (Token.tag cs, [])) (List.append_nil body)

theorem firstToken_entity (h : IsName name) :
    firstToken '&' (name ++ ';' :: rest) = (.entity name, rest) := by
  have hspan : (name ++ ';' :: rest).span isNameChar = (name, ';' :: rest) :=
    span_append h (by simp [isNameChar])
  rw [firstToken, if_neg (by decide), if_pos rfl, hspan]
  rfl

theorem firstToken_bareAmpersand (h : IsName run)
    (hstop : ∀ c, rest.head? = some c → c = '<' ∨ c = ' ') :
    firstToken '&' (run ++ rest) = (.bareAmpersand run, rest) := by
  have hspan : (run ++ rest).span isNameChar = (run, rest) := by
    refine span_append h ?_
    intro c hc
    rcases hstop c hc with rfl | rfl <;> decide
  rw [firstToken, if_neg (by decide), if_pos rfl, hspan]
  split
  · rename_i hrest
    cases hrest
    rcases hstop ';' rfl with h | h <;> cases h
  · rename_i hrest
    cases hrest
    rfl

theorem firstToken_single (h : c ≠ '<' ∧ c ≠ '&' ∧ c ≠ ' ') :
    firstToken c cs = (.single c, cs) := by
  rw [firstToken, if_neg h.1, if_neg h.2.1, if_neg h.2.2]

theorem length_firstToken_le (c : Char) (cs : List Char) :
    (firstToken c cs).2.length ≤ cs.length := by
  have hspan : ∀ p : Char → Bool, (cs.span p).2.length ≤ cs.length := by
    intro p
    rw [List.span_eq_takeWhile_dropWhile]
    exact (List.dropWhile_suffix p).length_le
  have hname := hspan isNameChar
  rw [firstToken]
  split_ifs
  · exact Nat.le_trans (by simp) (hspan (· != '>'))
  · split
    · rename_i heq
      rw [heq, List.length_cons] at hname
      exact Nat.le_of_succ_le hname
    · rename_i heq
      rwa [heq] at hname
  · exact Nat.le_refl _
  · exact Nat.le_refl _

/-- The tokens of a text, from left to right. -/
def tokens : List Char → List Token
  | [] => []
  | c :: cs => (firstToken c cs).1 :: tokens (firstToken c cs).2
termination_by cs => cs.length
decreasing_by
  exact Nat.lt_succ_of_le (length_firstToken_le c cs)

theorem splits_firstToken (h : Splits (firstToken c cs).2 ts) :
    Splits (c :: cs) ((firstToken c cs).1 :: ts) := by
  by_cases htag : c = '<'
  · subst htag
    obtain ⟨body, rest, rfl, -, hbody, hstop⟩ := exists_span (· != '>') cs
    have hbody := forall_ne_iff.mp hbody
    cases rest with
    | nil =>
        rw [List.append_nil, firstToken_openTag hbody] at h ⊢
        cases h
        exact .openTag hbody
    | cons d rest =>
        have hd : d = '>' := by simpa using hstop d rfl
        rw [hd, firstToken_tag hbody] at h ⊢
        exact .tag hbody h
  · by_cases hampersand : c = '&'
    · subst hampersand
      obtain ⟨name, rest, rfl, -, hname, hstop⟩ := exists_span isNameChar cs
      by_cases hhead : rest.head? = some ';'
      · obtain ⟨rest, rfl⟩ := List.head?_eq_some_iff.mp hhead
        rw [firstToken_entity hname] at h ⊢
        exact .entity hname h
      · have hstop : ∀ c, rest.head? = some c → c = '<' ∨ c = ' ' := by
          intro c hc
          have hne : c ≠ ';' := fun heq => hhead (heq ▸ hc)
          have hno := hstop c hc
          rw [isNameChar, Bool.and_eq_false_iff, Bool.and_eq_false_iff] at hno
          simpa [hne] using hno
        rw [firstToken_bareAmpersand hname hstop] at h ⊢
        exact .bareAmpersand hname hstop h
    · by_cases hspace : c = ' '
      · subst hspace
        exact .space h
      · rw [firstToken_single ⟨htag, hampersand, hspace⟩] at h ⊢
        exact .single ⟨htag, hampersand, hspace⟩ h

theorem splits_tokens (cs : List Char) : Splits cs (tokens cs) := by
  induction cs using tokens.induct with
  | case1 =>
      rw [tokens]
      exact .nil
  | case2 c cs ih =>
      rw [tokens]
      exact splits_firstToken ih

namespace Splits

theorem tokens_eq (h : Splits cs ts) : tokens cs = ts := by
  induction h with
  | nil => rw [tokens]
  | tag hbody _ ih => rw [tokens, firstToken_tag hbody, ih]
  | openTag hbody => rw [tokens, firstToken_openTag hbody, tokens]
  | entity hname _ ih => rw [tokens, firstToken_entity hname, ih]
  | bareAmpersand hrun hstop _ ih => rw [tokens, firstToken_bareAmpersand hrun hstop, ih]
  | space _ ih => rw [tokens, show firstToken ' ' _ = (.space, _) from rfl, ih]
  | single hc _ ih => rw [tokens, firstToken_single hc, ih]

theorem flatMap_chars (h : Splits cs ts) : ts.flatMap Token.chars = cs := by
  induction h with
  | nil => rfl
  | openTag => exact List.append_nil _
  | _ => simp_all [Token.chars]

end Splits

end TemplateLogging.Directive
