import TemplateLogging.Directive.WordBreaks
import TemplateLogging.Proofs.Tokens

namespace TemplateLogging.Directive

namespace WordScan

/-- A break comes before the character. -/
def BreaksBefore (limit : Nat) (s : WordScan) (c : Char) : Prop :=
  limit ≤ s.count ∧ c ≠ ' '

instance (limit : Nat) (s : WordScan) (c : Char) : Decidable (s.BreaksBefore limit c) :=
  inferInstanceAs (Decidable (_ ∧ _))

/-- The scan after a character, and after the break that may come before it. -/
def step (limit : Nat) (s : WordScan) (c : Char) : WordScan :=
  if s.BreaksBefore limit c then WordScan.next { s with count := 0 } c else s.next c

end WordScan

variable {limit n : Nat} {s : WordScan} {c : Char} {cs as bs rest : List Char}

theorem breakWords_cons (limit : Nat) (s : WordScan) (c : Char) (cs : List Char) :
    breakWords limit s (c :: cs) = (if s.BreaksBefore limit c then wordBreak.toList else []) ++
      c :: breakWords limit (s.step limit c) cs := by
  rw [breakWords, WordScan.step]
  by_cases h : s.BreaksBefore limit c
  · rw [if_pos h, if_pos h]
    exact if_pos h
  · rw [if_neg h, if_neg h]
    exact if_neg h

theorem breakWords_cons_of_lt (h : s.count < limit) (c : Char) (cs : List Char) :
    breakWords limit s (c :: cs) = c :: breakWords limit (s.next c) cs := by
  have hno : ¬ s.BreaksBefore limit c := fun hbreaks => Nat.not_le_of_lt h hbreaks.1
  rw [breakWords_cons, WordScan.step, if_neg hno, if_neg hno]
  rfl

theorem breakWords_append (limit : Nat) (s : WordScan) (as bs : List Char) :
    breakWords limit s (as ++ bs) =
      breakWords limit s as ++ breakWords limit (as.foldl (WordScan.step limit) s) bs := by
  induction as generalizing s with
  | nil => rfl
  | cons c as ih =>
      rw [List.cons_append, breakWords_cons, ih, breakWords_cons limit s c as, List.append_assoc]
      rfl

theorem breakWords_copy (hlt : s.count < limit) (hnext : ∀ c ∈ as, s.next c = s)
    (rest : List Char) : breakWords limit s (as ++ rest) = as ++ breakWords limit s rest := by
  induction as with
  | nil => rfl
  | cons c as ih =>
      rw [List.forall_mem_cons] at hnext
      rw [List.cons_append, breakWords_cons_of_lt hlt, hnext.1, ih hnext.2, List.cons_append]

theorem next_tag (hc : c ≠ '>') : WordScan.next ⟨.tag, n⟩ c = ⟨.tag, n⟩ :=
  if_neg hc

theorem next_entity (hc : isNameChar c = true) : WordScan.next ⟨.entity, n⟩ c = ⟨.entity, n⟩ := by
  rw [isNameChar] at hc
  simp only [Bool.and_eq_true, bne_iff_ne] at hc
  obtain ⟨⟨hsemicolon, htag⟩, hspace⟩ := hc
  simp [WordScan.next, hsemicolon, htag, hspace]

/-- A tag and a space are read alike in text and behind an ampersand. -/
theorem next_entity_eq (hc : c = '<' ∨ c = ' ') :
    WordScan.next ⟨.entity, n⟩ c = WordScan.next ⟨.plain, n⟩ c := by
  rcases hc with rfl | rfl <;> rfl

theorem next_plain (hc : c ≠ '<' ∧ c ≠ '&' ∧ c ≠ ' ') :
    WordScan.next ⟨.plain, n⟩ c = ⟨.plain, n + 1⟩ := by
  simp [WordScan.next, hc]

namespace Token

/-- What a token adds to the count. -/
def weight : Token → Nat
  | entity _ => 1
  | single _ => 1
  | _ => 0

/-- The characters of a token outside of tags. -/
def outside : Token → Nat
  | tag _ => 0
  | t => t.chars.length

/-- The visible characters of a token; an entity is one of them. -/
def visible : Token → Nat
  | tag _ => 0
  | entity _ => 1
  | bareAmpersand rest => rest.length + 1
  | space => 0
  | single _ => 1

/-- The characters of a bare ampersand. -/
def bareLength : Token → Nat
  | bareAmpersand rest => rest.length + 1
  | _ => 0

/-- The count after a token. -/
def countFrom (n : Nat) : Token → Nat
  | space => 0
  | t => n + t.weight

theorem visible_eq (t : Token) : t.visible = t.weight + t.bareLength := by
  cases t <;> simp [visible, weight, bareLength]

theorem weight_le (t : Token) : t.weight ≤ 1 := by
  cases t <;> simp [weight]

theorem countFrom_of_ne {t : Token} (h : t ≠ space) (n : Nat) : t.countFrom n = n + t.weight := by
  cases t with
  | space => exact absurd rfl h
  | _ => rfl

end Token

/-- A piece of a broken text. -/
inductive Piece where
  | wordBreak
  | token (t : Token)
deriving DecidableEq

namespace Piece

/-- The token that the piece is in the broken text. -/
def toToken : Piece → Token
  | wordBreak => .tag ['w', 'b', 'r', '>']
  | token t => t

def token? : Piece → Option Token
  | wordBreak => none
  | token t => some t

def chars (p : Piece) : List Char :=
  p.toToken.chars

/-- A line may be broken at the piece. -/
def isOpportunity : Piece → Bool
  | wordBreak => true
  | token t => t = .space

end Piece

/-- Copies the tokens, with a break before each one, other than a space, that finds the count at the
limit. -/
def layOut (limit : Nat) : Nat → List Token → List Piece
  | _, [] => []
  | n, t :: ts =>
      if limit ≤ n ∧ t ≠ .space then .wordBreak :: .token t :: layOut limit (t.countFrom 0) ts
      else .token t :: layOut limit (t.countFrom n) ts

variable {t : Token} {ts : List Token}

theorem layOut_of_lt (h : n < limit) (t : Token) (ts : List Token) :
    layOut limit n (t :: ts) = .token t :: layOut limit (t.countFrom n) ts :=
  if_neg fun hfull => Nat.not_le_of_lt h hfull.1

theorem layOut_of_le (hlimit : 0 < limit) (h : limit ≤ n) (ht : t ≠ .space) (ts : List Token) :
    layOut limit n (t :: ts) = .wordBreak :: layOut limit 0 (t :: ts) := by
  rw [layOut_of_lt hlimit]
  exact if_pos ⟨h, ht⟩

theorem layOut_space (limit n : Nat) (ts : List Token) :
    layOut limit n (.space :: ts) = .token .space :: layOut limit 0 ts :=
  if_neg fun hfull => hfull.2 rfl

theorem filterMap_layOut (limit n : Nat) (ts : List Token) :
    (layOut limit n ts).filterMap Piece.token? = ts := by
  induction ts generalizing n with
  | nil => rfl
  | cons t ts ih =>
      rw [layOut]
      split_ifs
      · exact congrArg (t :: ·) (ih _)
      · exact congrArg (t :: ·) (ih _)

/-- Where a token begins, the scan and the layout agree on the break before it. -/
theorem breakWords_eq_of_forall_lt (hlimit : 0 < limit) (hc : c ≠ ' ') (ht : t ≠ .space)
    (heq : ∀ n < limit, breakWords limit ⟨.plain, n⟩ (c :: cs) =
      (layOut limit n (t :: ts)).flatMap Piece.chars) (n : Nat) :
    breakWords limit ⟨.plain, n⟩ (c :: cs) = (layOut limit n (t :: ts)).flatMap Piece.chars := by
  rcases Nat.lt_or_ge n limit with hn | hn
  · exact heq n hn
  · have hbreaks : WordScan.BreaksBefore limit ⟨.plain, n⟩ c := ⟨hn, hc⟩
    rw [layOut_of_le hlimit hn ht, List.flatMap_cons, ← heq 0 hlimit, breakWords_cons,
      if_pos hbreaks, WordScan.step, if_pos hbreaks, breakWords_cons_of_lt hlimit]
    rfl

theorem breakWords_tag (hn : n < limit) (h : '>' ∉ as) (rest : List Char) :
    breakWords limit ⟨.plain, n⟩ ('<' :: (as ++ rest)) =
      '<' :: (as ++ breakWords limit ⟨.tag, n⟩ rest) := by
  have hcopy : ∀ c ∈ as, WordScan.next ⟨.tag, n⟩ c = ⟨.tag, n⟩ :=
    fun c hc => next_tag (by rintro rfl; exact h hc)
  rw [breakWords_cons_of_lt hn]
  exact congrArg _ (breakWords_copy hn hcopy rest)

theorem breakWords_ampersand (hn : n < limit) (h : IsName as) (rest : List Char) :
    breakWords limit ⟨.plain, n⟩ ('&' :: (as ++ rest)) =
      '&' :: (as ++ breakWords limit ⟨.entity, n⟩ rest) := by
  have hcopy : ∀ c ∈ as, WordScan.next ⟨.entity, n⟩ c = ⟨.entity, n⟩ :=
    fun c hc => next_entity (h c hc)
  rw [breakWords_cons_of_lt hn]
  exact congrArg _ (breakWords_copy hn hcopy rest)

theorem breakWords_entity_eq (hn : n < limit)
    (hstop : ∀ c, rest.head? = some c → c = '<' ∨ c = ' ') :
    breakWords limit ⟨.entity, n⟩ rest = breakWords limit ⟨.plain, n⟩ rest := by
  cases rest with
  | nil => rfl
  | cons c rest =>
      rw [breakWords_cons_of_lt hn, breakWords_cons_of_lt hn, next_entity_eq (hstop c rfl)]

/-- The scan lays the tokens out. -/
theorem Splits.breakWords_eq (hlimit : 0 < limit) (h : Splits cs ts) (n : Nat) :
    breakWords limit ⟨.plain, n⟩ cs = (layOut limit n ts).flatMap Piece.chars := by
  induction h generalizing n with
  | nil => rfl
  | tag hbody _ ih =>
      refine breakWords_eq_of_forall_lt hlimit (by decide) (by simp) (fun n hn => ?_) n
      have hend : WordScan.next ⟨.tag, n⟩ '>' = ⟨.plain, n⟩ := rfl
      rw [breakWords_tag hn hbody, breakWords_cons_of_lt hn, hend, ih, layOut_of_lt hn]
      simp [Piece.chars, Piece.toToken, Token.chars, Token.countFrom, Token.weight]
  | openTag hbody =>
      refine breakWords_eq_of_forall_lt hlimit (by decide) (by simp) (fun n hn => ?_) n
      have htag := breakWords_tag hn hbody []
      rw [List.append_nil] at htag
      rw [htag, layOut_of_lt hn]
      rfl
  | entity hname _ ih =>
      refine breakWords_eq_of_forall_lt hlimit (by decide) (by simp) (fun n hn => ?_) n
      have hend : WordScan.next ⟨.entity, n⟩ ';' = ⟨.plain, n + 1⟩ := rfl
      rw [breakWords_ampersand hn hname, breakWords_cons_of_lt hn, hend, ih, layOut_of_lt hn]
      simp [Piece.chars, Piece.toToken, Token.chars, Token.countFrom, Token.weight]
  | bareAmpersand hrun hstop _ ih =>
      refine breakWords_eq_of_forall_lt hlimit (by decide) (by simp) (fun n hn => ?_) n
      rw [breakWords_ampersand hn hrun, breakWords_entity_eq hn hstop, ih, layOut_of_lt hn]
      rfl
  | space _ ih =>
      have hno : ¬ WordScan.BreaksBefore limit ⟨.plain, n⟩ ' ' := fun hbreaks => hbreaks.2 rfl
      rw [breakWords_cons, if_neg hno, WordScan.step, if_neg hno, layOut_space, List.flatMap_cons,
        ← ih]
      rfl
  | single hc _ ih =>
      refine breakWords_eq_of_forall_lt hlimit hc.2.2 (by simp) (fun n hn => ?_) n
      rw [breakWords_cons_of_lt hn, next_plain hc, ih, layOut_of_lt hn]
      rfl

end TemplateLogging.Directive
