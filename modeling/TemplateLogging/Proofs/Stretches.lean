import Mathlib.Algebra.GroupWithZero.Nat
import Mathlib.Algebra.Order.BigOperators.Group.List
import Mathlib.Algebra.Order.Group.Nat
import TemplateLogging.Proofs.WordBreaks

namespace TemplateLogging.Directive

/-- The pieces between the places where a line may be broken. -/
def stretches (ps : List Piece) : List (List Piece) :=
  ps.splitOnP Piece.isOpportunity

/-- The sum over the tokens of a stretch. -/
def total (f : Token → Nat) (stretch : List Piece) : Nat :=
  (stretch.map fun p => f p.toToken).sum

variable {limit n : Nat} {c : Char} {cs : List Char} {t : Token} {ts : List Token} {p : Piece}
  {ps stretch : List Piece} {f g : Token → Nat}

theorem total_cons (f : Token → Nat) (p : Piece) (stretch : List Piece) :
    total f (p :: stretch) = f p.toToken + total f stretch :=
  List.sum_cons

theorem total_add (f g : Token → Nat) (stretch : List Piece) :
    total (fun t => f t + g t) stretch = total f stretch + total g stretch := by
  induction stretch with
  | nil => rfl
  | cons p stretch ih =>
      rw [total_cons, total_cons, total_cons, ih]
      omega

theorem total_congr (h : ∀ p ∈ stretch, f p.toToken = g p.toToken) :
    total f stretch = total g stretch :=
  congrArg List.sum (List.map_congr_left h)

theorem le_total (f : Token → Nat) (h : p ∈ stretch) : f p.toToken ≤ total f stretch :=
  List.le_sum_of_mem (List.mem_map_of_mem h)

theorem stretches_opportunity (h : p.isOpportunity = true) (ps : List Piece) :
    stretches (p :: ps) = [] :: stretches ps := by
  rw [stretches, List.splitOnP_cons_eq_if_modifyHead, if_pos h]
  rfl

theorem stretches_cons (h : p.isOpportunity = false) (ps : List Piece) :
    stretches (p :: ps) = (stretches ps).modifyHead (p :: ·) := by
  rw [stretches, List.splitOnP_cons_eq_if_modifyHead, if_neg (by simp [h])]
  rfl

theorem exists_stretches (ps : List Piece) : ∃ first rest, stretches ps = first :: rest :=
  List.exists_cons_of_ne_nil (List.splitOnP_ne_nil _ ps)

theorem exists_mem_stretches_iff :
    (∃ stretch ∈ stretches ps, p ∈ stretch) ↔ p ∈ ps ∧ p.isOpportunity = false := by
  induction ps with
  | nil => simp [stretches]
  | cons q ps ih =>
      obtain ⟨first, rest, hps⟩ := exists_stretches ps
      rw [List.mem_cons, or_and_right, ← ih]
      cases hq : q.isOpportunity with
      | true =>
          rw [stretches_opportunity hq]
          have hne : ¬ (p = q ∧ p.isOpportunity = false) := by
            rintro ⟨rfl, hp⟩
            rw [hq] at hp
            cases hp
          simp [hne]
      | false =>
          rw [stretches_cons hq, hps]
          have heq : p = q ∧ p.isOpportunity = false ↔ p = q :=
            and_iff_left_of_imp (by rintro rfl; exact hq)
          simp [heq, or_and_right, exists_or, or_assoc]

theorem isOpportunity_token (h : t ≠ .space) : (Piece.token t).isOpportunity = false :=
  decide_eq_false h

/-- The first stretch goes on from the count so far, and the others begin anew. -/
theorem stretches_layOut (hlimit : 0 < limit) (hn : n ≤ limit) (ts : List Token) :
    ∃ first rest, stretches (layOut limit n ts) = first :: rest ∧
      n + total Token.weight first ≤ limit ∧
        ∀ stretch ∈ rest, total Token.weight stretch ≤ limit := by
  induction ts generalizing n with
  | nil => exact ⟨[], [], rfl, hn, by simp⟩
  | cons t ts ih =>
      by_cases ht : t = .space
      · subst ht
        obtain ⟨first, rest, hts, hfirst, hrest⟩ := ih (Nat.zero_le limit)
        rw [Nat.zero_add] at hfirst
        refine ⟨[], first :: rest, ?_, hn, List.forall_mem_cons.mpr ⟨hfirst, hrest⟩⟩
        rw [layOut_space, stretches_opportunity rfl, hts]
      · have hroom : ∀ m < limit, ∃ first rest,
            stretches (layOut limit m (t :: ts)) = first :: rest ∧
              m + total Token.weight first ≤ limit ∧
                ∀ stretch ∈ rest, total Token.weight stretch ≤ limit := by
          intro m hm
          have hcount : t.countFrom m ≤ limit := by
            have hweight := t.weight_le
            rw [Token.countFrom_of_ne ht]
            omega
          obtain ⟨first, rest, hts, hfirst, hrest⟩ := ih hcount
          refine ⟨.token t :: first, rest, ?_, ?_, hrest⟩
          · rw [layOut_of_lt hm, stretches_cons (isOpportunity_token ht), hts]
            rfl
          · rw [Token.countFrom_of_ne ht] at hfirst
            rw [total_cons, Piece.toToken]
            omega
        rcases Nat.lt_or_ge n limit with hlt | hfull
        · exact hroom n hlt
        · obtain ⟨first, rest, hts, hfirst, hrest⟩ := hroom 0 hlimit
          rw [Nat.zero_add] at hfirst
          refine ⟨[], first :: rest, ?_, hn, List.forall_mem_cons.mpr ⟨hfirst, hrest⟩⟩
          rw [layOut_of_le hlimit hfull ht, stretches_opportunity rfl, hts]

theorem weight_stretch_le (hlimit : 0 < limit) (h : stretch ∈ stretches (layOut limit 0 ts)) :
    total Token.weight stretch ≤ limit := by
  obtain ⟨first, rest, hts, hfirst, hrest⟩ := stretches_layOut hlimit (Nat.zero_le limit) ts
  rw [Nat.zero_add] at hfirst
  rw [hts] at h
  rcases List.mem_cons.mp h with rfl | h
  · exact hfirst
  · exact hrest stretch h

theorem token_mem_layOut_iff (limit n : Nat) : .token t ∈ layOut limit n ts ↔ t ∈ ts := by
  conv_rhs => rw [← filterMap_layOut limit n ts, List.mem_filterMap]
  constructor
  · intro h
    exact ⟨_, h, rfl⟩
  · rintro ⟨_ | t', hmem, heq⟩
    · cases heq
    · cases heq
      exact hmem

theorem exists_of_mem_stretch (hs : stretch ∈ stretches (layOut limit n ts)) (hp : p ∈ stretch) :
    ∃ t ∈ ts, p = .token t ∧ t ≠ .space := by
  obtain ⟨hmem, hno⟩ := exists_mem_stretches_iff.mp ⟨stretch, hs, hp⟩
  cases p with
  | wordBreak => cases hno
  | token t => exact ⟨t, (token_mem_layOut_iff limit n).mp hmem, rfl, of_decide_eq_false hno⟩

theorem exists_stretch_of_mem (limit n : Nat) (ht : t ∈ ts) (hne : t ≠ .space) :
    ∃ stretch ∈ stretches (layOut limit n ts), .token t ∈ stretch :=
  exists_mem_stretches_iff.mpr ⟨(token_mem_layOut_iff limit n).mpr ht, isOpportunity_token hne⟩

namespace Splits

theorem wordBreak (h : Splits cs ts) :
    Splits (Directive.wordBreak.toList ++ cs) (Piece.wordBreak.toToken :: ts) :=
  have hbody : '>' ∉ ['w', 'b', 'r'] := by decide
  .tag hbody h

theorem of_layOut (h : ∀ m, Splits (t.chars ++ (layOut limit m ts).flatMap Piece.chars)
    (t :: (layOut limit m ts).map Piece.toToken)) (n : Nat) :
    Splits ((layOut limit n (t :: ts)).flatMap Piece.chars)
      ((layOut limit n (t :: ts)).map Piece.toToken) := by
  rw [layOut]
  split_ifs
  · exact (h _).wordBreak
  · exact h _

theorem head?_layOut (h : Splits cs ts)
    (hc : ((layOut limit n ts).flatMap Piece.chars).head? = some c) :
    c = '<' ∨ cs.head? = some c := by
  cases ts with
  | nil => cases hc
  | cons t ts =>
      obtain ⟨d, rest, ht⟩ := List.exists_cons_of_ne_nil t.chars_ne_nil
      rw [← h.flatMap_chars, List.flatMap_cons, ht]
      rw [Directive.layOut] at hc
      split_ifs at hc
      · exact Or.inl (Option.some.inj hc).symm
      · rw [List.flatMap_cons, Piece.chars, Piece.toToken, ht] at hc
        exact Or.inr hc

theorem layOut (h : Splits cs ts) (limit n : Nat) :
    Splits ((layOut limit n ts).flatMap Piece.chars) ((layOut limit n ts).map Piece.toToken) := by
  induction h generalizing n with
  | nil => exact .nil
  | tag hbody _ ih =>
      refine of_layOut (fun m => ?_) n
      simpa [Token.chars] using Splits.tag hbody (ih m)
  | openTag hbody =>
      refine of_layOut (fun m => ?_) n
      simpa [Token.chars, Directive.layOut] using Splits.openTag hbody
  | entity hname _ ih =>
      refine of_layOut (fun m => ?_) n
      simpa [Token.chars] using Splits.entity hname (ih m)
  | bareAmpersand hrun hstop hrest ih =>
      refine of_layOut ?_ n
      intro m
      refine .bareAmpersand hrun ?_ (ih m)
      intro c hc
      exact (hrest.head?_layOut hc).elim Or.inl (hstop c)
  | space _ ih =>
      refine of_layOut ?_ n
      exact fun m => .space (ih m)
  | single hc _ ih =>
      refine of_layOut ?_ n
      exact fun m => .single hc (ih m)

end Splits

/-- The pieces of a text with word breaks. -/
def laidOut (limit : Nat) (cs : List Char) : List Piece :=
  layOut limit 0 (tokens cs)

theorem insertWordBreaks_eq (v : Value) (hlimit : 0 < limit) : insertWordBreaks v limit =
    v.withText (String.ofList ((laidOut limit v.text.toList).flatMap Piece.chars)) none := by
  rw [insertWordBreaks, (splits_tokens v.text.toList).breakWords_eq hlimit 0]
  rfl

theorem tokens_insertWordBreaks (v : Value) (hlimit : 0 < limit) :
    tokens (insertWordBreaks v limit).text.toList =
      (laidOut limit v.text.toList).map Piece.toToken := by
  rw [insertWordBreaks_eq v hlimit, Value.text_withText, String.toList_ofList]
  exact ((splits_tokens v.text.toList).layOut limit 0).tokens_eq

theorem flatMap_chars_filter (limit n : Nat) (ts : List Token) :
    ((layOut limit n ts).filter (· ≠ .wordBreak)).flatMap Piece.chars = ts.flatMap Token.chars := by
  induction ts generalizing n with
  | nil => rfl
  | cons t ts ih =>
      rw [layOut]
      split_ifs
      · exact congrArg (t.chars ++ ·) (ih _)
      · exact congrArg (t.chars ++ ·) (ih _)

theorem outside_eq_weight (ht : t ≠ .space) (hampersand : '&' ∉ t.chars) :
    t.outside = t.weight := by
  cases t with
  | tag rest => rfl
  | entity name => exact absurd List.mem_cons_self hampersand
  | bareAmpersand rest => exact absurd List.mem_cons_self hampersand
  | space => exact absurd rfl ht
  | single c => rfl

/-- The scan of the directive is a greedy layout of the tokens of the text: a break comes before
each token, other than a space, that finds the count at the limit. Without the breaks that is the
text. Where there is no ampersand, no more than `limit` characters outside of tags stand between the
places where a line may be broken. -/
theorem insertWordBreaks_greedy (v : Value) (hlimit : 0 < limit) :
    insertWordBreaks v limit = v.withText (String.ofList
      ((layOut limit 0 (tokens v.text.toList)).flatMap Piece.chars)) none ∧
    ((layOut limit 0 (tokens v.text.toList)).filter (· ≠ .wordBreak)).flatMap Piece.chars =
      v.text.toList ∧
    ('&' ∉ v.text.toList → ∀ stretch ∈ stretches (layOut limit 0 (tokens v.text.toList)),
      total Token.outside stretch ≤ limit) := by
  have hchars := (splits_tokens v.text.toList).flatMap_chars
  refine ⟨insertWordBreaks_eq v hlimit, ?_, ?_⟩
  · rw [flatMap_chars_filter, hchars]
  · intro hampersand stretch hstretch
    have hcounts : total Token.outside stretch = total Token.weight stretch := by
      apply total_congr
      intro p hp
      obtain ⟨t, ht, rfl, hne⟩ := exists_of_mem_stretch hstretch hp
      apply outside_eq_weight hne
      intro hmem
      rw [← hchars] at hampersand
      exact hampersand (List.mem_flatMap.mpr ⟨t, ht, hmem⟩)
    rw [hcounts]
    exact weight_stretch_le hlimit hstretch

theorem insertWordBreaks_greedy_bold :
    insertWordBreaks (.string "<b>abcd</b>") 2 = .string "<b>ab<wbr>cd<wbr></b>" ∧
      stretches (layOut 2 0 (tokens "<b>abcd</b>".toList)) =
        [[.token (.tag ['b', '>']), .token (.single 'a'), .token (.single 'b')],
          [.token (.single 'c'), .token (.single 'd')], [.token (.tag ['/', 'b', '>'])]] ∧
      ∀ stretch ∈ stretches (layOut 2 0 (tokens "<b>abcd</b>".toList)),
        total Token.outside stretch ≤ 2 := by
  have htext : (Value.string "<b>abcd</b>").text = "<b>abcd</b>" := by rw [Value.text]
  have htokens : tokens "<b>abcd</b>".toList = [.tag ['b', '>'], .single 'a', .single 'b',
      .single 'c', .single 'd', .tag ['/', 'b', '>']] := by
    simp [tokens, firstToken, List.span, List.span.loop]
  have hlimit : 0 < 2 := by decide
  obtain ⟨hgreedy, -, hbound⟩ := insertWordBreaks_greedy (.string "<b>abcd</b>") hlimit
  rw [htext] at hgreedy hbound
  refine ⟨?_, ?_, hbound (by decide)⟩
  · rw [hgreedy, htokens]
    rfl
  · rw [htokens]
    decide

/-- In no stretch more is counted than the limit, where the run of a bare ampersand counts nothing.
A stretch is as long as what is counted in it and these runs together. So all stretches of a text
without bare ampersands are within the limit, and one with a bare ampersand that is longer is
not. -/
theorem insertWordBreaks_stretches (v : Value) (hlimit : 0 < limit) :
    tokens (insertWordBreaks v limit).text.toList =
      (laidOut limit v.text.toList).map Piece.toToken ∧
    (laidOut limit v.text.toList).filterMap Piece.token? = tokens v.text.toList ∧
    (∀ stretch ∈ stretches (laidOut limit v.text.toList),
      total Token.weight stretch ≤ limit ∧
        total Token.visible stretch = total Token.weight stretch + total Token.bareLength stretch) ∧
    ((∀ t ∈ tokens v.text.toList, t.bareLength = 0) →
      ∀ stretch ∈ stretches (laidOut limit v.text.toList), total Token.visible stretch ≤ limit) ∧
    ∀ t ∈ tokens v.text.toList, limit < t.bareLength →
      ∃ stretch ∈ stretches (laidOut limit v.text.toList), .token t ∈ stretch ∧
        limit < total Token.visible stretch := by
  have hvisible : ∀ stretch, total Token.visible stretch =
      total Token.weight stretch + total Token.bareLength stretch := by
    intro stretch
    rw [← total_add]
    exact total_congr fun p _ => p.toToken.visible_eq
  refine ⟨tokens_insertWordBreaks v hlimit, filterMap_layOut limit 0 _,
    fun stretch hs => ⟨weight_stretch_le hlimit hs, hvisible stretch⟩, ?_, ?_⟩
  · intro hnone stretch hs
    have hcounts : total Token.visible stretch = total Token.weight stretch := by
      apply total_congr
      intro p hp
      obtain ⟨t, ht, rfl, -⟩ := exists_of_mem_stretch hs hp
      exact t.visible_eq.trans (congrArg (t.weight + ·) (hnone t ht))
    rw [hcounts]
    exact weight_stretch_le hlimit hs
  · intro t ht hlong
    have hne : t ≠ .space := by
      rintro rfl
      exact absurd hlong (Nat.not_lt_zero _)
    obtain ⟨stretch, hs, hmem⟩ := exists_stretch_of_mem limit 0 ht hne
    refine ⟨stretch, hs, hmem, ?_⟩
    calc limit < t.bareLength := hlong
      _ ≤ total Token.bareLength stretch := le_total Token.bareLength hmem
      _ ≤ total Token.visible stretch := by
        rw [hvisible]
        exact Nat.le_add_left _ _

theorem insertWordBreaks_stretches_query : ∃ stretch ∈ stretches (laidOut 2 "?a&bc".toList),
    .token (.bareAmpersand ['b', 'c']) ∈ stretch ∧ 2 < total Token.visible stretch := by
  have htext : (Value.string "?a&bc").text = "?a&bc" := by rw [Value.text]
  have htokens : tokens "?a&bc".toList = [.single '?', .single 'a', .bareAmpersand ['b', 'c']] := by
    simp [tokens, firstToken, List.span, List.span.loop, isNameChar]
  have hlimit : 0 < 2 := by decide
  have hstretches := insertWordBreaks_stretches (.string "?a&bc") hlimit
  rw [htext] at hstretches
  obtain ⟨-, -, -, -, hlong⟩ := hstretches
  refine hlong _ ?_ (by decide)
  rw [htokens]
  decide

/-- A bare ampersand with two characters behind it is a stretch of three visible characters, and the
directive breaks it nowhere. -/
theorem bareAmpersand_unbroken : insertWordBreaks (.string "&ab") 1 = .string "&ab" ∧
    ¬ ∀ stretch ∈ stretches (laidOut 1 "&ab".toList), total Token.visible stretch ≤ 1 := by
  have htokens : tokens "&ab".toList = [.bareAmpersand ['a', 'b']] := by
    simp [tokens, firstToken, List.span, List.span.loop, isNameChar]
  refine ⟨rfl, ?_⟩
  rw [laidOut, htokens]
  decide

end TemplateLogging.Directive
