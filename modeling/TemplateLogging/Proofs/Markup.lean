import Mathlib.Data.List.Induction
import TemplateLogging.Proofs.Stretches

namespace TemplateLogging.Directive

/-- The text before a place ends within a tag. -/
def InTag (before : List Char) : Prop :=
  ∃ outside body, before = outside ++ '<' :: body ∧ '>' ∉ body

/-- The place between two parts of a text is within an entity, whose ampersand is in no tag. -/
def InEntity (before after : List Char) : Prop :=
  ∃ outside name name' rest, before = outside ++ '&' :: name ∧ ¬ InTag outside ∧
    after = name' ++ ';' :: rest ∧ IsName name ∧ IsName name'

/-- The place is strictly within a tag or an entity. -/
def InMarkup (before after : List Char) : Prop :=
  InTag before ∨ InEntity before after

/-- The scan of a text that has come to the end of its first part. -/
def scan (limit : Nat) (before : List Char) : WordScan :=
  before.foldl (WordScan.step limit) {}

variable {limit : Nat} {s : WordScan} {c : Char} {before outside name after : List Char}

theorem scan_concat (limit : Nat) (before : List Char) (c : Char) :
    scan limit (before ++ [c]) = (scan limit before).step limit c :=
  List.foldl_concat _ _ _ _

theorem inTag_concat_iff : InTag (before ++ [c]) ↔ c = '<' ∨ InTag before ∧ c ≠ '>' := by
  constructor
  · rintro ⟨outside, body, heq, hbody⟩
    rcases List.eq_nil_or_concat body with rfl | ⟨body, d, rfl⟩
    · obtain ⟨-, hc⟩ := List.append_inj' heq rfl
      exact Or.inl (List.cons.inj hc).1
    · rw [List.concat_eq_append] at heq hbody
      rw [← List.cons_append, ← List.append_assoc] at heq
      obtain ⟨hbefore, hc⟩ := List.append_inj' heq rfl
      obtain rfl := (List.cons.inj hc).1
      rw [List.mem_append, not_or, List.mem_singleton] at hbody
      exact Or.inr ⟨⟨outside, body, hbefore, hbody.1⟩, fun h => hbody.2 h.symm⟩
  · rintro (rfl | ⟨⟨outside, body, rfl, hbody⟩, hc⟩)
    · exact ⟨before, [], rfl, List.not_mem_nil⟩
    · refine ⟨outside, body ++ [c], by simp, ?_⟩
      rw [List.mem_append, not_or, List.mem_singleton]
      exact ⟨hbody, fun h => hc h.symm⟩

namespace WordScan

theorem region_step (limit : Nat) (s : WordScan) (c : Char) :
    (s.step limit c).region = (s.next c).region := by
  rw [step]
  split_ifs
  · obtain ⟨region, count⟩ := s
    cases region <;> simp only [next] <;> split_ifs <;> rfl
  · rfl

theorem region_next_eq_tag_iff :
    (s.next c).region = .tag ↔ c = '<' ∨ s.region = .tag ∧ c ≠ '>' := by
  obtain ⟨region, count⟩ := s
  cases region <;> simp only [next] <;> split_ifs <;> simp_all

theorem region_next_ampersand (h : s.region ≠ .tag) : (s.next '&').region = .entity := by
  obtain ⟨region, count⟩ := s
  cases region with
  | tag => exact absurd rfl h
  | plain | entity => rfl

/-- The count is below the limit where the scan is not in plain text. -/
def Within (limit : Nat) (s : WordScan) : Prop :=
  s.region ≠ .plain → s.count < limit

theorem count_next (h : (s.next c).region ≠ .plain) : (s.next c).count = s.count := by
  obtain ⟨region, count⟩ := s
  cases region <;> simp only [next] at h ⊢ <;> split_ifs at h ⊢ <;> simp_all

theorem region_of_next_space (h : (s.next ' ').region ≠ .plain) : s.region = .tag := by
  obtain ⟨region, count⟩ := s
  cases region with
  | tag => rfl
  | plain | entity => exact absurd rfl h

theorem Within.step (hlimit : 0 < limit) (h : s.Within limit) (c : Char) :
    (s.step limit c).Within limit := by
  intro hregion
  by_cases hbreaks : s.BreaksBefore limit c
  · rw [WordScan.step, if_pos hbreaks] at hregion ⊢
    rwa [count_next hregion]
  · rw [WordScan.step, if_neg hbreaks] at hregion ⊢
    rw [count_next hregion]
    by_cases hc : c = ' '
    · subst hc
      apply h
      rw [region_of_next_space hregion]
      decide
    · exact Nat.lt_of_not_le fun hfull => hbreaks ⟨hfull, hc⟩

end WordScan

theorem within_scan (hlimit : 0 < limit) (before : List Char) :
    (scan limit before).Within limit := by
  induction before using List.reverseRecOn with
  | nil => exact fun h => absurd rfl h
  | append_singleton before c ih =>
      rw [scan_concat]
      exact ih.step hlimit c

theorem region_scan_eq_tag_iff (limit : Nat) (before : List Char) :
    (scan limit before).region = .tag ↔ InTag before := by
  induction before using List.reverseRecOn with
  | nil =>
      refine iff_of_false nofun ?_
      rintro ⟨outside, body, h, -⟩
      cases outside <;> cases h
  | append_singleton before c ih =>
      rw [scan_concat, WordScan.region_step, WordScan.region_next_eq_tag_iff, ih, inTag_concat_iff]

theorem region_scan_ampersand (limit : Nat) (houtside : ¬ InTag outside) (hname : IsName name) :
    (scan limit (outside ++ '&' :: name)).region = .entity := by
  induction name using List.reverseRecOn with
  | nil =>
      rw [scan_concat, WordScan.region_step]
      exact WordScan.region_next_ampersand ((region_scan_eq_tag_iff limit outside).not.mpr houtside)
  | append_singleton name c ih =>
      rw [IsName, List.forall_mem_append, List.forall_mem_singleton] at hname
      have hregion := ih hname.1
      rw [← List.cons_append, ← List.append_assoc, scan_concat, WordScan.region_step]
      generalize scan limit (outside ++ '&' :: name) = s at hregion ⊢
      obtain ⟨region, count⟩ := s
      subst hregion
      rw [next_entity hname.2]

theorem region_scan_ne_plain (limit : Nat) (h : InMarkup before after) :
    (scan limit before).region ≠ .plain := by
  rcases h with htag | ⟨outside, name, name', rest, rfl, houtside, -, hname, -⟩
  · rw [(region_scan_eq_tag_iff limit before).mpr htag]
    decide
  · rw [region_scan_ampersand limit houtside hname]
    decide

/-- Within markup there are breaks only if the limit is zero, and then before all characters but
spaces. -/
theorem breaksBefore_iff_of_markup (limit : Nat) (h : InMarkup before after)
    (c : Char) : (scan limit before).BreaksBefore limit c ↔ limit = 0 ∧ c ≠ ' ' := by
  refine and_congr_left fun _ => ?_
  constructor
  · intro hfull
    by_contra hlimit
    have hlt := within_scan (Nat.pos_of_ne_zero hlimit) before (region_scan_ne_plain limit h)
    exact Nat.not_le_of_lt hlt hfull
  · rintro rfl
    exact Nat.zero_le _

theorem breakWords_split (limit : Nat) (before : List Char) (c : Char) (after : List Char) :
    breakWords limit {} (before ++ c :: after) = breakWords limit {} before ++
      ((if (scan limit before).BreaksBefore limit c then wordBreak.toList else []) ++
        c :: breakWords limit (scan limit (before ++ [c])) after) := by
  rw [breakWords_append, breakWords_cons, scan_concat]
  rfl

/-- At a place within a tag or an entity there is a break exactly if the limit is zero and no space
comes next. With any other limit the directive keeps all tags and entities: the tokens of the result
are those of the text and the breaks between them. HTML stays HTML, whatever the limit is. -/
theorem insertWordBreaks_markup (v : Value) (limit : Nat) :
    (∀ before c after, v.text.toList = before ++ c :: after →
      (insertWordBreaks v limit).text.toList = breakWords limit {} before ++
        ((if (scan limit before).BreaksBefore limit c then wordBreak.toList else []) ++
          c :: breakWords limit (scan limit (before ++ [c])) after) ∧
      (InMarkup before (c :: after) →
        ((scan limit before).BreaksBefore limit c ↔ limit = 0 ∧ c ≠ ' '))) ∧
    (0 < limit → ∃ pieces : List Piece,
      tokens (insertWordBreaks v limit).text.toList = pieces.map Piece.toToken ∧
        pieces.filterMap Piece.token? = tokens v.text.toList) ∧
    ∀ content direction, v = .html content direction →
      insertWordBreaks v limit = .html (insertWordBreaks v limit).text direction := by
  refine ⟨?_, ?_, ?_⟩
  · intro before c after htext
    refine ⟨?_, fun hmarkup => breaksBefore_iff_of_markup limit hmarkup c⟩
    rw [insertWordBreaks, Value.text_withText, String.toList_ofList, htext, breakWords_split]
  · intro hlimit
    exact ⟨_, tokens_insertWordBreaks v hlimit, filterMap_layOut limit 0 _⟩
  · rintro content direction rfl
    rw [insertWordBreaks, Value.text_withText]
    rfl

theorem insertWordBreaks_markup_link :
    InMarkup "<a ".toList "href>".toList ∧
    ¬ (scan 1 "<a ".toList).BreaksBefore 1 'h' ∧
      ∃ pieces : List Piece, tokens (insertWordBreaks (.html "<a href>" none) 1).text.toList =
        pieces.map Piece.toToken ∧ pieces.filterMap Piece.token? = [.tag "a href>".toList] := by
  have htag : InMarkup "<a ".toList "href>".toList := Or.inl ⟨[], ['a', ' '], rfl, by decide⟩
  have htext : (Value.html "<a href>" none).text = "<a href>" := by rw [Value.html, Value.text]
  have htokens : tokens "<a href>".toList = [.tag "a href>".toList] := by
    simp [tokens, firstToken, List.span, List.span.loop]
  obtain ⟨hplaces, hkept, -⟩ := insertWordBreaks_markup (.html "<a href>" none) 1
  obtain ⟨-, hbreaks⟩ := hplaces "<a ".toList 'h' "ref>".toList (by rw [htext]; rfl)
  obtain ⟨pieces, hpieces, heq⟩ := hkept (by decide)
  refine ⟨htag, ?_, pieces, hpieces, ?_⟩
  · rw [hbreaks htag]
    decide
  · rw [heq, htext, htokens]

/-- With a limit of zero a break comes behind the `<` of a tag, which is no tag any more. -/
theorem tag_cut : InMarkup ['<'] ['a', '>'] ∧
    insertWordBreaks (.html "<a>" none) 0 = .html "<wbr><<wbr>a<wbr>>" none ∧
      Token.tag ['a', '>'] ∉ tokens "<wbr><<wbr>a<wbr>>".toList := by
  refine ⟨Or.inl ⟨[], [], rfl, List.not_mem_nil⟩, rfl, ?_⟩
  simp [tokens, firstToken, List.span, List.span.loop]

end TemplateLogging.Directive
