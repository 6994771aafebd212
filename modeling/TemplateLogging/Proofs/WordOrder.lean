import Mathlib.Data.List.TakeWhile
import TemplateLogging.Directive.EstimatedDirection

namespace TemplateLogging

namespace Text

/-- The text is made of the words in this order, with white space between them. -/
inductive Spaced : List Char → List (List Char) → Prop where
  | nil : Spaced [] []
  | blank {c : Char} {cs : List Char} {ws : List (List Char)} (hc : isBlank c = true)
      (hcs : Spaced cs ws) : Spaced (c :: cs) ws
  | word {w cs : List Char} {ws : List (List Char)} (hne : w ≠ [])
      (hw : ∀ c ∈ w, isBlank c = false) (hnext : ∀ c ∈ cs.head?, isBlank c = true)
      (hcs : Spaced cs ws) : Spaced (w ++ cs) (w :: ws)

variable {w cs : List Char} {ws : List (List Char)}

theorem words_eq (cs : List Char) : words cs = consWord (splitWords cs).1 (splitWords cs).2 :=
  rfl

theorem splitWords_blank {c : Char} (hc : isBlank c = true) (cs : List Char) :
    splitWords (c :: cs) = ([], words cs) := by
  rw [splitWords, hc, words_eq]
  rfl

theorem splitWords_append (hw : ∀ c ∈ w, isBlank c = false) (cs : List Char) :
    splitWords (w ++ cs) = (w ++ (splitWords cs).1, (splitWords cs).2) := by
  induction w with
  | nil => rfl
  | cons c w ih =>
      obtain ⟨hc, hw⟩ := List.forall_mem_cons.mp hw
      rw [List.cons_append, splitWords, ih hw, hc]
      rfl

theorem splitWords_of_head (hnext : ∀ c ∈ cs.head?, isBlank c = true) :
    splitWords cs = ([], words cs) := by
  cases cs with
  | nil => rfl
  | cons c cs =>
      have hc := hnext c rfl
      rw [splitWords_blank hc, words_eq (c :: cs), splitWords_blank hc]
      rfl

theorem Spaced.words_eq (h : Spaced cs ws) : words cs = ws := by
  induction h with
  | nil => rfl
  | blank hc _ ih =>
      rw [Text.words_eq, splitWords_blank hc, ← ih]
      rfl
  | @word w cs ws hne hw hnext _ ih =>
      rw [Text.words_eq, splitWords_append hw, splitWords_of_head hnext, List.append_nil, ← ih,
        consWord, if_neg (by simpa using hne)]

theorem Spaced.consWord (hw : ∀ c ∈ w, isBlank c = false)
    (hnext : ∀ c ∈ cs.head?, isBlank c = true) (h : Spaced cs ws) :
    Spaced (w ++ cs) (consWord w ws) := by
  cases w with
  | nil => exact h
  | cons c w => exact .word (List.cons_ne_nil c w) hw hnext h

theorem exists_spaced (cs : List Char) : ∃ rest, cs = (splitWords cs).1 ++ rest ∧
    (∀ c ∈ rest.head?, isBlank c = true) ∧ Spaced rest (splitWords cs).2 := by
  induction cs with
  | nil => exact ⟨[], rfl, nofun, .nil⟩
  | cons c cs ih =>
      obtain ⟨rest, hcs, hnext, hrest⟩ := ih
      cases hc : isBlank c with
      | true =>
          have hspaced := hrest.consWord (not_isBlank_splitWords cs).1 hnext
          rw [← hcs] at hspaced
          rw [splitWords_blank hc]
          refine ⟨c :: cs, rfl, ?_, .blank hc hspaced⟩
          rintro d ⟨⟩
          exact hc
      | false =>
          rw [splitWords, hc]
          exact ⟨rest, congrArg (c :: ·) hcs, hnext, hrest⟩

theorem spaced_words (cs : List Char) : Spaced cs (words cs) := by
  obtain ⟨rest, hcs, hnext, hrest⟩ := exists_spaced cs
  have hspaced := hrest.consWord (not_isBlank_splitWords cs).1 hnext
  rwa [← hcs] at hspaced

/-- The decimal digits of all scripts. -/
def decimalDigitRanges : List (Nat × Nat) :=
  [(0x30, 0x39), (0x660, 0x669), (0x6F0, 0x6F9), (0x7C0, 0x7C9), (0x966, 0x96F), (0x9E6, 0x9EF),
    (0xA66, 0xA6F), (0xAE6, 0xAEF), (0xB66, 0xB6F), (0xBE6, 0xBEF), (0xC66, 0xC6F), (0xCE6, 0xCEF),
    (0xD66, 0xD6F), (0xDE6, 0xDEF), (0xE50, 0xE59), (0xED0, 0xED9), (0xF20, 0xF29),
    (0x1040, 0x1049), (0x1090, 0x1099), (0x17E0, 0x17E9), (0x1810, 0x1819), (0x1946, 0x194F),
    (0x19D0, 0x19D9), (0x1A80, 0x1A89), (0x1A90, 0x1A99), (0x1B50, 0x1B59), (0x1BB0, 0x1BB9),
    (0x1C40, 0x1C49), (0x1C50, 0x1C59), (0xA620, 0xA629), (0xA8D0, 0xA8D9), (0xA900, 0xA909),
    (0xA9D0, 0xA9D9), (0xA9F0, 0xA9F9), (0xAA50, 0xAA59), (0xABF0, 0xABF9), (0xFF10, 0xFF19),
    (0x104A0, 0x104A9), (0x10D30, 0x10D39), (0x10D40, 0x10D49), (0x11066, 0x1106F),
    (0x110F0, 0x110F9), (0x11136, 0x1113F), (0x111D0, 0x111D9), (0x112F0, 0x112F9),
    (0x11450, 0x11459), (0x114D0, 0x114D9), (0x11650, 0x11659), (0x116C0, 0x116C9),
    (0x116D0, 0x116E3), (0x11730, 0x11739), (0x118E0, 0x118E9), (0x11950, 0x11959),
    (0x11BF0, 0x11BF9), (0x11C50, 0x11C59), (0x11D50, 0x11D59), (0x11DA0, 0x11DA9),
    (0x11F50, 0x11F59), (0x16130, 0x16139), (0x16A60, 0x16A69), (0x16AC0, 0x16AC9),
    (0x16B50, 0x16B59), (0x16D70, 0x16D79), (0x1CCF0, 0x1CCF9), (0x1D7CE, 0x1D7FF),
    (0x1E140, 0x1E149), (0x1E2F0, 0x1E2F9), (0x1E4F0, 0x1E4F9), (0x1E5F1, 0x1E5FA),
    (0x1E950, 0x1E959), (0x1FBF0, 0x1FBF9)]

def isDecimalDigit (c : Char) : Bool :=
  inRanges decimalDigitRanges c

theorem inRanges_iff {ranges : List (Nat × Nat)} {c : Char} :
    inRanges ranges c = true ↔ ∃ r ∈ ranges, r.1 ≤ c.toNat ∧ c.toNat ≤ r.2 := by
  simp [inRanges]

theorem inRanges_of_covered {ranges others : List (Nat × Nat)} {c : Char}
    (h : ∀ r ∈ ranges, ∃ q ∈ others, q.1 ≤ r.1 ∧ r.2 ≤ q.2) (hc : inRanges ranges c = true) :
    inRanges others c = true := by
  obtain ⟨r, hr, hlow, hhigh⟩ := inRanges_iff.mp hc
  obtain ⟨q, hq, hbelow, habove⟩ := h r hr
  exact inRanges_iff.mpr ⟨q, hq, Nat.le_trans hbelow hlow, Nat.le_trans hhigh habove⟩

theorem inRanges_append (ranges others : List (Nat × Nat)) (c : Char) :
    inRanges (ranges ++ others) c = (inRanges ranges c || inRanges others c) :=
  List.any_append

theorem isWeakDigit_eq (c : Char) : isWeakDigit c = inRanges [(0x30, 0x39)] c := by
  rw [Bool.eq_iff_iff, isWeakDigit, Char.isDigit_iff_toNat, inRanges_iff]
  simp

theorem isDecimalDigit_eq {c : Char} (hltr : isStrongLtr c = false) (hrtl : isStrongRtl c = false) :
    isDecimalDigit c = isWeakDigit c := by
  rw [Bool.eq_iff_iff, isWeakDigit_eq]
  constructor
  · intro hc
    have hcovered : inRanges ([(0x30, 0x39)] ++ (strongLtrRanges ++ strongRtlRanges)) c = true :=
      inRanges_of_covered (by decide) hc
    rwa [inRanges_append, inRanges_append, ← isStrongLtr, ← isStrongRtl, hltr, hrtl,
      Bool.or_false, Bool.or_false] at hcovered
  · exact inRanges_of_covered (by decide)

end Text

namespace Directive

open TemplateLogging.Text

def isAddress (w : List Char) : Bool :=
  "http://".toList.isPrefixOf w || "https://".toList.isPrefixOf w

/-- Whether a word says anything about the direction of its text: it has a strong character or a
digit, or it is an address. -/
def speaks (w : List Char) : Bool :=
  w.any isStrongLtr || w.any isStrongRtl || w.any isDecimalDigit || isAddress w

variable {w : List Char} {ws ws' : List (List Char)} {classes classes' : List WordClass}

theorem startsRtl_eq (h : w.any isStrongLtr = false) : startsRtl w = w.any isStrongRtl := by
  have hall : ∀ c ∈ w, (!isStrongLtr c) = true := by
    intro c hc
    rw [Bool.not_eq_true', Bool.eq_false_iff]
    exact List.any_eq_false.mp h c hc
  rw [startsRtl, List.takeWhile_eq_self_iff.mpr hall]

theorem any_isDecimalDigit (hltr : w.any isStrongLtr = false) (hrtl : w.any isStrongRtl = false) :
    w.any isDecimalDigit = w.any isWeakDigit := by
  rw [Bool.eq_iff_iff, List.any_eq_true, List.any_eq_true]
  refine exists_congr fun c => and_congr_right fun hc => ?_
  rw [isDecimalDigit_eq]
  · exact Bool.eq_false_iff.mpr (List.any_eq_false.mp hltr c hc)
  · exact Bool.eq_false_iff.mpr (List.any_eq_false.mp hrtl c hc)

theorem classify_eq_neutral_iff (w : List Char) : classify w = .neutral ↔ speaks w = false := by
  rw [classify, ← isAddress, speaks]
  cases hltr : w.any isStrongLtr with
  | true =>
      cases startsRtl w with
      | true => simp
      | false =>
          cases isAddress w with
          | true => simp
          | false => simp
  | false =>
      -- No character is strong from left to right, so any other strong one is the first.
      rw [startsRtl_eq hltr]
      cases hrtl : w.any isStrongRtl with
      | true => simp
      | false =>
          rw [any_isDecimalDigit hltr hrtl]
          cases isAddress w with
          | true => simp
          | false =>
              cases w.any isWeakDigit with
              | true => simp
              | false => simp

theorem directionOf_perm (h : classes.Perm classes') :
    directionOf classes = directionOf classes' := by
  rw [directionOf, directionOf, h.count_eq, h.count_eq, h.contains_eq]

theorem directionOf_filter (classes : List WordClass) :
    directionOf (classes.filter (· ≠ .neutral)) = directionOf classes := by
  have hweak : (classes.filter (· ≠ .neutral)).contains .weakLtr = classes.contains .weakLtr := by
    simp
  rw [directionOf, directionOf, List.count_filter rfl, List.count_filter rfl, hweak]

theorem directionOf_words (ws : List (List Char)) :
    directionOf ((ws.filter speaks).map classify) = directionOf (ws.map classify) := by
  have hspeaks : ∀ w, speaks w = decide (classify w ≠ .neutral) := by
    intro w
    rw [Bool.eq_iff_iff, decide_eq_true_iff, ne_eq, classify_eq_neutral_iff, Bool.not_eq_false]
  rw [← directionOf_filter (ws.map classify), List.filter_map, funext hspeaks]
  rfl

/-- The direction of a plain text is that of the words that say something about it, in any order and
with any white space between them. -/
theorem estimateDirection_words {s s' : String} (h : Spaced s.toList ws) (h' : Spaced s'.toList ws')
    (hperm : (ws.filter speaks).Perm (ws'.filter speaks)) :
    estimateDirection s false = estimateDirection s' false := by
  rw [estimateDirection, estimateDirection]
  simp only [Bool.false_eq_true, if_false]
  rw [h.words_eq, h'.words_eq, ← directionOf_words ws, ← directionOf_words ws']
  exact directionOf_perm (hperm.map classify)

theorem estimateDirection_words_shalom :
    ((words "hello 12 שלום !!".toList).filter speaks).Perm
        ((words "\tשלום ...  hello\n12".toList).filter speaks) ∧
      estimateDirection "hello 12 שלום !!" false = .rtl ∧
        estimateDirection "\tשלום ...  hello\n12" false = .rtl := by
  have hperm : ((words "hello 12 שלום !!".toList).filter speaks).Perm
      ((words "\tשלום ...  hello\n12".toList).filter speaks) := by
    decide
  have hsame := estimateDirection_words (spaced_words _) (spaced_words _) hperm
  have hrtl : estimateDirection "hello 12 שלום !!" false = .rtl := by
    decide
  exact ⟨hperm, hrtl, hsame.symm.trans hrtl⟩

end Directive

end TemplateLogging
