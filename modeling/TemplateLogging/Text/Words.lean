namespace TemplateLogging.Text

/-- The characters with the Unicode property `White_Space`. -/
def isBlank (c : Char) : Bool :=
  let n := c.toNat
  (0x09 ≤ n && n ≤ 0x0D) || n == 0x20 || n == 0x85 || n == 0xA0 || n == 0x1680 ||
    (0x2000 ≤ n && n ≤ 0x200A) || n == 0x2028 || n == 0x2029 || n == 0x202F || n == 0x205F ||
    n == 0x3000

/-- Puts a finished word in front of the words that follow it; an empty word is none. -/
def consWord (word : List Char) (words : List (List Char)) : List (List Char) :=
  if word.isEmpty then words else word :: words

/-- Splits into the word that the text begins with, which may be empty, and the later words. -/
def splitWords : List Char → List Char × List (List Char)
  | [] => ([], [])
  | c :: cs =>
      let (word, words) := splitWords cs
      if isBlank c then ([], consWord word words) else (c :: word, words)

def words (cs : List Char) : List (List Char) :=
  let (word, rest) := splitWords cs
  consWord word rest

theorem eq_or_mem_of_mem_consWord {w word : List Char} {words : List (List Char)}
    (h : w ∈ consWord word words) : w = word ∨ w ∈ words := by
  unfold consWord at h
  split at h
  · exact Or.inr h
  · exact List.mem_cons.mp h

theorem not_isBlank_splitWords (cs : List Char) :
    (∀ c ∈ (splitWords cs).1, isBlank c = false) ∧
      ∀ w ∈ (splitWords cs).2, ∀ c ∈ w, isBlank c = false := by
  induction cs with
  | nil => simp [splitWords]
  | cons d ds ih =>
      obtain ⟨hword, hwords⟩ := ih
      by_cases hd : isBlank d = true
      · simp only [splitWords, hd, if_true, List.not_mem_nil, false_implies, implies_true,
          true_and]
        intro w hw
        rcases eq_or_mem_of_mem_consWord hw with rfl | hw
        · exact hword
        · exact hwords w hw
      · simp only [splitWords, hd, Bool.false_eq_true, if_false]
        refine ⟨?_, hwords⟩
        intro c hc
        rcases List.mem_cons.mp hc with rfl | hc
        · simpa using hd
        · exact hword c hc

def strongLtrRanges : List (Nat × Nat) :=
  [(0x41, 0x5A), (0x61, 0x7A), (0xC0, 0xD6), (0xD8, 0xF6), (0xF8, 0x2B8), (0x300, 0x590),
    (0x800, 0x1FFF), (0x200E, 0x200E), (0x2C00, 0xFB1C), (0xFE00, 0xFE6F), (0xFEFD, 0xFFFF),
    (0x10000, 0x10FFFF)]

def strongRtlRanges : List (Nat × Nat) :=
  [(0x591, 0x7FF), (0x200F, 0x200F), (0xFB1D, 0xFDFF), (0xFE70, 0xFEFC)]

def inRanges (ranges : List (Nat × Nat)) (c : Char) : Bool :=
  ranges.any fun (low, high) => low ≤ c.toNat && c.toNat ≤ high

def isStrongLtr (c : Char) : Bool :=
  inRanges strongLtrRanges c

def isStrongRtl (c : Char) : Bool :=
  inRanges strongRtlRanges c

/-- Whether the first strong character is right to left. -/
def startsRtl (cs : List Char) : Bool :=
  (cs.takeWhile (!isStrongLtr ·)).any isStrongRtl

/-- The decimal digits without a strong direction of their own: the ASCII ones, since all other
decimal digits are strong. -/
def isWeakDigit (c : Char) : Bool :=
  c.isDigit

end TemplateLogging.Text
