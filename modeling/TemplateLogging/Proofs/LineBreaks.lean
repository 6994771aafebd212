import Mathlib.Data.List.Basic
import TemplateLogging.Directive.NewlineBreaks

namespace TemplateLogging.Directive

variable {r : Bool} {c : Char} {cs as bs : List Char}

/-- The line has no newline in it. -/
def IsLine (line : List Char) : Prop :=
  ∀ c ∈ line, c ≠ '\r' ∧ c ≠ '\n'

/-- The lines of a text, which end at its newlines. A carriage return before a line feed is only a
part of a newline. -/
inductive Cuts : List Char → List (List Char) → Prop where
  | last {line} (hline : IsLine line) : Cuts line [line]
  | pair {line rest lines} (hline : IsLine line) (h : Cuts rest lines) :
      Cuts (line ++ '\r' :: '\n' :: rest) (line :: lines)
  | carriageReturn {line rest lines} (hline : IsLine line) (halone : rest.head? ≠ some '\n')
      (h : Cuts rest lines) : Cuts (line ++ '\r' :: rest) (line :: lines)
  | lineFeed {line rest lines} (hline : IsLine line) (h : Cuts rest lines) :
      Cuts (line ++ '\n' :: rest) (line :: lines)

theorem isLine_cons : IsLine (c :: cs) ↔ (c ≠ '\r' ∧ c ≠ '\n') ∧ IsLine cs :=
  List.forall_mem_cons

theorem endsInReturn_line (h : IsLine cs) : endsInReturn false cs = false := by
  rw [Bool.eq_false_iff, ne_eq, endsInReturn_iff]
  intro hlast
  exact (h _ (List.mem_of_getLast? hlast)).1 rfl

theorem Cuts.cons {line : List Char} {lines : List (List Char)} (h : Cuts cs (line :: lines))
    (hc : c ≠ '\r' ∧ c ≠ '\n') : Cuts (c :: cs) ((c :: line) :: lines) := by
  cases h with
  | last hline => exact .last (isLine_cons.mpr ⟨hc, hline⟩)
  | pair hline h => exact .pair (isLine_cons.mpr ⟨hc, hline⟩) h
  | carriageReturn hline halone h => exact .carriageReturn (isLine_cons.mpr ⟨hc, hline⟩) halone h
  | lineFeed hline h => exact .lineFeed (isLine_cons.mpr ⟨hc, hline⟩) h

theorem isLine_nil : IsLine [] :=
  fun _ h => absurd h List.not_mem_nil

theorem exists_cuts (cs : List Char) : ∃ line lines, Cuts cs (line :: lines) := by
  induction cs using breakLines.induct with
  | case1 => exact ⟨[], [], .last isLine_nil⟩
  | case2 cs ih =>
      obtain ⟨line, lines, h⟩ := ih
      exact ⟨[], line :: lines, .pair isLine_nil h⟩
  | case3 c cs hpair hc ih =>
      obtain ⟨line, lines, h⟩ := ih
      rcases hc with rfl | rfl
      · exact ⟨[], line :: lines, .carriageReturn isLine_nil (head?_ne_of_unpaired hpair rfl) h⟩
      · exact ⟨[], line :: lines, .lineFeed isLine_nil h⟩
  | case4 c cs hpair hc ih =>
      obtain ⟨line, lines, h⟩ := ih
      exact ⟨c :: line, lines, h.cons (not_or.mp hc)⟩

theorem breakPart_line (h : IsLine cs) (bs : List Char) :
    breakPart false (cs ++ bs) = cs ++ breakPart false bs := by
  induction cs with
  | nil => rfl
  | cons c cs ih =>
      obtain ⟨hc, hcs⟩ := isLine_cons.mp h
      rw [List.cons_append, breakPart, if_neg hc.2, if_neg hc.1, ih hcs]
      rfl

theorem Cuts.ne_nil {lines : List (List Char)} (h : Cuts cs lines) : lines ≠ [] := by
  cases h <;> exact List.cons_ne_nil _ _

theorem Cuts.breakLines_eq {lines : List (List Char)} (h : Cuts cs lines) :
    breakLines cs = lineBreak.toList.intercalate lines := by
  rw [Directive.breakLines_eq]
  induction h with
  | last hline =>
      have hbreak := breakPart_line hline []
      rwa [List.append_nil] at hbreak
  | pair hline h ih | lineFeed hline h ih =>
      rw [breakPart_line hline, List.intercalate_cons_of_ne_nil h.ne_nil, ← ih, List.append_assoc]
      rfl
  | carriageReturn hline halone h ih =>
      rw [breakPart_line hline, List.intercalate_cons_of_ne_nil h.ne_nil, ← ih, List.append_assoc,
        ← breakPart_of_head halone true]
      rfl

/-- The number of carriage returns with a line feed after them. -/
def returnFeeds (cs : List Char) : Nat :=
  (cs.zip cs.tail).count ('\r', '\n')

theorem returnFeeds_cons (c : Char) (cs : List Char) : returnFeeds (c :: cs) =
    (if c = '\r' ∧ cs.head? = some '\n' then 1 else 0) + returnFeeds cs := by
  cases cs with
  | nil => simp [returnFeeds]
  | cons d cs =>
      rw [returnFeeds, List.tail_cons, List.zip_cons_cons, List.count_cons, Nat.add_comm]
      simp [returnFeeds]

theorem returnFeeds_line (h : IsLine cs) (bs : List Char) :
    returnFeeds (cs ++ bs) = returnFeeds bs := by
  induction cs with
  | nil => rfl
  | cons c cs ih =>
      obtain ⟨hc, hcs⟩ := isLine_cons.mp h
      rw [List.cons_append, returnFeeds_cons, ih hcs, if_neg (fun hpair => hc.1 hpair.1),
        Nat.zero_add]

theorem count_line (h : IsLine cs) : cs.count '\r' = 0 ∧ cs.count '\n' = 0 :=
  ⟨List.count_eq_zero.mpr fun hmem => (h _ hmem).1 rfl,
    List.count_eq_zero.mpr fun hmem => (h _ hmem).2 rfl⟩

theorem Cuts.length {lines : List (List Char)} (h : Cuts cs lines) :
    lines.length + returnFeeds cs = cs.count '\r' + cs.count '\n' + 1 := by
  induction h with
  | last hline =>
      have hpairs := returnFeeds_line hline []
      rw [List.append_nil] at hpairs
      rw [hpairs, (count_line hline).1, (count_line hline).2]
      rfl
  | pair hline h ih =>
      rw [returnFeeds_line hline, returnFeeds_cons, returnFeeds_cons, List.length_cons]
      simp [count_line hline]
      omega
  | carriageReturn hline halone h ih =>
      rw [returnFeeds_line hline, returnFeeds_cons, List.length_cons]
      simp [count_line hline, halone]
      omega
  | lineFeed hline h ih =>
      rw [returnFeeds_line hline, returnFeeds_cons, List.length_cons]
      simp [count_line hline]
      omega

theorem Cuts.flatten {lines : List (List Char)} (h : Cuts cs lines) :
    lines.flatten = cs.filter fun c => c ≠ '\r' ∧ c ≠ '\n' := by
  have hkeep : ∀ {line : List Char}, IsLine line →
      line.filter (fun c => c ≠ '\r' ∧ c ≠ '\n') = line := by
    intro line hline
    rw [List.filter_eq_self]
    exact fun c hc => decide_eq_true (hline c hc)
  induction h with
  | last hline => rw [hkeep hline, List.flatten_singleton]
  | pair hline _ ih | carriageReturn hline _ _ ih | lineFeed hline _ ih =>
      rw [List.filter_append, hkeep hline, List.flatten_cons, ih]
      rfl

/-- The lines of a text are joined by line break tags: there is one tag for every newline, and all
other characters stay in their places. -/
structure NewlinesBroken (w broken : List Char) (lines : List (List Char)) : Prop where
  cuts : Cuts w lines
  joined : broken = lineBreak.toList.intercalate lines
  kept : lines.flatten = w.filter fun c => c ≠ '\r' ∧ c ≠ '\n'
  breaks : lines.length + returnFeeds w = w.count '\r' + w.count '\n' + 1
  isLine : IsLine broken

theorem isLine_breakPart (r : Bool) (cs : List Char) : IsLine (breakPart r cs) := by
  have hbreak : IsLine lineBreak.toList := by
    have htag : lineBreak.toList = ['<', 'b', 'r', '>'] := rfl
    rw [IsLine, htag]
    simp
  induction cs generalizing r with
  | nil => exact isLine_nil
  | cons c cs ih =>
      rw [breakPart]
      split
      · refine List.forall_mem_append.mpr ⟨?_, ih false⟩
        split
        · exact isLine_nil
        · exact hbreak
      · split
        · exact List.forall_mem_append.mpr ⟨hbreak, ih true⟩
        · exact isLine_cons.mpr ⟨⟨‹_›, ‹_›⟩, ih false⟩

end TemplateLogging.Directive
