import TemplateLogging.Directive.NewlineBreaks
import TemplateLogging.Directive.SpanWrap
import TemplateLogging.Directive.WordBreaks

namespace TemplateLogging.Directive

/-- A directive that takes any value and keeps HTML. -/
inductive Stage where
  | newlineToBr
  | wordBreaks (limit : Nat)
  | spanWrap (page : PageDirection)

namespace Stage

def apply : Stage → Value → Value
  | newlineToBr, v => changeNewlineToBr v
  | wordBreaks limit, v => insertWordBreaks v limit
  | spanWrap page, v => bidiSpanWrap page v

/-- The page direction, if the stage gives one to its result. -/
def page? : Stage → Option PageDirection
  | spanWrap page => some page
  | _ => none

/-- Applies the stages, the first one first. -/
def runAll (stages : List Stage) (v : Value) : Value :=
  stages.foldl (fun v stage => stage.apply v) v

def lastPage? (stages : List Stage) : Option PageDirection :=
  (stages.filterMap page?).getLast?

/-- The direction that the stages leave, from the one that there was before. -/
def directionAfter (stages : List Stage) (direction : Option Direction) : Option Direction :=
  (lastPage? stages).map PageDirection.toDirection <|> direction

variable {stages later : List Stage} {page : PageDirection}

theorem exists_apply (stage : Stage) (v : Value) : ∃ result,
    stage.apply v = v.withText result (stage.page?.map PageDirection.toDirection) := by
  cases stage with
  | newlineToBr => exact ⟨_, rfl⟩
  | wordBreaks limit => exact ⟨_, rfl⟩
  | spanWrap page => exact ⟨_, rfl⟩

theorem exists_apply_html (stage : Stage) (content : String) (direction : Option Direction) :
    ∃ result, stage.apply (.html content direction) =
      .html result (stage.page?.map PageDirection.toDirection <|> direction) := by
  obtain ⟨result, hresult⟩ := stage.exists_apply (.html content direction)
  exact ⟨result, hresult⟩

theorem exists_apply_plain (stage : Stage) {v : Value} (hv : v.toHtml? = none) :
    ∃ result, stage.apply v = .string result := by
  obtain ⟨result, hresult⟩ := stage.exists_apply v
  rw [Value.withText, hv] at hresult
  exact ⟨result, hresult⟩

theorem directionAfter_cons (stage : Stage) (stages : List Stage) (direction : Option Direction) :
    directionAfter (stage :: stages) direction =
      directionAfter stages (stage.page?.map PageDirection.toDirection <|> direction) := by
  rw [directionAfter, directionAfter, lastPage?, lastPage?]
  cases hpage : stage.page? with
  | none =>
      rw [List.filterMap_cons_none hpage]
      rfl
  | some page =>
      rw [List.filterMap_cons_some hpage, List.getLast?_cons]
      cases (stages.filterMap page?).getLast? with
      | none => rfl
      | some later => rfl

theorem runAll_cons (stage : Stage) (stages : List Stage) (v : Value) :
    runAll (stage :: stages) v = runAll stages (stage.apply v) :=
  rfl

theorem runAll_append (stages later : List Stage) (v : Value) :
    runAll (stages ++ later) v = runAll later (runAll stages v) :=
  List.foldl_append

theorem exists_runAll_html (stages : List Stage) (content : String) (direction : Option Direction) :
    ∃ result, runAll stages (.html content direction) =
      .html result (directionAfter stages direction) := by
  induction stages generalizing content direction with
  | nil => exact ⟨content, rfl⟩
  | cons stage stages ih =>
      obtain ⟨result, hresult⟩ := stage.exists_apply_html content direction
      rw [runAll_cons, hresult, directionAfter_cons]
      exact ih result _

theorem exists_runAll_plain (stage : Stage) (stages : List Stage) {v : Value}
    (hv : v.toHtml? = none) : ∃ result, runAll (stage :: stages) v = .string result := by
  induction stages generalizing stage v with
  | nil => exact stage.exists_apply_plain hv
  | cons next stages ih =>
      obtain ⟨result, hresult⟩ := stage.exists_apply_plain hv
      rw [runAll_cons, hresult]
      exact ih next rfl

theorem eq_spanWrap {stage : Stage} (h : stage.page? = some page) : stage = spanWrap page := by
  cases stage with
  | newlineToBr => cases h
  | wordBreaks limit => cases h
  | spanWrap other => exact congrArg spanWrap (Option.some.inj h)

theorem runAll_unwrapped (hlater : ∀ other, spanWrap other ∈ later → other = page)
    (content : String) : runAll later (.html content (some page.toDirection)) =
      runAll (later.filter (·.page?.isNone)) (.html content (some page.toDirection)) := by
  induction later generalizing content with
  | nil => rfl
  | cons stage later ih =>
      have hrest : ∀ other, spanWrap other ∈ later → other = page := by
        intro other hother
        exact hlater other (List.mem_cons_of_mem stage hother)
      cases hpage : stage.page? with
      | none =>
          obtain ⟨result, hresult⟩ := stage.exists_apply_html content (some page.toDirection)
          rw [hpage] at hresult
          rw [List.filter_cons_of_pos (by rw [hpage]; rfl), runAll_cons, runAll_cons, hresult]
          exact ih hrest result
      | some other =>
          obtain rfl := eq_spanWrap hpage
          obtain rfl := hlater other List.mem_cons_self
          rw [List.filter_cons_of_neg Bool.false_ne_true, runAll_cons, apply, bidiSpanWrap_declared]
          exact ih hrest content

/-- What becomes of the metadata of a value, whatever the stages. A span wrap for the page that the
last one was for does nothing. -/
theorem runAll_metadata (first : Stage) (rest : List Stage) (v : Value) :
    ((∃ c, runAll (first :: rest) v = .sanitized c) ↔ ∃ c, v = .sanitized c ∧ c.kind = .html) ∧
      (∀ content direction, v = .html content direction → ∃ result,
        runAll (first :: rest) v = .html result
          ((lastPage? (first :: rest)).map PageDirection.toDirection <|> direction)) ∧
      ((∀ content direction, v ≠ .html content direction) →
        ∃ result, runAll (first :: rest) v = .string result) ∧
      ∀ content direction page later, v = .html content direction →
        lastPage? (first :: rest) = some page → (∀ other, spanWrap other ∈ later → other = page) →
          runAll (first :: rest ++ later) v =
            runAll (first :: rest ++ later.filter (·.page?.isNone)) v := by
  refine ⟨?_, ?_, ?_, ?_⟩
  · rcases v.html_or_toHtml?_eq_none with ⟨content, direction, rfl⟩ | hv
    · obtain ⟨result, hresult⟩ := exists_runAll_html (first :: rest) content direction
      exact ⟨fun _ => ⟨_, rfl, rfl⟩, fun _ => ⟨_, hresult⟩⟩
    · obtain ⟨result, hresult⟩ := exists_runAll_plain first rest hv
      constructor
      · rintro ⟨c, hc⟩
        rw [hresult] at hc
        cases hc
      · rintro ⟨⟨content, kind, direction⟩, rfl, rfl⟩
        cases hv
  · rintro content direction rfl
    exact exists_runAll_html _ content direction
  · intro hv
    refine exists_runAll_plain first rest (v.html_or_toHtml?_eq_none.resolve_left ?_)
    rintro ⟨content, direction, hhtml⟩
    exact hv content direction hhtml
  · rintro content direction page later rfl hlast hlater
    obtain ⟨result, hresult⟩ := exists_runAll_html (first :: rest) content direction
    rw [directionAfter, hlast] at hresult
    rw [runAll_append, runAll_append, hresult]
    exact runAll_unwrapped hlater result

example : runAll [.spanWrap .rtl, .newlineToBr, .spanWrap .rtl] (.html "a\nb" none) =
    .html "<span dir=\"ltr\">a<br>b</span>&rlm;" (some .rtl) := by
  rfl

end Stage

end TemplateLogging.Directive
