import TemplateLogging.Directive.EstimatedDirection

namespace TemplateLogging.Directive

/-- The mark that restores a page direction. -/
def directionMark : PageDirection → String
  | .ltr => "&lrm;"
  | .rtl => "&rlm;"

/-- The direction that HTML declares, else the estimated one. -/
def valueDirection (v : Value) : Direction :=
  match v.toHtml? with
  | some c => c.direction.getD (estimateDirection v.text true)
  | none => estimateDirection v.text false

def bidiSpanWrap (page : PageDirection) (v : Value) : Value :=
  let direction := valueDirection v
  let result :=
    if direction ≠ .neutral ∧ direction ≠ page.toDirection then
      "<span dir=\"" ++ direction.name ++ "\">" ++ v.text ++ "</span>" ++ directionMark page
    else v.text
  v.withText result (some page.toDirection)

theorem bidiSpanWrap_declared (page : PageDirection) (content : String) :
    bidiSpanWrap page (.html content (some page.toDirection)) =
      .html content (some page.toDirection) := by
  have hdirection : valueDirection (.html content (some page.toDirection)) = page.toDirection := rfl
  rw [bidiSpanWrap, hdirection, if_neg fun h => h.2 rfl, Value.html, Value.text]
  rfl

end TemplateLogging.Directive
