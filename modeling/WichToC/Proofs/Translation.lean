import WichToC.Backend
import WichToC.Proofs.Occurrences
import WichToC.Proofs.Rendering

/-!
# Translation succeeds or reports errors

A source text is refused with the number of errors that were reported, or it is translated and
nothing is reported at all.  There is nothing in between: a script without errors can be built, and
the templates of both backends fit its model.
-/

namespace WichToC

open Analysis

variable {script : Script}

/-! ## Built models have no counting nodes -/

/-- A node that is not made for counting references. -/
def Node.IsPlain (n : Node) : Prop := n.kind.isCounting = false

theorem Node.IsExprNode.isPlain {t : Table} {n : Node} (h : n.IsExprNode t) : n.IsPlain := by
  cases n with
  | literal kind value temp | binary kind op ty operandTy temp left right | unary kind ty temp expr
  | index kind ty temp expr i | widen kind ty temp expr len => cases kind <;> rfl
  | vectorLit | varRef | call | length | bind => rfl
  | _ => exact h.elim

theorem Node.IsBuiltNode.isPlain {t : Table} {n : Node} (h : n.IsBuiltNode t) : n.IsPlain := by
  rcases h with h | h
  · exact h.isPlain
  · cases n <;> first | rfl | cases h

/-! ## Generating C -/

/-- The model of a script without errors can be built, and the templates of both backends fit what
they render. -/
theorem Accepted.renders {base table : Table} (h : Accepted base script table) :
    ∃ model, Node.ofScript script table = .ok model ∧ (model.render .plain).2 = [] ∧
      ((model.inject table).render .counting).2 = [] := by
  obtain ⟨model, hmodel, hshape⟩ := h.ofScript
  refine ⟨model, hmodel, Node.render_mismatches ?_, Node.render_mismatches ?_⟩
  · exact hshape.all_nodes.imp fun _ h => TemplateGroup.fits_plain h.isPlain
  · exact .of_forall (fun m => TemplateGroup.fits_counting) _

/-- Generating C from a script without errors gives a text and no warning. -/
theorem Accepted.generate {base table : Table} (h : Accepted base script table)
    (backend : Backend) : ∃ text, backend.generate script table = .ok ⟨text, []⟩ := by
  obtain ⟨model, hmodel, hplain, hcounting⟩ := h.renders
  cases backend with
  | plain =>
    refine ⟨Layout.indented (model.render .plain).1, ?_⟩
    simp [Backend.generate, hmodel, Except.map, Backend.templates, hplain]
  | counting =>
    refine ⟨Layout.indented ((model.inject table).render .counting).1, ?_⟩
    simp [Backend.generate, hmodel, Except.map, Backend.templates, hcounting]

/-- Where reading, declaring and typing find no error, nothing was reported. -/
theorem Analysis.report_eq {source : String} {report : Report}
    (h : (ofSource source report).report.hasErrors = false) :
    (ofSource source report).report = report.addAll [] := by
  obtain ⟨faults, hreport, herrors, -⟩ := ofSource_spec source report
  rw [hreport] at h
  have hnone : faults = [] :=
    Report.eq_nil_of_errorCount report herrors (by simpa [Report.hasErrors] using h)
  rw [hreport, hnone]

/-- **Outcomes of translation.**  With nothing reported before, a text is refused and the number of
errors is given, at least one, or it is translated and nothing is reported.  A text in which
reading, declaring and typing find errors is refused with their number and with what they report.  A
text in which they find none is translated: its model can be built, and no template of either
backend is missing or asks for a child that the model does not have. -/
theorem translate_rejected_or_ok (backend : Backend) (source : String) (report : Report)
    (hfresh : report.diagnostics = []) :
    ((∃ n, (backend.translate source report).1 = .error (.rejected n) ∧ 1 ≤ n ∧
        n = (backend.translate source report).2.errorCount) ∨
      ∃ text, (backend.translate source report).1 = .ok text ∧
        (backend.translate source report).2.diagnostics = []) ∧
    ((ofSource source report).report.hasErrors = true →
      backend.translate source report =
        (.error (.rejected (ofSource source report).report.errorCount),
          (ofSource source report).report)) ∧
    ((ofSource source report).report.hasErrors = false →
      (∃ text, (backend.translate source report).1 = .ok text) ∧
      ∃ model, Node.ofScript (ofSource source report).script
          (ofSource source report).table = .ok model ∧
        (model.render .plain).2 = [] ∧
        ((model.inject (ofSource source report).table).render .counting).2 = []) := by
  cases herr : (ofSource source report).report.hasErrors with
  | true =>
    have hrejected : backend.translate source report =
        (.error (.rejected (ofSource source report).report.errorCount),
          (ofSource source report).report) := by
      simp [Backend.translate, herr]
    refine ⟨.inl ⟨_, by rw [hrejected], ?_, by rw [hrejected]⟩, fun _ => hrejected, by simp⟩
    have hpos : 0 < (ofSource source report).report.errorCount := by
      simpa [Report.hasErrors] using herr
    exact hpos
  | false =>
    obtain ⟨base, hacc⟩ := accepted herr
    obtain ⟨text, htext⟩ := hacc.generate backend
    have hok : backend.translate source report = (.ok text, report.addAll []) := by
      simp only [Backend.translate, herr, htext, Bool.false_eq_true, if_false]
      rw [report_eq herr, Report.addAll_addAll]
      rfl
    refine ⟨.inr ⟨text, by rw [hok], ?_⟩, by simp, fun _ => ⟨⟨text, by rw [hok]⟩, hacc.renders⟩⟩
    rw [hok]
    simp [Report.addAll, hfresh]

/-- A script with strings, a vector that meets a number, a variable that hides another one, a loop
whose condition makes a value, and a function that returns one. -/
def sampleScript : String :=
  "func twice(s : string) : string \x7b return s + s \x7d\n" ++
  "var v = [1, 2] * 3\nvar s = \"a\"\n" ++
  "while (len(twice(s)) < 9) \x7b var t = s " ++
  "\x7b var s = t + \"b\" print(s) \x7d s = twice(t) \x7d\n"

set_option maxRecDepth 20000 in
/-- The sample is translated, and nothing is reported. -/
theorem translate_sampleScript :
    (∃ text, (Backend.counting.translate sampleScript {}).1 = .ok text) ∧
    (Backend.counting.translate sampleScript {}).2.diagnostics = [] := by
  have haccepted : (ofSource sampleScript {}).report.hasErrors = false := by decide +kernel
  obtain ⟨houtcome, -, hok⟩ := translate_rejected_or_ok .counting sampleScript {} rfl
  obtain ⟨⟨text, htext⟩, -⟩ := hok haccepted
  refine ⟨⟨text, htext⟩, ?_⟩
  rcases houtcome with ⟨n, hn, -⟩ | ⟨_, -, hnone⟩
  · rw [htext] at hn
    cases hn
  · exact hnone

end WichToC
