import Mathlib
import PolyAlgebra.Report
import PolyAlgebra.Proofs.Separation

/-!
# Reports on sources that were refused

A report points into its source, and needs a line there to point into. Every
fault of a source has exactly one place, so that its report always has a
label. Whoever lays out reports with at least one label over any line but an
empty one can therefore lay them out over every refused source of printable
characters but one. The empty source is always refused, for ending where an
expression is due, and has no line.
-/

namespace PolyAlgebra

namespace Report

/-- A way to lay out reports over named sources that, over printable characters
or none, fails exactly where a report points into nothing. -/
def NeedsLine {ε : Type} (layout : Report → String → String → Except ε String) :
    Prop :=
  ∀ r name source, isPrintableLine source = true →
    ((∃ text, layout r name source = .ok text) ↔ r.labels = [] ∨ source ≠ "")

theorem exists_layout {r : Report} {name source : String}
    (printable : isPrintableLine source = true) :
    (∃ text, r.layout name source = .ok text) ↔
      r.labels = [] ∨ source ≠ "" := by
  rw [layout, lines, if_pos printable]
  cases hlabels : r.labels with
  | nil => exact iff_of_true ⟨_, rfl⟩ (Or.inl rfl)
  | cons label rest =>
      obtain ⟨span, text⟩ := label
      by_cases hempty : source = ""
      · subst hempty
        refine iff_of_false ?_ (by simp)
        rintro ⟨text, h⟩
        cases h
      · have hline : source.isEmpty = false := by simpa using hempty
        simp only [hline]
        exact iff_of_true ⟨_, rfl⟩ (Or.inr hempty)

theorem needsLine_layout : NeedsLine layout :=
  fun _ _ _ printable => exists_layout printable

end Report

namespace Expr

variable {source : String} {limit : Option Nat} {e : ParseError}

theorem exists_label_of_parse (h : parse source limit = .error e) :
    ∃ s, e.fault.report.labels = [(s, e.fault.cause.label)] := by
  obtain ⟨f, hf, rfl⟩ := Tree.exists_fault_of_parse_expr h
  obtain ⟨s, hs, -⟩ := (Tree.points_of_parse hf).start_cases
  refine ⟨s, ?_⟩
  rw [ParseError.fault_ofFault, Fault.report, hs]
  rfl

/-- Where nothing stands an expression is due, whatever the limit. -/
theorem parse_empty (limit : Option Nat) :
    parse "" limit =
      .error (.grammar (.located (.point 0) .unexpectedEnd)) := by
  have hwords : Token.words (Token.scan "") = [] := by cbv
  have htree : Tree.parse "" limit =
      .error (.located (.point 0) .unexpectedEnd) := by
    rw [Tree.parse_eq_run, hwords, Parser.stop_ofSource]
    rfl
  exact parse_of_fault htree

/-- **Reports.** If a source of printable ASCII characters is refused, under
any limit, the report of the error has exactly one label, and whoever only
needs a line to point into can lay it out, for every name of the source,
exactly if the source is not empty. The empty source is refused under every
limit, and its report cannot be laid out, because it is empty. -/
theorem report_of_parse (printable : isPrintableLine source = true) :
    (∀ limit e, parse source limit = .error e →
      (∃ s, e.fault.report.labels = [(s, e.fault.cause.label)]) ∧
      ∀ (ε : Type) (layout : Report → String → String → Except ε String),
        Report.NeedsLine layout → ∀ name,
          (∃ text, layout e.fault.report name source = .ok text) ↔
            source ≠ "") ∧
    (source = "" → ∀ limit, ∃ e, parse source limit = .error e ∧
      (∀ (ε : Type) (layout : Report → String → String → Except ε String),
        Report.NeedsLine layout → ∀ name,
          ¬∃ text, layout e.fault.report name source = .ok text) ∧
      ∀ name, e.fault.report.layout name source = .error .emptySource) ∧
    Report.NeedsLine Report.layout := by
  have hrefused : ∀ limit e, parse source limit = .error e →
      (∃ s, e.fault.report.labels = [(s, e.fault.cause.label)]) ∧
      ∀ (ε : Type) (layout : Report → String → String → Except ε String),
        Report.NeedsLine layout → ∀ name,
          (∃ text, layout e.fault.report name source = .ok text) ↔
            source ≠ "" := by
    intro limit e h
    obtain ⟨s, hs⟩ := exists_label_of_parse h
    refine ⟨⟨s, hs⟩, fun ε layout hlayout name => ?_⟩
    rw [hlayout _ name source printable, hs]
    simp
  refine ⟨hrefused, ?_, Report.needsLine_layout⟩
  rintro rfl limit
  have h := parse_empty limit
  refine ⟨_, h, fun ε layout hlayout name => ?_, fun name => rfl⟩
  rw [(hrefused limit _ h).2 ε layout hlayout name]
  simp

/-- A product without its second factor, read under a limit. -/
theorem report_of_parse_incomplete :
    isPrintableLine "(x * " = true ∧ ∃ e, parse "(x * " (some 3) = .error e ∧
      ∃ text, e.fault.report.layout "input" "(x * " = .ok text := by
  have printable : isPrintableLine "(x * " = true := by decide
  have h : parse "(x * " (some 3) =
      .error (.grammar ⟨[.point 5], .unexpectedEnd, true⟩) := by cbv
  obtain ⟨hrefused, -, hlayout⟩ := report_of_parse printable
  have hexists := (hrefused _ _ h).2 _ _ hlayout "input"
  exact ⟨printable, _, h, hexists.mpr (by decide)⟩

theorem report_of_parse_empty :
    ∃ e, parse "" none = .error e ∧
      ¬∃ text, e.fault.report.layout "input" "" = .ok text := by
  refine ⟨_, parse_empty none, ?_⟩
  rintro ⟨text, h⟩
  cases h

end Expr

end PolyAlgebra
