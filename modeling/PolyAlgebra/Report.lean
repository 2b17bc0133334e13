import PolyAlgebra.Fault

/-!
# Reports

A report shows a fault in its source: a message, the source line with the
places that the fault concerns, each with its text, and a help and a note. It
is laid out here for a source that is one line of printable ASCII, where
bytes, characters and columns are the same.

A report that points at something needs a line to point into, and an empty
source has none: laying it out fails.
-/

namespace PolyAlgebra

structure Report where
  message : String
  labels : List (Span × String)
  help : Option String
  note : Option String
  deriving DecidableEq

/-- The report of a fault pairs its places with the texts of its cause. -/
def Fault.report (f : Fault) : Report where
  message := f.cause.message
  labels := f.spans.zip f.cause.labels
  help := f.cause.help
  note := f.cause.note

inductive LayoutFailure where
  /-- The report points into a source that has no line. -/
  | emptySource
  | unprintable
  deriving DecidableEq, Repr

def isPrintableLine (source : String) : Bool :=
  source.toList.all fun c => ' ' ≤ c && c ≤ '~'

namespace Report

def header (r : Report) : String :=
  Colour.red.paint "Error:" ++ " " ++ r.message

def location (name : String) (s : Span) : String :=
  "   " ++ Colour.frame.paint "╭" ++ Colour.frame.paint "─" ++
    Colour.frame.paint "[" ++ name ++ s!":1:{s.start + 1}" ++
    Colour.frame.paint "]"

/-- The source text, without blanks at its end; what lies in the span has the
expression colour. -/
def sourceLine (source : String) (s : Span) : String :=
  let shown := (source.toList.reverse.dropWhile (· == ' ')).reverse
  let cell := fun (p : Char × Nat) =>
    let colour :=
      if s.start ≤ p.2 ∧ p.2 < s.stop then Colour.expression else Colour.plain
    colour.paint p.1.toString
  " " ++ Colour.frame.paint "1 │" ++ " " ++ String.join (shown.zipIdx.map cell)

def margin : String := " " ++ Colour.margin.paint "  │" ++ " "

def middle (s : Span) : Nat := (s.start + s.stop) / 2

def underline (s : Span) : String :=
  let cell := fun column =>
    if column = middle s then
      Colour.expression.paint (if s.start < s.stop then "┬" else "│")
    else if s.start ≤ column ∧ column < s.stop then Colour.expression.paint "─"
    else " "
  margin ++ String.join ((List.range (s.stop + 2)).map cell)

def arrow (s : Span) (label : String) : String :=
  let cell := fun column =>
    if column < middle s then " "
    else if column = middle s then Colour.expression.paint "╰"
    else Colour.expression.paint "─"
  margin ++ String.join ((List.range (s.stop + 2)).map cell) ++ " " ++ label

def hintLines (title : String) : Option String → List String
  | none => []
  | some text => [margin, margin ++ Colour.hint.paint title ++ ": " ++ text]

/-- The lines of a report over a named source, the last one empty. The text of
the first label is shown; a report without labels has its header only. -/
def lines (r : Report) (name source : String) :
    Except LayoutFailure (List String) :=
  if isPrintableLine source then
    match r.labels with
    | [] => .ok [r.header, ""]
    | (span, label) :: _ =>
        if source.isEmpty then .error .emptySource
        else .ok <|
          [r.header, location name span, "   " ++ Colour.frame.paint "│",
            sourceLine source span, underline span, arrow span label] ++
          hintLines "Help" r.help ++ hintLines "Note" r.note ++
          [Colour.frame.paint "───╯", ""]
  else .error .unprintable

/-- The text of a report over a named source. The texts of the report and the
name may hold line breaks, which are written as they are. -/
def layout (r : Report) (name source : String) : Except LayoutFailure String :=
  (r.lines name source).map "\n".intercalate

end Report

end PolyAlgebra
