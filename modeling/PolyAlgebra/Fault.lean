import PolyAlgebra.Number
import PolyAlgebra.Token

/-!
# Faults

What can be wrong with a source or with a tree, where, and whether it ends the
attempt to read the source in any other way. For each cause there is the
message that heads its report, the text that stands at the place it points at,
and where there is something to say, a help and a note. Text for a terminal is
coloured by control sequences around it.

What an operation does on the way to its result is told by events, which
whoever runs it may record or ignore. Operations return their events; none of
them has an effect.
-/

namespace PolyAlgebra

/-! ## Events -/

inductive Level where
  | debug
  | trace
  deriving DecidableEq, Repr

namespace Level

def label : Level → String
  | debug => "DEBUG"
  | trace => "TRACE"

end Level

structure Event where
  level : Level
  message : String
  deriving DecidableEq, Repr

namespace Event

def text (e : Event) : String := e.level.label ++ ": " ++ e.message

def rejectedTrailing (spans : List Span) : Event :=
  ⟨.debug, "rejecting trailing input at [" ++
    ", ".intercalate (spans.map Span.text) ++ "]"⟩

end Event

/-! ## Causes and places -/

inductive NumberDefect where
  /-- The numeral ends with its point. -/
  | missingFraction
  /-- The nearest double is infinite. -/
  | overflow
  deriving DecidableEq, Repr

inductive Cause where
  /-- The source ends where more is due. -/
  | unexpectedEnd
  /-- Something stands where the source should end. -/
  | expectedEnd
  | unexpectedToken (expected : List TokenKind) (found : TokenKind)
  /-- A sign of arithmetic that the language does without. -/
  | unsupportedOperator (op : String)
  /-- A parenthesis has no partner: an opening one, or else a closing one. -/
  | unclosedParenthesis (opening : Bool)
  | emptyParenthesis
  | malformedNumber (defect : NumberDefect)
  | nestingTooDeep (limit : Nat)
  /-- A literal that no expression can hold. -/
  | invalidLiteral (reason : InvalidLeaf)
  deriving DecidableEq

/-- A cause with the places it concerns. -/
structure Fault where
  spans : List Span
  cause : Cause
  /-- A fatal fault is final: no other reading of the source is attempted. -/
  fatal : Bool
  deriving DecidableEq

namespace Fault

/-- A fault at one place, which leaves other readings open. -/
def located (span : Span) (cause : Cause) : Fault := ⟨[span], cause, false⟩

def final (span : Span) (cause : Cause) : Fault := ⟨[span], cause, true⟩

def asFatal (f : Fault) : Fault := { f with fatal := true }

end Fault

def unsupportedOperators : List String := ["-", "/", "^", "%"]

def Token.isUnsupportedOperator (t : Token) : Bool :=
  t.kind == .symbol && unsupportedOperators.contains t.lexeme

/-- The fault of finding a token where one of some kinds was due. A sign of
arithmetic that the language lacks is the likeliest mistake and has a cause of
its own. -/
def Fault.unexpected (t : Token) (expected : List TokenKind) : Fault :=
  if t.isUnsupportedOperator then
    .located t.span (.unsupportedOperator t.lexeme)
  else .located t.span (.unexpectedToken expected t.kind)

/-! ## Coloured text -/

/-- A colour of terminal text, by its parameters in a control sequence. -/
structure Colour where
  parameters : String
  deriving DecidableEq, Repr

namespace Colour

def red : Colour := ⟨"31"⟩

def frame : Colour := ⟨"38;5;246"⟩

def margin : Colour := ⟨"38;5;240"⟩

def plain : Colour := ⟨"38;5;249"⟩

def hint : Colour := ⟨"38;5;115"⟩

def expression : Colour := ⟨"38;2;52;235;152"⟩

def paint (c : Colour) (text : String) : String :=
  "\x1b[" ++ c.parameters ++ "m" ++ text ++ "\x1b[0m"

end Colour

/-! ## The wording of faults -/

def asExpression (text : String) : String := Colour.expression.paint text

namespace NumberDefect

def message : NumberDefect → String
  | missingFraction => "number is missing digits after its decimal point"
  | overflow => "number is too large"

def label : NumberDefect → String
  | missingFraction => "there are no digits after this decimal point"
  | overflow => "this number is too large"

def help : NumberDefect → String
  | missingFraction =>
      "write at least one digit after the point, like " ++ asExpression "`2.0`"
  | overflow => "numbers must fit in a 64-bit floating-point value"

end NumberDefect

namespace Cause

def message : Cause → String
  | unexpectedEnd => "unexpected end of input"
  | expectedEnd => "expected end of input"
  | unexpectedToken _ _ => "unexpected token"
  | unsupportedOperator op => s!"unsupported operator `{op}`"
  | unclosedParenthesis _ => "unclosed parenthesis"
  | emptyParenthesis => "missing expression inside parenthesis"
  | malformedNumber defect => defect.message
  | nestingTooDeep _ => "expression is nested too deeply"
  | invalidLiteral reason => "invalid literal: " ++ reason.message

def label : Cause → String
  | unexpectedEnd =>
      "you might need to add another " ++ asExpression "expression" ++ " here"
  | expectedEnd =>
      "I could not understand the remaining " ++
        asExpression "expression" ++ " here"
  | unexpectedToken expected _ =>
      "expected one of: " ++ ", ".intercalate (expected.map TokenKind.label)
  | unsupportedOperator _ => "this operator"
  | unclosedParenthesis _ => "this parenthesis is not closed"
  | emptyParenthesis => "add an expression here"
  | malformedNumber defect => defect.label
  | nestingTooDeep _ => "this exceeds the nesting limit"
  | invalidLiteral reason => reason.message

/-- The texts for the places of a fault, in order. Every cause has one. -/
def labels (c : Cause) : List String := [c.label]

def help : Cause → Option String
  | unexpectedEnd => none
  | expectedEnd => some "separate values with an operator, such as `+` or `*`"
  | unexpectedToken _ found => some ("found " ++ found.label)
  | unsupportedOperator _ =>
      some ("only " ++ asExpression "`+`" ++ " and " ++ asExpression "`*`" ++
        " are supported")
  | unclosedParenthesis true =>
      some "add a closing parenthesis `)` somewhere after this"
  | unclosedParenthesis false =>
      some "add an opening parenthesis `(` somewhere before this"
  | emptyParenthesis => none
  | malformedNumber defect => some defect.help
  | nestingTooDeep limit =>
      some s!"at most {limit} levels of parentheses and operators are allowed"
  | invalidLiteral _ =>
      some ("only nonnegative numbers and " ++
        asExpression "names made of letters" ++ " are allowed")

def note : Cause → Option String
  | unsupportedOperator _ => some "numbers are always nonnegative"
  | _ => none

end Cause

end PolyAlgebra
