import PolyAlgebra.Directive.Arguments

/-!
# Attributes

An attribute has a path and perhaps arguments or a value. The attribute
`error` is the directive: it gives the expressions for a report. All other
attributes are only looked at as far as they decide where the declaration
begins.

What is left over between the brackets of an attribute is a problem of the
declaration, but one that all others go before. So it is not an error here:
the functions give it with what they have read.
-/

namespace PolyAlgebra.Directive

/-! ## Values -/

def openingKeywords : List String :=
  ["async", "become", "break", "const", "continue", "for", "if", "let", "loop",
    "match", "move", "return", "static", "try", "unsafe", "while", "yield"]

/-- The pieces behind an operand if they cannot belong to its expression, none
otherwise. -/
def behindOperand : List Piece → List Piece
  | [] => []
  | .word "as" :: _ => []
  | .group b inner :: rest => if b = .curly then .group b inner :: rest else []
  | .sign '=' true :: .sign '>' joined :: rest =>
      .sign '=' true :: .sign '>' joined :: rest
  | .sign c joined :: rest =>
      if [',', ';', '#', '@', '$', '~', '\''].contains c then
        .sign c joined :: rest
      else []
  | p :: rest => p :: rest

/-- Reads the value of an attribute and gives what is left over. A value is
any expression, and is not taken apart: it is refused only for how it begins,
and ends where two operands meet. -/
def value : List Piece → Except Problem (List Piece)
  | [] => .error (.expected .expression true)
  | .sign '#' _ :: .group .square _ :: _ => .error .nestedAttribute
  | .sign '#' _ :: rest => .error (.expected .brackets rest.isEmpty)
  | .sign c joined :: rest =>
      if ['-', '!', '*'].contains c then value rest
      else if ['&', '|', '<', '\''].contains c ||
        joined && ['.', ':'].contains c then .ok []
      else .error (.expected .expression false)
  | .word s :: rest =>
      if openingKeywords.contains s && !rest.isEmpty then .ok []
      else if keywords.contains s && !expressionKeywords.contains s then
        match dueBehind? s with
        | some due => .error (.expected due true)
        | none => .error (.expected .expression false)
      else
        match rest with
        | .group _ _ :: _ => .ok []
        | rest => .ok (behindOperand rest)
  | _ :: rest => .ok (behindOperand rest)

/-! ## Paths -/

def pathKeywords : List String := ["super", "self", "Self", "crate"]

/-- Reads the words of a path, and gives what stands behind them. A keyword is
named only where the path begins with it. -/
def segments (due : Due) :
    List Piece → Except Problem (List String × List Piece)
  | .word s :: rest =>
      if keywords.contains s && !pathKeywords.contains s then
        .error (if due = .identifier then .keyword s else .expected due false)
      else
        match rest with
        | .sign ':' true :: .sign ':' _ :: rest =>
            (segments .segment rest).map fun (words, rest) => (s :: words, rest)
        | rest => .ok ([s], rest)
  | pieces => .error (.expected due pieces.isEmpty)

/-- A path: whether it begins with a double colon, and its words. -/
structure Path where
  rooted : Bool
  words : List String
  deriving DecidableEq, Repr

def Path.read : List Piece → Except Problem (Path × List Piece)
  | .sign ':' true :: .sign ':' _ :: rest =>
      (segments .identifier rest).map fun (words, rest) => (⟨true, words⟩, rest)
  | pieces => (segments .identifier pieces).map fun (words, rest) =>
      (⟨false, words⟩, rest)

/-- The kind of brackets if something is left over between them. -/
def surplusIn (b : Brackets) (leftOver : List Piece) : Option Brackets :=
  if leftOver.isEmpty then none else some b

/-! ## Attributes -/

inductive Content where
  | bare
  | arguments (pieces : List Piece)
  | value

structure Attribute where
  path : Path
  content : Content

namespace Attribute

def readPath : List Piece → Except Problem (Path × List Piece)
  | .word "unsafe" :: rest => .ok (⟨false, ["unsafe"]⟩, rest)
  | pieces => Path.read pieces

/-- Reads the attribute that stands between brackets, and gives what is left
over. A sign that only begins with `=` gives no value. -/
def ofPieces (pieces : List Piece) :
    Except Problem (Attribute × List Piece) := do
  let (path, rest) ← readPath pieces
  match rest with
  | .group _ inner :: rest => return (⟨path, .arguments inner⟩, rest)
  | .sign '=' true :: .sign '=' _ :: _ => return (⟨path, .bare⟩, rest)
  | .sign '=' true :: .sign '>' _ :: _ => return (⟨path, .bare⟩, rest)
  | .sign '=' _ :: rest =>
      let rest ← value rest
      return (⟨path, .value⟩, rest)
  | rest => return (⟨path, .bare⟩, rest)

/-- Reads the attributes that pieces begin with. Gives them, what kind of
brackets has something left over, and what stands behind the attributes. -/
def readAll : List Piece →
    Except Problem (List Attribute × Option Brackets × List Piece)
  | .sign '#' _ :: .group .square inner :: rest => do
      let (a, leftOver) ← ofPieces inner
      let (attributes, surplus, rest) ← readAll rest
      return (a :: attributes, (surplusIn .square leftOver).or surplus, rest)
  | .sign '#' _ :: rest => .error (.expected .brackets rest.isEmpty)
  | pieces => .ok ([], none, pieces)

/-- Only the path `error` makes an attribute a directive. -/
def isDirective (a : Attribute) : Bool := a.path == ⟨false, ["error"]⟩

def arguments {E : Type} (reader : ExpressionReader E) (a : Attribute) :
    Except Problem (Arguments E) :=
  match a.content with
  | .bare => .error .noArguments
  | .value => .error .assigned
  | .arguments pieces => Arguments.ofPieces reader pieces

end Attribute

/-! ## Directives -/

variable {E : Type}

/-- The arguments of the directive among attributes, if there is one.
Attributes are looked at in order, and a second directive is refused whatever
its arguments are. -/
def directiveFrom (reader : ExpressionReader E) (found : Option (Arguments E)) :
    List Attribute → Except Problem (Option (Arguments E))
  | [] => .ok found
  | a :: rest =>
      if a.isDirective then
        if found.isSome then .error .repeatedDirective
        else
          match a.arguments reader with
          | .error problem => .error problem
          | .ok arguments => directiveFrom reader (some arguments) rest
      else directiveFrom reader found rest

def directive (reader : ExpressionReader E) (attributes : List Attribute) :
    Except Problem (Arguments E) :=
  (directiveFrom reader none attributes).map fun found => found.getD .empty

end PolyAlgebra.Directive
