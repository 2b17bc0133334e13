/-!
# Sources and their tokens

A source is a text; its places are counted in bytes of the UTF-8 encoding. A
span is a run of bytes, given by its first byte and the byte after its last.

A token is a piece of a source: what kind of piece it is, where it stands and
the text itself. Blank runs are tokens as well, so that the tokens of a source
cover all of it. The first character of a token fixes its kind, and the token
extends as far as that kind allows. Names are runs of ASCII letters, blank
runs are made of spaces, tabs, carriage returns and line feeds, and a number
is a run of digits with at most one point after it and further digits behind
the point. Each of the four signs is a token of its own, and so is any other
character.

A point may end a number: `2.` is one token, so that the reader of numbers can
say what is wrong with it.
-/

namespace PolyAlgebra

/-! ## Places -/

/-- A run of bytes of a source, from the byte `start` up to, and not
including, the byte `stop`. -/
structure Span where
  start : Nat
  stop : Nat
  deriving DecidableEq, Repr, Inhabited

namespace Span

def point (place : Nat) : Span := ⟨place, place⟩

def through (first last : Span) : Span := ⟨first.start, last.stop⟩

def text (s : Span) : String := s!"{s.start}..{s.stop}"

end Span

def byteLength : List Char → Nat
  | [] => 0
  | c :: cs => c.utf8Size + byteLength cs

@[simp] theorem byteLength_nil : byteLength [] = 0 := rfl

@[simp] theorem byteLength_cons (c : Char) (cs : List Char) :
    byteLength (c :: cs) = c.utf8Size + byteLength cs := rfl

@[simp] theorem byteLength_append (cs ds : List Char) :
    byteLength (cs ++ ds) = byteLength cs + byteLength ds := by
  induction cs with
  | nil => simp
  | cons c cs ih => simp [ih, Nat.add_assoc]

/-! ## Tokens -/

inductive TokenKind where
  | whitespace
  | add
  | mul
  | openParen
  | closeParen
  | name
  | number
  /-- One character that no other kind begins with. -/
  | symbol
  deriving DecidableEq, Repr

namespace TokenKind

def label : TokenKind → String
  | whitespace => "Whitespace"
  | add => "Add"
  | mul => "Mul"
  | openParen => "OpenParen"
  | closeParen => "CloseParen"
  | name => "Name"
  | number => "Number"
  | symbol => "Symbol"

def isWhitespace : TokenKind → Bool
  | whitespace => true
  | _ => false

end TokenKind

structure Token where
  kind : TokenKind
  span : Span
  lexeme : String
  deriving DecidableEq, Repr

namespace Token

def isWhitespace (t : Token) : Bool := t.kind.isWhitespace

end Token

/-! ## Cutting a source into tokens -/

def isBlank (c : Char) : Bool := c == ' ' || c == '\t' || c == '\n' || c == '\r'

namespace TokenKind

def ofFirst (c : Char) : TokenKind :=
  if isBlank c then whitespace
  else if c == '+' then add
  else if c == '*' then mul
  else if c == '(' then openParen
  else if c == ')' then closeParen
  else if c.isAlpha then name
  else if c.isDigit then number
  else symbol

/-- What may follow the first digit of a number: digits, and once a point with
digits behind it. -/
def numberTail (cs : List Char) : List Char :=
  match cs.dropWhile Char.isDigit with
  | '.' :: rest =>
      cs.takeWhile Char.isDigit ++ '.' :: rest.takeWhile Char.isDigit
  | _ => cs.takeWhile Char.isDigit

def tail : TokenKind → List Char → List Char
  | whitespace, cs => cs.takeWhile isBlank
  | name, cs => cs.takeWhile Char.isAlpha
  | number, cs => numberTail cs
  | _, _ => []

end TokenKind

namespace Token

def scanFrom (start : Nat) : List Char → List Token
  | [] => []
  | c :: cs =>
      let kind := TokenKind.ofFirst c
      let lexeme := c :: kind.tail cs
      let stop := start + byteLength lexeme
      ⟨kind, ⟨start, stop⟩, String.ofList lexeme⟩ ::
        scanFrom stop (cs.drop (kind.tail cs).length)
  termination_by cs => cs.length
  decreasing_by simp only [List.length_drop, List.length_cons]; omega

def scan (source : String) : List Token := scanFrom 0 source.toList

end Token

end PolyAlgebra
