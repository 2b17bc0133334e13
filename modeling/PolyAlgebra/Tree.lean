import PolyAlgebra.Decimal
import PolyAlgebra.Token

/-!
# Syntax trees

A syntax tree keeps what the writer of a source wrote: the literals, the
operators and every pair of parentheses, each with its place. Nothing
restricts the values and names in a tree that is built by hand; reading a
source yields finite values and words of letters only.

The height of a tree is the largest number of parentheses and operators around
any literal. It is found with an explicit stack of pending subtrees, each with
the number of parentheses and operators around it, so that no recursion is as
deep as the tree.
-/

namespace PolyAlgebra

/-! ## Literals -/

structure NumberLiteral where
  value : Float
  span : Span
  deriving DecidableEq, BEq

structure SymbolLiteral where
  name : String
  span : Span
  deriving DecidableEq, BEq

inductive Literal where
  | number (literal : NumberLiteral)
  | symbol (literal : SymbolLiteral)
  deriving DecidableEq, BEq

namespace NumberLiteral

def text (l : NumberLiteral) : String := Decimal.plain l.value

end NumberLiteral

namespace Literal

def span : Literal → Span
  | number l => l.span
  | symbol l => l.span

def text : Literal → String
  | number l => l.text
  | symbol l => l.name

end Literal

/-! ## Operators -/

inductive OperatorKind where
  | add
  | mul
  deriving DecidableEq, Repr

namespace OperatorKind

def sign : OperatorKind → String
  | add => "+"
  | mul => "*"

end OperatorKind

structure Operator where
  kind : OperatorKind
  span : Span
  deriving DecidableEq, Repr

/-! ## Trees -/

inductive Tree where
  | literal (l : Literal)
  /-- An expression in parentheses; the span includes them. -/
  | group (inner : Tree) (span : Span)
  | binary (lhs : Tree) (op : Operator) (rhs : Tree) (span : Span)
  deriving DecidableEq, BEq

structure Group where
  inner : Tree
  span : Span
  deriving DecidableEq, BEq

/-- What an operator can be applied to without further parentheses. -/
inductive Primary where
  | literal (l : Literal)
  | group (g : Group)
  deriving DecidableEq, BEq

namespace Tree

def span : Tree → Span
  | literal l => l.span
  | group _ s => s
  | binary _ _ _ s => s

/-- The tree inside all parentheses that enclose it. -/
def innermost : Tree → Tree
  | group inner _ => inner.innermost
  | t => t

/-- The text of a tree: operators stand between blanks, and parentheses where
the tree has them. -/
def text : Tree → String
  | literal l => l.text
  | group inner _ => "(" ++ inner.text ++ ")"
  | binary lhs op rhs _ => lhs.text ++ " " ++ op.kind.sign ++ " " ++ rhs.text

end Tree

namespace Group

def toTree (g : Group) : Tree := .group g.inner g.span

def text (g : Group) : String := g.toTree.text

end Group

namespace Primary

def toTree : Primary → Tree
  | literal l => .literal l
  | group g => g.toTree

def text (p : Primary) : String := p.toTree.text

end Primary

/-! ## Heights -/

namespace Tree

def size : Tree → Nat
  | literal _ => 1
  | group inner _ => inner.size + 1
  | binary lhs _ rhs _ => lhs.size + rhs.size + 1

abbrev Pending := List (Tree × Nat)

def Pending.size : Pending → Nat
  | [] => 0
  | (t, _) :: rest => t.size + Pending.size rest

def deepest (pending : Pending) (found : Nat) : Nat :=
  match pending with
  | [] => found
  | (literal _, depth) :: rest => deepest rest (max found depth)
  | (group inner _, depth) :: rest =>
      deepest ((inner, depth + 1) :: rest) (max found depth)
  | (binary lhs _ rhs _, depth) :: rest =>
      deepest ((rhs, depth + 1) :: (lhs, depth + 1) :: rest) (max found depth)
  termination_by Pending.size pending
  decreasing_by all_goals (simp only [Pending.size, size]; omega)

/-- The largest number of parentheses and operators around any literal. -/
def height (t : Tree) : Nat := deepest [(t, 0)] 0

end Tree

end PolyAlgebra
