import PolyAlgebra.Expr
import PolyAlgebra.Parser.Expression

/-!
# Expressions from sources

A syntax tree becomes an expression when its parentheses are dropped and its
literals are checked. The literals are checked from left to right, and the
first that no expression can hold is the fault. A source becomes an expression
by way of its syntax tree.
-/

namespace PolyAlgebra

namespace Literal

def toLeaf : Literal → Except InvalidLeaf Expr
  | number l => Expr.ofFloat l.value
  | symbol l => Expr.ofName l.name

def toExpr (l : Literal) : Except Fault Expr :=
  l.toLeaf.mapError fun reason => .located l.span (.invalidLiteral reason)

end Literal

def OperatorKind.apply : OperatorKind → Expr → Expr → Expr
  | .add => Expr.sum
  | .mul => Expr.prod

namespace Tree

theorem size_innermost_le (t : Tree) : t.innermost.size ≤ t.size := by
  induction t with
  | literal l => exact Nat.le_refl _
  | group inner s ih => exact Nat.le_succ_of_le ih
  | binary lhs op rhs s => exact Nat.le_refl _

/-- The expression that a syntax tree stands for. All parentheses around a
tree are dropped at once, so what is left inside them is no group. -/
def toExpr (t : Tree) : Except Fault Expr :=
  match _ : t.innermost with
  | literal l => l.toExpr
  | group inner _ => inner.toExpr
  | binary lhs op rhs _ => do
      let left ← lhs.toExpr
      let right ← rhs.toExpr
      return op.kind.apply left right
  termination_by t.size
  decreasing_by
    all_goals
      have hle := t.size_innermost_le
      simp only [*, size] at hle
      omega

theorem toExpr_literal (l : Literal) : (literal l).toExpr = l.toExpr := by
  rw [toExpr]
  rfl

theorem toExpr_group (inner : Tree) (s : Span) :
    (group inner s).toExpr = inner.toExpr := by
  rw [toExpr, toExpr]
  rfl

theorem toExpr_binary (lhs : Tree) (op : Operator) (rhs : Tree) (s : Span) :
    (binary lhs op rhs s).toExpr =
      lhs.toExpr.bind fun left => rhs.toExpr.bind fun right =>
        .ok (op.kind.apply left right) := by
  rw [toExpr]
  rfl

/-- An operation stands for an expression exactly if both operands do. -/
theorem toExpr_binary_eq_ok {lhs rhs : Tree} {op : Operator} {s : Span}
    {e : Expr} :
    (binary lhs op rhs s).toExpr = .ok e ↔
      ∃ l r, lhs.toExpr = .ok l ∧ rhs.toExpr = .ok r ∧
        op.kind.apply l r = e := by
  rw [toExpr_binary]
  cases lhs.toExpr <;> cases rhs.toExpr <;> simp [Except.bind]

end Tree

inductive ParseError where
  /-- The source is malformed or incomplete, or goes on behind the
  expression. -/
  | grammar (fault : Fault)
  /-- A number in the source has no value. -/
  | number (fault : Fault)
  deriving DecidableEq

namespace ParseError

def concernsNumber : Cause → Bool
  | .malformedNumber _ => true
  | .invalidLiteral (.value _) => true
  | _ => false

def ofFault (f : Fault) : ParseError :=
  if concernsNumber f.cause then number f else grammar f

def fault : ParseError → Fault
  | grammar f | number f => f

theorem fault_ofFault (f : Fault) : (ofFault f).fault = f := by
  unfold ofFault
  split <;> rfl

def category : ParseError → String
  | grammar _ => "syntax error"
  | number _ => "malformed number"

/-- The error in one line: its sort, its first place and its message. -/
def message (e : ParseError) : String :=
  let place := (e.fault.spans.head?.map fun s => " at " ++ s.text).getD ""
  e.category ++ place ++ ": " ++ e.fault.cause.message

end ParseError

namespace Expr

/-- Reads a source as an expression. Its syntax tree must not be higher than
the limit. -/
def parse (source : String) (limit : Option Nat) : Except ParseError Expr :=
  ((Tree.parse source limit).bind Tree.toExpr).mapError ParseError.ofFault

def parseEvents (source : String) (limit : Option Nat) : List Event :=
  Tree.parseEvents source limit ++
    match parse source limit with
    | .ok e => [⟨.debug, s!"parsed `{source}` into {e.nodeCount} node(s)"⟩]
    | .error e => [⟨.debug, s!"failed to parse `{source}`: {e.message}"⟩]

end Expr

end PolyAlgebra
