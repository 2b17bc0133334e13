import PolyAlgebra.Environment
import PolyAlgebra.Fault

/-!
# Expressions

An expression is a tree of sums and products over numbers and variables. It
has no places and no parentheses: the tree alone says what is grouped with
what, and two expressions are equal only if they have the same shape and the
same leaves. `x + y` is not `y + x`.

The derivative of an expression is built by the rules for constants,
variables, sums and products, and nothing is simplified afterwards.
Simplifying an expression in an environment puts numbers in the place of the
variables that are bound. If no variable is left, the expression is evaluated
to one number; otherwise it keeps its shape.

A walk over an expression visits every node after its operands, the left one
first. It keeps a stack of nodes and the node visited last: a sum or product
on top of the stack is visited once its right operand is the node visited
last, and otherwise its operands are put on the stack. Nodes are told apart by
their positions, so that equal operands in different places are different
nodes.
-/

namespace PolyAlgebra

inductive Expr where
  | num (n : Number)
  | var (v : Variable)
  | sum (left right : Expr)
  | prod (left right : Expr)
  deriving BEq

namespace Expr

def ofFloat (x : Float) : Except InvalidLeaf Expr := (Number.ofFloat x).map num

def ofName (s : String) : Except InvalidLeaf Expr := (Variable.ofName s).map var

instance : Add Expr := ⟨sum⟩

instance : Mul Expr := ⟨prod⟩

def asNumber? : Expr → Option Number
  | num n => some n
  | _ => none

def asVariable? : Expr → Option Variable
  | var v => some v
  | _ => none

def operands? : Expr → Option (Expr × Expr)
  | sum l r | prod l r => some (l, r)
  | _ => none

/-- The canonical text of an expression has parentheses around every sum and
product. -/
def text : Expr → String
  | num n => n.text
  | var v => v.name
  | sum l r => "(" ++ l.text ++ " + " ++ r.text ++ ")"
  | prod l r => "(" ++ l.text ++ " * " ++ r.text ++ ")"

def combineHash (tag left right : UInt64) : UInt64 :=
  (tag * 31 + left) * 31 + right

def hashCode : Expr → UInt64
  | num n => n.hashCode
  | var v => v.hashCode
  | sum l r => combineHash 1 l.hashCode r.hashCode
  | prod l r => combineHash 2 l.hashCode r.hashCode

def size : Expr → Nat
  | num _ | var _ => 1
  | sum l r | prod l r => l.size + r.size + 1

/-! ## Derivatives -/

def derivative : Expr → Variable → Expr
  | num _, _ => num .zero
  | var v, x => if v = x then num .one else num .zero
  | sum f g, x => sum (f.derivative x) (g.derivative x)
  | prod f g, x => sum (prod (f.derivative x) g) (prod f (g.derivative x))

end Expr

structure InvalidDirection where
  name : String
  deriving DecidableEq, Repr

def InvalidDirection.message (d : InvalidDirection) : String :=
  s!"cannot differentiate with respect to `{d.name}`: " ++
    "it is not a valid variable name"

namespace Expr

/-- The derivative with respect to the variable with a name. The name need not
occur. -/
def derivativeBy (e : Expr) (name : String) : Except InvalidDirection Expr :=
  match Variable.ofName name with
  | .ok x => .ok (e.derivative x)
  | .error _ => .error ⟨name⟩

def derivativeEvents (e : Expr) (name : String) : List Event :=
  match e.derivativeBy name with
  | .ok result => [⟨.trace, s!"d/d{name} {e.text} = {result.text}"⟩]
  | .error _ => []

/-! ## Substitution and evaluation -/

def substitute (env : Environment) : Expr → Expr
  | num n => num n
  | var v =>
      match env.get? v with
      | some n => num n
      | none => var v
  | sum l r => sum (l.substitute env) (r.substitute env)
  | prod l r => prod (l.substitute env) (r.substitute env)

def evaluate : Expr → Option Float
  | num n => some n.value
  | var _ => none
  | sum l r =>
      match l.evaluate, r.evaluate with
      | some a, some b => some (a + b)
      | _, _ => none
  | prod l r =>
      match l.evaluate, r.evaluate with
      | some a, some b => some (a * b)
      | _, _ => none

/-- Substitutes, and evaluates if no variable is left. The value may be too
large for a number. -/
def simplify (e : Expr) (env : Environment) : Except InvalidLeaf Expr :=
  match (e.substitute env).evaluate with
  | some value => ofFloat value
  | none => .ok (e.substitute env)

def substituteEvents (env : Environment) : Expr → List Event
  | num _ => []
  | var v =>
      match env.get? v with
      | some n => [⟨.trace, s!"substituting {v.name} = {n.text}"⟩]
      | none => []
  | sum l r | prod l r => l.substituteEvents env ++ r.substituteEvents env

def simplifyEvents (e : Expr) (env : Environment) : List Event :=
  e.substituteEvents env ++
    match (e.substitute env).evaluate with
    | some value =>
        [⟨.trace,
          s!"evaluated {(e.substitute env).text} to {Decimal.plain value}"⟩]
    | none => []

/-! ## Post-order -/

inductive Side where
  | left
  | right
  deriving DecidableEq, Repr

/-- The way from a node up to the root: the side on which the node hangs, then
that of its parent, and so on. -/
abbrev Position := List Side

abbrev Node := Position × Expr

/-- A walk over an expression: the nodes to visit, the next one first, and the
position of the one visited last. -/
structure Walk where
  stack : List Node
  last : Option Position

namespace Walk

def ofExpr (e : Expr) : Walk := ⟨[([], e)], none⟩

/-- Goes down from a node on top of a stack to the node that is visited
next. -/
def descend (e : Expr) (position : Position) (rest : List Node)
    (last : Option Position) :
    Node × Walk :=
  match e with
  | num _ | var _ => ((position, e), ⟨rest, some position⟩)
  | sum l r | prod l r =>
      if last = some (.right :: position) then
        ((position, e), ⟨rest, some position⟩)
      else descend l (.left :: position)
        ((.right :: position, r) :: (position, e) :: rest) last

def next? (w : Walk) : Option (Node × Walk) :=
  match w.stack with
  | [] => none
  | (position, e) :: rest => some (descend e position rest w.last)

/-- The first nodes that a walk visits, at most as many as asked for. -/
def take : Nat → Walk → List Node
  | 0, _ => []
  | n + 1, w =>
      match w.next? with
      | none => []
      | some (node, w) => node :: take n w

end Walk

/-- The nodes of an expression in post-order, with their positions. A walk
takes as many steps as the expression has nodes. -/
def nodes (e : Expr) : List Node := (Walk.ofExpr e).take e.size

def postOrder (e : Expr) : List Expr := e.nodes.map Prod.snd

def nodeCount (e : Expr) : Nat := e.postOrder.length

def isConstant (e : Expr) : Bool :=
  e.postOrder.all fun e => e.asVariable?.isNone

/-- Adds a name to a list that is in order and has no name twice. -/
def insertName (name : String) : List String → List String
  | [] => [name]
  | other :: rest =>
      if name < other then name :: other :: rest
      else if name = other then other :: rest
      else other :: insertName name rest

def variableNames (e : Expr) : List String :=
  (e.postOrder.filterMap fun e => e.asVariable?.map Variable.name).foldr
    insertName []

end Expr

end PolyAlgebra
