import PolyAlgebra.Expr
import PolyAlgebra.Tree

/-!
# Forms

Values are exchanged as forms: null, truth values, integers, doubles, texts,
lists, and records of named fields. A choice between variants is a record
whose only field is named for the variant. A record with fixed fields may also
be given as the list of its values in the order of the fields. Reading a form
fails for its shape, or for a leaf that no expression can hold.

A number is its value, a variable its name. An expression is a choice whose
variant holds the leaf, or the list of the two operands. An environment is a
record with one field, in which each variable is a field that holds its
number. Whatever is read is checked as it is when it is built: leaves that no
expression can hold are refused, and of several the first in reading order is
the reason.

A place is a record of its two ends. A literal, a primary expression and a
tree are choices, and what a variant holds is a record with the fields of that
variant. Values and names in a tree are not checked.
-/

namespace PolyAlgebra

inductive Form where
  | null
  | bool (b : Bool)
  | int (i : Int)
  | float (x : Float)
  | text (s : String)
  | list (items : List Form)
  | record (fields : List (String × Form))
  deriving Inhabited

inductive FormError where
  | shape
  /-- The shape is right so far, and a leaf in it is not valid. -/
  | leaf (reason : InvalidLeaf)
  deriving DecidableEq

namespace Form

abbrev Part (f : Form) : Type := { g : Form // sizeOf g < sizeOf f }

def variant? (f : Form) : Except FormError (String × f.Part) :=
  match f with
  | record [(tag, g)] => .ok (tag, ⟨g, by simp; omega⟩)
  | _ => .error .shape

def items? (f : Form) : Except FormError (List f.Part) :=
  match f with
  | list items => .ok <| items.attach.map fun g => ⟨g.1, by
      have := List.sizeOf_lt_of_mem g.2
      simp only [list.sizeOf_spec]
      omega⟩
  | _ => .error .shape

def fields? (f : Form) : Except FormError (List (String × f.Part)) :=
  match f with
  | record fields => .ok <| fields.attach.map fun g => (g.1.1, ⟨g.1.2, by
      have := List.sizeOf_lt_of_mem g.2
      obtain ⟨⟨name, value⟩, _⟩ := g
      simp only [record.sizeOf_spec, Prod.mk.sizeOf_spec] at this ⊢
      omega⟩)
  | _ => .error .shape

/-- The field of a record with a name. A record without it, or with more than
one, is refused. -/
def field? {f : Form} (fields : List (String × f.Part)) (name : String) :
    Except FormError f.Part :=
  match fields.filter fun g => g.1 == name with
  | [g] => .ok g.2
  | _ => .error .shape

/-- The values of the fields of a record, given by name or in order. -/
def slots? (names : List String) (f : Form) : Except FormError (List f.Part) :=
  match f.items? with
  | .ok items =>
      if items.length = names.length then .ok items else .error .shape
  | .error _ => do
      let fields ← f.fields?
      names.mapM (field? fields)

/-- The values that are given for the only field of a record, by name or in
order. There should be one, but the first can be read before another one is
met. -/
def values? (name : String) (f : Form) : Except FormError (List f.Part) :=
  match f.items? with
  | .ok items => .ok items
  | .error _ => do
      let fields ← f.fields?
      return (fields.filter fun g => g.1 == name).map Prod.snd

def toText : Form → Except FormError String
  | text s => .ok s
  | _ => .error .shape

def toFloat : Form → Except FormError Float
  | float x => .ok x
  | int i =>
      .ok (if i < 0 then -(Binary64.nearest i.natAbs 1)
        else Binary64.nearest i.natAbs 1)
  | _ => .error .shape

/-- Reads a natural number below `2 ^ 64`. -/
def toNat : Form → Except FormError Nat
  | int i =>
      if 0 ≤ i ∧ i.toNat < UInt64.size then .ok i.toNat else .error .shape
  | _ => .error .shape

end Form

/-! ## Expressions and environments -/

namespace Number

def toForm (n : Number) : Form := .float n.value

def ofForm (f : Form) : Except FormError Number := do
  let x ← f.toFloat
  (Number.ofFloat x).mapError .leaf

end Number

namespace Variable

def toForm (v : Variable) : Form := .text v.name

def ofForm (f : Form) : Except FormError Variable := do
  let s ← f.toText
  (Variable.ofName s).mapError .leaf

end Variable

namespace Expr

def toForm : Expr → Form
  | num n => .record [("Number", n.toForm)]
  | var v => .record [("Variable", v.toForm)]
  | sum l r => .record [("Sum", .list [l.toForm, r.toForm])]
  | prod l r => .record [("Product", .list [l.toForm, r.toForm])]

mutual

def ofForm (f : Form) : Except FormError Expr :=
  match f.variant? with
  | .ok ("Number", g) => (Number.ofForm g).map num
  | .ok ("Variable", g) => (Variable.ofForm g).map var
  | .ok ("Sum", ⟨g, _⟩) => (operandsOfForm g).map fun (l, r) => sum l r
  | .ok ("Product", ⟨g, _⟩) => (operandsOfForm g).map fun (l, r) => prod l r
  | .ok _ => .error .shape
  | .error e => .error e
  termination_by sizeOf f

/-- Reads two operands. An operand that cannot be read is met before one that
is missing or one too many. -/
def operandsOfForm (f : Form) : Except FormError (Expr × Expr) :=
  match f.items? with
  | .ok (⟨l, _⟩ :: rest) =>
      match ofForm l with
      | .error e => .error e
      | .ok left =>
          match rest with
          | [] => .error .shape
          | ⟨r, _⟩ :: rest =>
              match ofForm r with
              | .error e => .error e
              | .ok right =>
                  if rest.isEmpty then .ok (left, right) else .error .shape
  | .ok [] => .error .shape
  | .error e => .error e
  termination_by sizeOf f

end

end Expr

namespace Environment

def toForm (env : Environment) : Form :=
  .record [("vars", .record (env.bindings.map fun b => (b.1.name, b.2.toForm)))]

/-- Reads a binding: the name is checked before the number. -/
def bindingOfForm {f : Form} (field : String × f.Part) :
    Except FormError (Variable × Number) := do
  let v ← (Variable.ofName field.1).mapError .leaf
  let n ← Number.ofForm field.2
  return (v, n)

/-- Reads an environment. A binding that cannot be read is met before a second
record of bindings. -/
def ofForm (f : Form) : Except FormError Environment := do
  match ← f.values? "vars" with
  | [] => .error .shape
  | vars :: more =>
      let fields ← vars.1.fields?
      let bindings ← fields.mapM bindingOfForm
      if more.isEmpty then return ofList bindings else .error .shape

end Environment

/-! ## Syntax trees -/

namespace Span

def toForm (s : Span) : Form :=
  .record [("start", .int s.start), ("end", .int s.stop)]

/-- Reads a place. A record with any further field is refused. -/
def ofForm (f : Form) : Except FormError Span := do
  match f with
  | .record fields => if fields.length ≠ 2 then .error .shape
  | _ => .ok ()
  match ← f.slots? ["start", "end"] with
  | [start, stop] => return ⟨← start.1.toNat, ← stop.1.toNat⟩
  | _ => .error .shape

end Span

namespace NumberLiteral

def toForm (l : NumberLiteral) : Form :=
  .record [("value", .float l.value), ("span", l.span.toForm)]

def ofForm (f : Form) : Except FormError NumberLiteral := do
  match ← f.slots? ["value", "span"] with
  | [value, span] => return ⟨← value.1.toFloat, ← Span.ofForm span⟩
  | _ => .error .shape

end NumberLiteral

namespace SymbolLiteral

def toForm (l : SymbolLiteral) : Form :=
  .record [("name", .text l.name), ("span", l.span.toForm)]

def ofForm (f : Form) : Except FormError SymbolLiteral := do
  match ← f.slots? ["name", "span"] with
  | [name, span] => return ⟨← name.1.toText, ← Span.ofForm span⟩
  | _ => .error .shape

end SymbolLiteral

namespace Literal

def toForm : Literal → Form
  | number l => .record [("Number", l.toForm)]
  | symbol l => .record [("Symbol", l.toForm)]

def ofForm (f : Form) : Except FormError Literal :=
  match f.variant? with
  | .ok ("Number", g) => (NumberLiteral.ofForm g).map number
  | .ok ("Symbol", g) => (SymbolLiteral.ofForm g).map symbol
  | .ok _ => .error .shape
  | .error e => .error e

end Literal

namespace OperatorKind

def label : OperatorKind → String
  | add => "Add"
  | mul => "Mul"

def toForm (k : OperatorKind) : Form := .text k.label

def ofLabel (s : String) : Except FormError OperatorKind :=
  if s = add.label then .ok add else if s = mul.label then .ok mul
  else .error .shape

/-- Reads an operation: its name, or a variant that holds nothing. -/
def ofForm : Form → Except FormError OperatorKind
  | .text s => ofLabel s
  | .record [(s, .null)] => ofLabel s
  | _ => .error .shape

end OperatorKind

namespace Operator

def toForm (op : Operator) : Form :=
  .record [("kind", op.kind.toForm), ("span", op.span.toForm)]

def ofForm (f : Form) : Except FormError Operator := do
  match ← f.slots? ["kind", "span"] with
  | [kind, span] => return ⟨← OperatorKind.ofForm kind, ← Span.ofForm span⟩
  | _ => .error .shape

end Operator

namespace Tree

def toForm : Tree → Form
  | literal l => .record [("Literal", l.toForm)]
  | group inner span =>
      .record
        [("Paren", .record [("expr", inner.toForm), ("span", span.toForm)])]
  | binary lhs op rhs span =>
      .record
        [("Binary",
          .record [("lhs", lhs.toForm), ("op", op.toForm), ("rhs", rhs.toForm),
            ("span", span.toForm)])]

def ofForm (f : Form) : Except FormError Tree :=
  match f.variant? with
  | .ok ("Literal", g) => (Literal.ofForm g).map literal
  | .ok ("Paren", ⟨g, _⟩) =>
      match g.slots? ["expr", "span"] with
      | .ok [⟨inner, _⟩, ⟨span, _⟩] => do
          return group (← ofForm inner) (← Span.ofForm span)
      | .ok _ => .error .shape
      | .error e => .error e
  | .ok ("Binary", ⟨g, _⟩) =>
      match g.slots? ["lhs", "op", "rhs", "span"] with
      | .ok [⟨lhs, _⟩, ⟨op, _⟩, ⟨rhs, _⟩, ⟨span, _⟩] => do
          return binary (← ofForm lhs) (← Operator.ofForm op) (← ofForm rhs)
            (← Span.ofForm span)
      | .ok _ => .error .shape
      | .error e => .error e
  | .ok _ => .error .shape
  | .error e => .error e
  termination_by sizeOf f

end Tree

namespace Group

def toForm (g : Group) : Form :=
  .record [("expr", g.inner.toForm), ("span", g.span.toForm)]

def ofForm (f : Form) : Except FormError Group := do
  match ← f.slots? ["expr", "span"] with
  | [inner, span] => return ⟨← Tree.ofForm inner, ← Span.ofForm span⟩
  | _ => .error .shape

end Group

namespace Primary

def toForm : Primary → Form
  | literal l => .record [("Literal", l.toForm)]
  | group g => .record [("Paren", g.toForm)]

def ofForm (f : Form) : Except FormError Primary :=
  match f.variant? with
  | .ok ("Literal", g) => (Literal.ofForm g).map literal
  | .ok ("Paren", g) => (Group.ofForm g).map group
  | .ok _ => .error .shape
  | .error e => .error e

end Primary

end PolyAlgebra
