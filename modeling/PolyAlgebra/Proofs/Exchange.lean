import Mathlib
import PolyAlgebra.Form
import PolyAlgebra.Proofs.Entries
import PolyAlgebra.Proofs.Equality
import PolyAlgebra.Proofs.Staging

/-!
# Exchange

What is written as a form is read back. An expression and an environment are
read back from any of their forms, and a syntax tree with all its places as
long as these are machine words. What others wrote is read only if it was
checked: it has the right shape, and its leaves are valid.
-/

namespace PolyAlgebra

/-! ## Expressions -/

theorem Number.ofForm_toForm (n : Number) : ofForm n.toForm = .ok n := by
  have hread : ofForm n.toForm = (ofFloat n.value).mapError .leaf := rfl
  rw [hread, ofFloat_value]
  rfl

theorem Variable.ofForm_toForm (v : Variable) : ofForm v.toForm = .ok v := by
  have hread : ofForm v.toForm = (ofName v.name).mapError .leaf := rfl
  rw [hread, ofName_eq_ok.mpr rfl]
  rfl

namespace Expr

theorem ofForm_toForm (e : Expr) : ofForm e.toForm = .ok e := by
  induction e with
  | num n =>
      rw [toForm, ofForm_number, Number.ofForm_toForm]
      rfl
  | var v =>
      rw [toForm, ofForm_variable, Variable.ofForm_toForm]
      rfl
  | sum l r ihl ihr =>
      rw [toForm, (ofForm_operation _).1, operandsOfForm_pair, ihl, ihr]
      rfl
  | prod l r ihl ihr =>
      rw [toForm, (ofForm_operation _).2, operandsOfForm_pair, ihl, ihr]
      rfl

end Expr

theorem Number.beq_self (n : Number) : (n == n) = true :=
  Binary64.beq_self (Binary64.isNaN_of_isFinite n.finite)

theorem Expr.beq_self (e : Expr) : (e == e) = true := by
  induction e with
  | num n => exact n.beq_self
  | var v => exact beq_self_eq_true v
  | sum l r ihl ihr | prod l r ihl ihr =>
      show (l == l && r == r) = true
      rw [ihl, ihr]
      rfl

/-! ## Environments -/

namespace Environment

def formOf (bindings : Bindings) : Form :=
  .record [("vars", .record (bindings.map fun b => (b.1.name, b.2.toForm)))]

theorem ofForm_formOf {env : Environment} {bindings : Bindings}
    (h : bindings.Perm env.bindings) :
    ofForm (formOf bindings) = .ok env := by
  have hlists :
      (formOf bindings).Lists
        (bindings.map fun b => (b.1.name, b.2.value)) := by
    refine ⟨_, .byName _, ?_⟩
    rw [List.forall₂_map_left_iff, List.forall₂_map_right_iff,
      List.forall₂_same]
    intro b _
    exact ⟨rfl, .float b.2.value⟩
  have hbinds :
      List.Forall₂ Binds (bindings.map fun b => (b.1.name, b.2.value))
        bindings := by
    rw [List.forall₂_map_left_iff, List.forall₂_same]
    intro b _
    exact ⟨rfl, (if_neg b.2.ne_negativeZero).symm⟩
  refine ofForm_eq_ok.mpr ⟨_, hlists, ?_, ?_⟩
  · intro l hl
    obtain ⟨c, hc, hl⟩ := List.mem_flatMap.mp hl
    obtain ⟨b, -, rfl⟩ := List.mem_map.mp hc
    rcases List.mem_pair.mp hl with rfl | rfl
    · exact isValidName_iff.mp b.1.valid
    · exact ⟨b.2.finite, b.2.nonneg⟩
  · rw [← ofList_of_perm h]
    exact entriesStandFor_ofList hbinds

theorem beq_self (env : Environment) : (env == env) = true := by
  show (env.bindings == env.bindings) = true
  induction env.bindings with
  | nil => rfl
  | cons b rest ih =>
      show ((b.1 == b.1 && b.2 == b.2) && rest == rest) = true
      rw [beq_self_eq_true, b.2.beq_self, ih]
      rfl

end Environment

/-! ## Syntax trees -/

/-- The ends of a place are machine words. -/
def Span.Addressable (s : Span) : Prop :=
  s.start < UInt64.size ∧ s.stop < UInt64.size

def Tree.Addressable : Tree → Prop
  | literal l => l.span.Addressable
  | group inner s => inner.Addressable ∧ s.Addressable
  | binary lhs op rhs s =>
      lhs.Addressable ∧ op.span.Addressable ∧ rhs.Addressable ∧ s.Addressable

/-- No value in the tree is other than a number. -/
def Tree.Numeric : Tree → Prop
  | literal (.number l) => l.value.isNaN = false
  | literal (.symbol _) => True
  | group inner _ => inner.Numeric
  | binary lhs _ rhs _ => lhs.Numeric ∧ rhs.Numeric

theorem Form.toNat_int {n : Nat} (h : n < UInt64.size) :
    (int n).toNat = .ok n :=
  if_pos ⟨Int.natCast_nonneg n, h⟩

theorem Span.ofForm_toForm {s : Span} (h : s.Addressable) :
    ofForm s.toForm = .ok s := by
  have hread : ofForm s.toForm = (Form.int s.start).toNat.bind fun start =>
      (Form.int s.stop).toNat.map fun stop => ⟨start, stop⟩ := rfl
  rw [hread, Form.toNat_int h.1, Form.toNat_int h.2]
  rfl

theorem NumberLiteral.ofForm_toForm {l : NumberLiteral}
    (h : l.span.Addressable) :
    ofForm l.toForm = .ok l := by
  have hread : ofForm l.toForm = (Span.ofForm l.span.toForm).map fun s =>
    ⟨l.value, s⟩ := rfl
  rw [hread, Span.ofForm_toForm h]
  rfl

theorem SymbolLiteral.ofForm_toForm {l : SymbolLiteral}
    (h : l.span.Addressable) :
    ofForm l.toForm = .ok l := by
  have hread : ofForm l.toForm = (Span.ofForm l.span.toForm).map fun s =>
    ⟨l.name, s⟩ := rfl
  rw [hread, Span.ofForm_toForm h]
  rfl

theorem Literal.ofForm_toForm {l : Literal} (h : l.span.Addressable) :
    ofForm l.toForm = .ok l := by
  cases l with
  | number l =>
      have hread : ofForm (number l).toForm =
        (NumberLiteral.ofForm l.toForm).map number := rfl
      rw [hread, NumberLiteral.ofForm_toForm h]
      rfl
  | symbol l =>
      have hread : ofForm (symbol l).toForm =
        (SymbolLiteral.ofForm l.toForm).map symbol := rfl
      rw [hread, SymbolLiteral.ofForm_toForm h]
      rfl

theorem OperatorKind.ofForm_toForm (k : OperatorKind) :
    ofForm k.toForm = .ok k := by
  cases k <;> rfl

theorem Operator.ofForm_toForm {op : Operator} (h : op.span.Addressable) :
    ofForm op.toForm = .ok op := by
  have hread : ofForm op.toForm =
    (OperatorKind.ofForm op.kind.toForm).bind fun kind =>
      (Span.ofForm op.span.toForm).map fun s => ⟨kind, s⟩ := rfl
  rw [hread, OperatorKind.ofForm_toForm, Span.ofForm_toForm h]
  rfl

namespace Tree

theorem ofForm_literal (f : Form) :
    ofForm (.record [("Literal", f)]) = (Literal.ofForm f).map literal := by
  rw [ofForm]
  rfl

theorem ofForm_group (f g : Form) :
    ofForm (.record [("Paren", .record [("expr", f), ("span", g)])]) =
      (ofForm f).bind fun inner => (Span.ofForm g).map fun s =>
        group inner s := by
  rw [ofForm]
  rfl

theorem ofForm_binary (f g h k : Form) :
    ofForm (.record [("Binary",
        .record [("lhs", f), ("op", g), ("rhs", h), ("span", k)])]) =
      (ofForm f).bind fun lhs => (Operator.ofForm g).bind fun op =>
        (ofForm h).bind fun rhs => (Span.ofForm k).map fun s =>
          binary lhs op rhs s := by
  rw [ofForm]
  rfl

theorem ofForm_toForm {t : Tree} (h : t.Addressable) :
    ofForm t.toForm = .ok t := by
  induction t with
  | literal l =>
      rw [toForm, ofForm_literal, Literal.ofForm_toForm h]
      rfl
  | group inner s ih =>
      rw [toForm, ofForm_group, ih h.1, Span.ofForm_toForm h.2]
      rfl
  | binary lhs op rhs s ihl ihr =>
      obtain ⟨hl, hop, hr, hs⟩ := h
      rw [toForm, ofForm_binary, ihl hl, Operator.ofForm_toForm hop, ihr hr,
        Span.ofForm_toForm hs]
      rfl

theorem beq_self {t : Tree} (h : t.Numeric) : (t == t) = true := by
  induction t with
  | literal l =>
      cases l with
      | number l =>
          show (l.value == l.value && l.span == l.span) = true
          rw [Binary64.beq_self h, beq_self_eq_true]
          rfl
      | symbol l =>
          show (l.name == l.name && l.span == l.span) = true
          rw [beq_self_eq_true, beq_self_eq_true]
          rfl
  | group inner s ih =>
      show (inner == inner && s == s) = true
      rw [ih h, beq_self_eq_true]
      rfl
  | binary lhs op rhs s ihl ihr =>
      show (lhs == lhs && (op == op && (rhs == rhs && s == s))) = true
      rw [ihl h.1, ihr h.2, beq_self_eq_true, beq_self_eq_true]
      rfl

end Tree

theorem Group.ofForm_toForm {g : Group} (h : g.toTree.Addressable) :
    ofForm g.toForm = .ok g := by
  have hread : ofForm g.toForm = (Tree.ofForm g.inner.toForm).bind fun inner =>
      (Span.ofForm g.span.toForm).map fun s => ⟨inner, s⟩ := rfl
  rw [hread, Tree.ofForm_toForm h.1, Span.ofForm_toForm h.2]
  rfl

theorem Primary.ofForm_toForm {p : Primary} (h : p.toTree.Addressable) :
    ofForm p.toForm = .ok p := by
  cases p with
  | literal l =>
      have hread : ofForm (literal l).toForm =
        (Literal.ofForm l.toForm).map literal := rfl
      rw [hread, Literal.ofForm_toForm h]
      rfl
  | group g =>
      have hread : ofForm (group g).toForm =
        (Group.ofForm g.toForm).map group := rfl
      rw [hread, Group.ofForm_toForm h]
      rfl

/-! ## What is exchanged -/

/-- **Exchange.** What is written is read back and equal to itself: every
expression, every environment in whatever order its bindings are written, and
every syntax tree with its places, which are machine words, if its values are
numbers. Whatever form is given, an expression is read from it exactly if it
has the right shape and all leaves are valid, and the leaves are those that
were given, but that negative zero is zero. If the shape is right and some
leaf is not valid, the first one in reading order is the reason why nothing is
read. It is the same with environments, where the name of an entry comes
before its value and the last entry for a name counts. -/
theorem Form.exchange :
    (∀ e : Expr, Expr.ofForm e.toForm = .ok e ∧ (e == e) = true) ∧
    (∀ env : Environment, Environment.ofForm env.toForm = .ok env ∧
      (env == env) = true ∧
      ∀ bindings : Bindings, bindings.Perm env.bindings →
        Environment.ofForm (Environment.formOf bindings) = .ok env) ∧
    (∀ t : Tree, t.Addressable → Tree.ofForm t.toForm = .ok t ∧
      (t.Numeric → (t == t) = true)) ∧
    ∀ f : Form,
      (∀ e, Expr.ofForm f = .ok e ↔
        ∃ d, f.Spells d ∧ (∀ l ∈ d.leaves, l.Valid) ∧ d.StandsFor e) ∧
      (∀ d l, f.Spells d → Leaf.firstInvalid? d.leaves = some l →
        Expr.ofForm f = .error (.leaf l.reason)) ∧
      (∀ env, Environment.ofForm f = .ok env ↔
        ∃ bs, f.Lists bs ∧ (∀ l ∈ leavesOfEntries bs, l.Valid) ∧
          EntriesStandFor bs env) ∧
      (∀ bs l, f.Lists bs → Leaf.firstInvalid? (leavesOfEntries bs) = some l →
        Environment.ofForm f = .error (.leaf l.reason)) := by
  refine ⟨fun e => ⟨e.ofForm_toForm, e.beq_self⟩,
    fun env => ⟨?_, env.beq_self, ?_⟩, ?_, ?_⟩
  · exact Environment.ofForm_formOf (List.Perm.refl env.bindings)
  · intro bindings h
    exact Environment.ofForm_formOf h
  · intro t h
    exact ⟨Tree.ofForm_toForm h, Tree.beq_self⟩
  · intro f
    refine ⟨fun e => Expr.ofForm_eq_ok, ?_,
      fun env => Environment.ofForm_eq_ok, ?_⟩
    · intro d l hd hl
      exact (Expr.meets_ofForm hd).eq_error hl
    · intro bs l hbs hl
      exact (Environment.meets_ofForm hbs).eq_error hl

/-- Of a negative number and a name with a digit the first is refused, in an
expression and in an entry. A tree with negative zero is read back. -/
theorem Form.exchange_refused :
    let negative : Form := .float (-1)
    let pair : Form :=
      .list [.record [("Number", negative)], .record [("Variable", .text "x1")]]
    let t : Tree := .group (.literal (.number ⟨-0.0, ⟨1, 5⟩⟩)) ⟨0, 6⟩
    Expr.ofForm (.record [("Sum", pair)]) = .error (.leaf (.value (-1))) ∧
    Environment.ofForm (.record [("vars", .record [("x1", negative)])]) =
      .error (.leaf (.name "x1")) ∧
    Tree.ofForm t.toForm = .ok t ∧ (t == t) = true := by
  intro negative pair t
  have hspells : Form.Spells (.record [("Sum", pair)])
      (.sum (.leaf (.value (-1))) (.leaf (.name "x1"))) :=
        .sum (.value (.float _)) (.name _)
  have hlists :
      Form.Lists (.record [("vars", .record [("x1", negative)])])
        [("x1", -1)] :=
    ⟨_, .byName _, .cons ⟨rfl, .float _⟩ .nil⟩
  have hnegative : ¬(Leaf.value (-1)).Valid := by decide +kernel
  have hname : ¬(Leaf.name "x1").Valid := by
    intro h
    have hvalid : isValidName "x1" = true := isValidName_iff.mpr h
    revert hvalid
    decide
  have haddressable : t.Addressable :=
    ⟨⟨by decide, by decide⟩, by decide, by decide⟩
  have hnumeric : t.Numeric := by
    show (-0.0 : Float).isNaN = false
    decide +kernel
  obtain ⟨-, -, htree, hforms⟩ := exchange
  obtain ⟨hread, hequal⟩ := htree t haddressable
  refine ⟨?_, ?_, hread, hequal hnumeric⟩
  · exact (hforms _).2.1 _ (.value (-1)) hspells
      (List.find?_cons_of_pos (by simpa using hnegative))
  · exact (hforms _).2.2.2 _ (.name "x1") hlists
      (List.find?_cons_of_pos (by simpa using hname))

end PolyAlgebra
