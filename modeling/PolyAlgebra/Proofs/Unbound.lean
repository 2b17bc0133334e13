import Mathlib
import PolyAlgebra.Proofs.Leaves
import PolyAlgebra.Proofs.Staging

/-!
# What is left unbound

To simplify replaces bound variables by their numbers and nothing else, as
long as some variable is left; only if none is left does it evaluate. Whether
a variable is left is decided twice, by a recursion that gives up at a
variable and by a walk over all nodes, and both agree with the list of names
being empty.
-/

namespace PolyAlgebra

namespace Expr

/-- The names of the variables that an environment does not bind, in order. -/
def unbound (e : Expr) (env : Environment) : List String :=
  e.variableNames.filter fun x => (env.lookup? x).isNone

/-- The second expression is the first with a number in the place of each bound
variable; all other nodes are the same. -/
inductive Filled (env : Environment) : Expr → Expr → Prop where
  | num (n : Number) : Filled env (.num n) (.num n)
  | bound {v : Variable} {n : Number} (h : env.get? v = some n) :
      Filled env (.var v) (.num n)
  | free {v : Variable} (h : env.get? v = none) : Filled env (.var v) (.var v)
  | sum {l r l' r' : Expr} (left : Filled env l l') (right : Filled env r r') :
      Filled env (.sum l r) (.sum l' r')
  | prod {l r l' r' : Expr} (left : Filled env l l') (right : Filled env r r') :
      Filled env (.prod l r) (.prod l' r')

variable {e e' l r : Expr} {env : Environment}

/-! ## Substitution -/

theorem filled_substitute (env : Environment) (e : Expr) :
    Filled env e (e.substitute env) := by
  induction e with
  | num n => exact .num n
  | var v =>
      rw [substitute]
      cases h : env.get? v with
      | none => exact .free h
      | some n => exact .bound h
  | sum l r ihl ihr => exact .sum ihl ihr
  | prod l r ihl ihr => exact .prod ihl ihr

theorem Filled.size_eq (h : Filled env e e') : e'.size = e.size := by
  induction h with
  | num n => rfl
  | bound h => rfl
  | free h => rfl
  | sum left right ihl ihr | prod left right ihl ihr =>
      rw [size, size, ihl, ihr]

theorem Filled.mem_variableNames (h : Filled env e e') {x : String} :
    x ∈ e'.variableNames ↔ x ∈ e.variableNames ∧ env.lookup? x = none := by
  induction h with
  | num n => simp [variableNames, postOrder_eq, subexpressions, asVariable?]
  | @bound v n h =>
      have hx : x ∈ (Expr.var v).variableNames ↔ x = v.name :=
        List.mem_singleton
      have hnum : x ∉ (Expr.num n).variableNames := List.not_mem_nil
      rw [hx]
      refine iff_of_false hnum ?_
      rintro ⟨rfl, hnone⟩
      rw [Environment.lookup?_name, h] at hnone
      cases hnone
  | @free v h =>
      have hx : x ∈ (Expr.var v).variableNames ↔ x = v.name :=
        List.mem_singleton
      rw [hx]
      constructor
      · rintro rfl
        exact ⟨rfl, (env.lookup?_name v).trans h⟩
      · exact And.left
  | sum left right ihl ihr | prod left right ihl ihr =>
      refine (mem_variableNames_of_operands rfl).trans ?_
      rw [ihl, ihr, ← or_and_right]
      exact and_congr_left' (mem_variableNames_of_operands rfl).symm

/-! ## Names in order -/

theorem pairwise_insertName {name : String} {names : List String}
    (h : names.Pairwise (· < ·)) :
    (insertName name names).Pairwise (· < ·) := by
  induction names with
  | nil => exact List.pairwise_singleton _ _
  | cons other rest ih =>
      obtain ⟨hother, hrest⟩ := List.pairwise_cons.mp h
      rw [insertName]
      split
      · next hlt =>
          refine List.pairwise_cons.mpr ⟨fun x hx => ?_, h⟩
          rcases List.mem_cons.mp hx with rfl | hx
          · exact hlt
          · exact hlt.trans (hother x hx)
      · next hnlt =>
          split
          · exact h
          · next hne =>
              refine List.pairwise_cons.mpr ⟨fun x hx => ?_, ih hrest⟩
              rcases mem_insertName.mp hx with rfl | hx
              · exact lt_of_le_of_ne (not_lt.mp hnlt) (Ne.symm hne)
              · exact hother x hx

theorem pairwise_variableNames (e : Expr) :
    e.variableNames.Pairwise (· < ·) := by
  rw [variableNames]
  induction e.postOrder.filterMap fun e => e.asVariable?.map Variable.name with
  | nil => exact .nil
  | cons name names ih =>
      rw [List.foldr_cons]
      exact pairwise_insertName ih

theorem Filled.variableNames_eq (h : Filled env e e') :
    e'.variableNames = e.unbound env := by
  apply e'.pairwise_variableNames.eq_of_mem_iff
    (e.pairwise_variableNames.filter _)
  intro x
  rw [h.mem_variableNames, List.mem_filter, Option.isNone_iff_eq_none]

/-! ## Constant expressions -/

theorem isConstant_iff : e.isConstant = true ↔ e.variableNames = [] := by
  rw [isConstant, List.all_eq_true, List.eq_nil_iff_forall_not_mem]
  simp only [mem_variableNames, postOrder_eq]
  constructor
  · rintro h x ⟨v, hv, -⟩
    cases h (var v) hv
  · intro h d hd
    cases d with
    | var v => exact absurd ⟨v, hd, rfl⟩ (h v.name)
    | num n => rfl
    | sum l r => rfl
    | prod l r => rfl

theorem variableNames_eq_nil_of_operands {e l r : Expr}
    (h : e.operands? = some (l, r)) :
    e.variableNames = [] ↔ l.variableNames = [] ∧ r.variableNames = [] := by
  simp only [List.eq_nil_iff_forall_not_mem, mem_variableNames_of_operands h,
    not_or, forall_and]

/-- A value can be computed exactly if there is no variable. -/
theorem isSome_evaluate : e.evaluate.isSome = true ↔ e.variableNames = [] := by
  induction e with
  | num n => exact iff_of_true rfl rfl
  | var v => exact iff_of_false (by rintro ⟨⟩) (List.cons_ne_nil v.name [])
  | sum l r ihl ihr | prod l r ihl ihr =>
      refine Iff.trans ?_ (variableNames_eq_nil_of_operands rfl).symm
      rw [← ihl, ← ihr, evaluate]
      cases l.evaluate <;> cases r.evaluate <;> simp

/-! ## Simplification -/

theorem simplify_of_unbound (h : e.unbound env ≠ []) :
    e.simplify env = .ok (e.substitute env) := by
  apply simplify_of_open
  rw [← (filled_substitute env e).variableNames_eq] at h
  rw [← Option.not_isSome_iff_eq_none, isSome_evaluate]
  exact h

theorem exists_value_of_bound (h : e.unbound env = []) :
    ∃ x, e.simplify env = ofFloat x := by
  rw [← (filled_substitute env e).variableNames_eq, ← isSome_evaluate] at h
  obtain ⟨x, hx⟩ := Option.isSome_iff_exists.mp h
  exact ⟨x, simplify_of_evaluate hx⟩

/-- **Only what is bound is replaced.** While a variable is left unbound, to
simplify never fails, and gives the expression with the bound variables filled
in: it has as many nodes, and its variables are those that were left.
Otherwise the result is one number or an invalid value. The two ways to find
out whether an expression is constant agree with each other and with its
having no variables. -/
theorem simplify_filled (e : Expr) (env : Environment) :
    (e.unbound env ≠ [] → ∃ e', e.simplify env = .ok e' ∧ Filled env e e' ∧
      e'.nodeCount = e.nodeCount ∧ e'.variableNames = e.unbound env) ∧
    (e.unbound env = [] →
      (∃ n, e.simplify env = .ok (num n)) ∨
        ∃ x, e.simplify env = .error (.value x)) ∧
    (e.evaluate.isSome = true ↔ e.isConstant = true) ∧
    (e.isConstant = true ↔ e.variableNames = []) := by
  have hfilled := filled_substitute env e
  refine ⟨fun h => ?_, fun h => ?_,
    isSome_evaluate.trans isConstant_iff.symm, isConstant_iff⟩
  · refine ⟨_, simplify_of_unbound h, hfilled, ?_, hfilled.variableNames_eq⟩
    rw [nodeCount_eq, nodeCount_eq, hfilled.size_eq]
  · obtain ⟨x, hx⟩ := exists_value_of_bound h
    rw [hx, ofFloat]
    by_cases hvalid : x.isFinite = true ∧ 0 ≤ x
    · obtain ⟨n, hn, -⟩ := Number.ofFloat_of_valid hvalid
      exact Or.inl ⟨n, by rw [hn]; rfl⟩
    · exact Or.inr ⟨x, by rw [Number.ofFloat_of_invalid hvalid]; rfl⟩

/-- A product that is too large does no harm beside a variable without a
number. -/
theorem simplify_filled_overflow :
    let huge : Number :=
      ⟨1e200, by decide +kernel, by decide +kernel, by decide +kernel⟩
    let square := prod (num huge) (num huge)
    let y : Variable := ⟨"y", by decide⟩
    (∃ e', (sum square (var y)).simplify .empty = .ok e' ∧
      e'.variableNames = ["y"]) ∧
    ((∃ n, square.simplify .empty = .ok (num n)) ∨
      ∃ x, square.simplify .empty = .error (.value x)) := by
  intro huge square y
  have hopen : (sum square (var y)).unbound .empty = ["y"] := rfl
  have hclosed : square.unbound .empty = [] := rfl
  constructor
  · obtain ⟨e', he', -, -, hnames⟩ :=
      (simplify_filled (sum square (var y)) .empty).1 (by simp [hopen])
    exact ⟨e', he', hnames.trans hopen⟩
  · exact (simplify_filled square .empty).2.1 hclosed

end Expr

end PolyAlgebra
