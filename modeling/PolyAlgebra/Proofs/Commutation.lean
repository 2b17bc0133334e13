import PolyAlgebra.Expr
import PolyAlgebra.Proofs.Staging
import PolyAlgebra.Proofs.Doubles

/-!
# Derivatives and substitution commute

Putting numbers in for other variables and then differentiating gives the same
tree as doing it the other way round. After simplifying, this is still so, but
for another reason where no variable is left: the derivative of the number that
was computed is zero, and the derivative of the tree that it was computed from
is a large tree of numbers. That tree evaluates to zero only because nothing in
it is infinite, and this is known because the number came out finite.
-/

namespace PolyAlgebra.Expr

variable {e e' : Expr} {x : Variable} {env : Environment} {value : Float}

theorem substitute_empty (e : Expr) : e.substitute .empty = e := by
  induction e with
  | num n => rfl
  | var v => rfl
  | sum l r ihl ihr | prod l r ihl ihr => rw [substitute, ihl, ihr]

theorem derivative_var_ne {v : Variable} (h : v ≠ x) :
    (var v).derivative x = num .zero := if_neg h

theorem substitute_derivative (hx : env.get? x = none) (e : Expr) :
    (e.derivative x).substitute env = (e.substitute env).derivative x := by
  induction e with
  | num n => rfl
  | var v =>
      by_cases hv : v = x
      · subst hv
        have hsubst : (var v).substitute env = var v := by rw [substitute, hx]
        rw [hsubst, derivative, if_pos rfl, substitute]
      · rw [derivative_var_ne hv, substitute, substitute]
        cases env.get? v with
        | none => exact (derivative_var_ne hv).symm
        | some n => rfl
  | sum f g ihf ihg =>
      rw [derivative, substitute, substitute, derivative, ihf, ihg]
  | prod f g ihf ihg =>
      rw [derivative, substitute, substitute, substitute, substitute,
        derivative, ihf, ihg]

/-! ## Trees of numbers -/

/-- What is computed from numbers has no sign. -/
theorem isNegative_of_evaluate (h : e.evaluate = some value) :
    Binary64.isNegative value = false := by
  induction e generalizing value with
  | num n =>
      cases h
      exact Binary64.isNegative_value n
  | var v => cases h
  | sum l r ihl ihr =>
      obtain ⟨a, b, ha, hb, rfl⟩ := evaluate_sum_eq_some.mp h
      exact Binary64.isNegative_add (ihl ha) (ihr hb)
  | prod l r ihl ihr =>
      obtain ⟨a, b, ha, hb, rfl⟩ := evaluate_prod_eq_some.mp h
      exact Binary64.isNegative_mul (ihl ha) (ihr hb)

/-- If a tree of numbers has a finite value, its derivative has the value
zero. -/
theorem evaluate_derivative (h : e.evaluate = some value)
    (hfinite : value.isFinite = true) (x : Variable) :
    (e.derivative x).evaluate = some 0 := by
  induction e generalizing value with
  | num n => rfl
  | var v => cases h
  | sum f g ihf ihg =>
      obtain ⟨a, b, ha, hb, rfl⟩ := evaluate_sum_eq_some.mp h
      obtain ⟨hfa, hfb⟩ := Binary64.isFinite_of_add hfinite
      exact evaluate_sum_eq_some.mpr
        ⟨0, 0, ihf ha hfa, ihg hb hfb, Binary64.zero_add_zero⟩
  | prod f g ihf ihg =>
      obtain ⟨a, b, ha, hb, rfl⟩ := evaluate_prod_eq_some.mp h
      obtain ⟨hfa, hfb⟩ := Binary64.isFinite_of_mul hfinite
      have hleft :=
        (Binary64.mul_zero_of_isFinite hfb (isNegative_of_evaluate hb)).1
      have hright :=
        (Binary64.mul_zero_of_isFinite hfa (isNegative_of_evaluate ha)).2
      refine evaluate_sum_eq_some.mpr ⟨0, 0, ?_, ?_, Binary64.zero_add_zero⟩
      · exact evaluate_prod_eq_some.mpr ⟨0, b, ihf ha hfa, hb, hleft⟩
      · exact evaluate_prod_eq_some.mpr ⟨a, 0, ha, ihg hb hfb, hright⟩

theorem exists_num_of_ofFloat (h : ofFloat value = .ok e) :
    value.isFinite = true ∧ ∃ n, e = num n := by
  rw [ofFloat] at h
  cases hn : Number.ofFloat value with
  | error f =>
      rw [hn] at h
      cases h
  | ok n =>
      rw [hn] at h
      cases h
      refine ⟨?_, n, rfl⟩
      rw [Number.ofFloat] at hn
      split at hn
      · next hvalid => exact hvalid.1
      · cases hn

/-- **Differentiation commutes with substitution.** Where an expression can be
simplified without a value for `x`, it does not matter whether it is
differentiated by `x` before that or after: both ways give the same expression
or the same invalid value. -/
theorem simplify_derivative (hx : env.get? x = none)
    (h : e.simplify env = .ok e') :
    (e.derivative x).simplify env = (e'.derivative x).simplify .empty := by
  cases hvalue : (e.substitute env).evaluate with
  | none =>
      -- variables are left in `e'`, and both ways lead to the same tree
      rw [simplify_of_open hvalue] at h
      cases h
      apply simplify_of_substitute
      rw [substitute_derivative hx, substitute_empty]
  | some value =>
      -- `e'` is a number with derivative zero, so the other way must give zero
      rw [simplify_of_evaluate hvalue] at h
      obtain ⟨hfinite, n, rfl⟩ := exists_num_of_ofFloat h
      have hzero : ((e.derivative x).substitute env).evaluate =
          some Number.zero.value := by
        rw [substitute_derivative hx]
        exact evaluate_derivative hvalue hfinite x
      rw [simplify_of_evaluate hzero, ofFloat, Number.ofFloat_value, derivative,
        simplify_num]
      rfl

theorem simplify_derivative_square :
    ((prod (var ⟨"y", by decide⟩) (var ⟨"y", by decide⟩)).derivative
      ⟨"x", by decide⟩).simplify (.ofList [(⟨"y", by decide⟩, .one)]) =
      ((num .one).derivative ⟨"x", by decide⟩).simplify .empty := by
  have hvalue : ((prod (var ⟨"y", by decide⟩) (var ⟨"y", by decide⟩)).substitute
      (.ofList [(⟨"y", by decide⟩, .one)])).evaluate =
        some Number.one.value := by
    decide +kernel
  refine simplify_derivative rfl ((simplify_of_evaluate hvalue).trans ?_)
  rw [ofFloat, Number.ofFloat_value]
  rfl

end PolyAlgebra.Expr
