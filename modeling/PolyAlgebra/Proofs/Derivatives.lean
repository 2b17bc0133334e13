import Mathlib
import PolyAlgebra.Proofs.Doubles
import PolyAlgebra.Proofs.PostOrder

/-!
# What derivatives mean, and how they grow

An expression stands for a polynomial over the rationals in its variables: a
number is its exact value, a variable an indeterminate. The derivative of an
expression, which is built by rewriting and never simplified, stands for the
partial derivative of that polynomial.

The derivative of a product has both operands twice, once as they are and once
differentiated. So besides the nodes of the expression a derivative has, for
each product in the expression, as many nodes again as the product, and one
more for the sum. This does not depend on the variable, nor on whether it
occurs. An expression without products keeps its size. Any other grows, and so
does its derivative, which has products as well.
-/

open Float.Model Float.Model.UnpackedFloat
open TrivSqZeroExt (inl inl_add)

namespace PolyAlgebra

/-! ## The exact value of a number -/

namespace Binary64

variable {x : Float} {s : Sign} {m : Nat} {e : Int} {hm : 0 < m}

theorem units_eq (x : Float) :
    units x =
      if (unpackExponent (packed x)).toNat = 0 then
        (unpackMantissa (packed x)).toNat
      else (2 ^ 52 + (unpackMantissa (packed x)).toNat) *
        2 ^ ((unpackExponent (packed x)).toNat - 1) := by
  have hexponent : (packed x).toNat % 2 ^ 63 / 2 ^ 52 =
      (packed x).toNat / 2 ^ 52 % 2 ^ 11 := by omega
  have hfraction :
      (packed x).toNat % 2 ^ 63 % 2 ^ 52 = (packed x).toNat % 2 ^ 52 := by
    omega
  rw [toNat_unpackExponent, toNat_unpackMantissa, ← hexponent, ← hfraction]
  rfl

theorem units_of_unpack_zero (hx : x.toModel.unpack = .zero s) :
    units x = 0 := by
  change UnpackedFloat.unpack Format.binary64 (packed x) = _ at hx
  unfold UnpackedFloat.unpack at hx
  dsimp only at hx
  split at hx
  · split at hx <;> cases hx
  · split at hx
    · next hexponent =>
        split at hx
        · next hmantissa =>
            rw [units_eq, hexponent, hmantissa]
            rfl
        · cases hx
    · cases hx

/-- The value of a finite double is its number of units. -/
theorem units_of_unpack_finite (hx : x.toModel.unpack = .finite s m e hm) :
    (units x : ℚ) = m * 2 ^ (e + 1074) := by
  change UnpackedFloat.unpack Format.binary64 (packed x) = _ at hx
  have hbias := bias_eq
  unfold UnpackedFloat.unpack at hx
  dsimp only at hx
  split at hx
  · split at hx <;> cases hx
  · split at hx
    · next hexponent =>
        split at hx
        · cases hx
        · -- a subnormal double
          obtain ⟨-, rfl, rfl⟩ := UnpackedFloat.finite.inj hx
          rw [units_eq, hexponent, hbias]
          norm_num
    · next hexponent =>
        obtain ⟨-, rfl, rfl⟩ := UnpackedFloat.finite.inj hx
        have hpos : (unpackExponent (packed x)).toNat ≠ 0 := fun h =>
          hexponent (BitVec.eq_of_toNat_eq h)
        have hexp :
            ((unpackExponent (packed x)).toNat : Int) -
              ((1023 : Nat) + (52 : Nat)) + 1074 =
              ((unpackExponent (packed x)).toNat - 1 : Nat) := by
          omega
        rw [units_eq, if_neg hpos, toNat_append_eq, hbias]
        refine Eq.trans ?_ (congrArg (_ * (2 : ℚ) ^ ·) hexp.symm)
        rw [zpow_natCast]
        norm_num

end Binary64

def Number.toRat (n : Number) : ℚ :=
  Binary64.units n.value / Binary64.unitsPerOne

namespace Number

theorem cast_unitsPerOne : (Binary64.unitsPerOne : ℚ) = 2 ^ (1074 : Int) := by
  have hcast (k : Nat) : (Nat.pow 2 k : ℚ) = 2 ^ (k : Int) := by
    rw [Nat.pow_eq, Nat.cast_pow, zpow_natCast, Nat.cast_ofNat]
  unfold Binary64.unitsPerOne
  rw [← Nat.cast_ofNat (R := Int)]
  -- what holds of every exponent is not computed for this one
  generalize 1074 = k
  exact hcast k

/-- The exact value is mantissa times power of two, as the format has it. -/
theorem toRat_eq (n : Number) :
    n.toRat = match n.value.toModel.unpack with
      | .finite _ m e _ => (m : ℚ) * 2 ^ e
      | _ => 0 := by
  have hfinite : n.value.toModel.unpack.isFinite = true := n.finite
  cases hu : n.value.toModel.unpack with
  | notANumber | infinity s =>
      rw [hu] at hfinite
      cases hfinite
  | zero s =>
      rw [toRat, Binary64.units_of_unpack_zero hu, Nat.cast_zero, zero_div]
  | finite s m e hm =>
      rw [toRat, Binary64.units_of_unpack_finite hu, cast_unitsPerOne,
        zpow_add₀ two_ne_zero, ← mul_assoc, mul_div_assoc,
        div_self (zpow_ne_zero _ two_ne_zero), mul_one]

@[simp] theorem toRat_zero : zero.toRat = 0 := by
  rw [toRat_eq]
  rfl

@[simp] theorem toRat_one : one.toRat = 1 := by
  have hone : one.value.toModel.unpack =
    .finite .positive (2 ^ 52) (-52) (by decide) := rfl
  rw [toRat_eq, hone]
  norm_num

end Number

/-! ## The meaning of an expression -/

namespace Expr

section Meaning

variable {R : Type*} [CommRing R] [Algebra ℚ R]

def valueIn (ρ : Variable → R) : Expr → R
  | num n => algebraMap ℚ R n.toRat
  | var v => ρ v
  | sum l r => l.valueIn ρ + r.valueIn ρ
  | prod l r => l.valueIn ρ * r.valueIn ρ

noncomputable def polynomial (e : Expr) : MvPolynomial Variable ℚ :=
  e.valueIn MvPolynomial.X

@[simp] theorem polynomial_num (n : Number) :
    (num n).polynomial = MvPolynomial.C n.toRat := rfl

@[simp] theorem polynomial_var (v : Variable) :
    (var v).polynomial = MvPolynomial.X v := rfl

@[simp] theorem polynomial_sum (l r : Expr) :
    (sum l r).polynomial = l.polynomial + r.polynomial := rfl

@[simp] theorem polynomial_prod (l r : Expr) :
    (prod l r).polynomial = l.polynomial * r.polynomial := rfl

/-- To evaluate an expression is to evaluate its polynomial. -/
theorem valueIn_eq_aeval (e : Expr) (ρ : Variable → R) :
    e.valueIn ρ = MvPolynomial.aeval ρ e.polynomial := by
  induction e with
  | num n => rw [polynomial_num, MvPolynomial.aeval_C, valueIn]
  | var v => rw [polynomial_var, MvPolynomial.aeval_X, valueIn]
  | sum l r ihl ihr => rw [polynomial_sum, map_add, valueIn, ihl, ihr]
  | prod l r ihl ihr => rw [polynomial_prod, map_mul, valueIn, ihl, ihr]

end Meaning

/-! ## Derivatives -/

theorem polynomial_derivative (e : Expr) (x : Variable) :
    (e.derivative x).polynomial = MvPolynomial.pderiv x e.polynomial := by
  induction e with
  | num n => simp [derivative]
  | var v =>
      rw [derivative, polynomial_var, MvPolynomial.pderiv_X]
      by_cases h : v = x
      · simp [h]
      · simp [h]
  | sum f g ihf ihg =>
      rw [derivative, polynomial_sum, polynomial_sum, ihf, ihg, map_add]
  | prod f g ihf ihg =>
      rw [derivative, polynomial_sum, polynomial_prod, polynomial_prod,
        polynomial_prod, ihf, ihg, Derivation.leibniz, smul_eq_mul, smul_eq_mul]
      ring

theorem polynomial_derivative_of_notMem {e : Expr} {x : Variable}
    (h : x.name ∉ e.variableNames) : (e.derivative x).polynomial = 0 := by
  induction e with
  | num n => simp [derivative]
  | var v =>
      have hne : v ≠ x := by
        rintro rfl
        exact h (List.mem_singleton_self _)
      simp [derivative, hne]
  | sum f g ihf ihg =>
      rw [mem_variableNames_of_operands (e := sum f g) rfl, not_or] at h
      rw [derivative, polynomial_sum, ihf h.1, ihg h.2, add_zero]
  | prod f g ihf ihg =>
      rw [mem_variableNames_of_operands (e := prod f g) rfl, not_or] at h
      rw [derivative, polynomial_sum, polynomial_prod, polynomial_prod, ihf h.1,
        ihg h.2, zero_mul, mul_zero, add_zero]

/-- A derivative has no variables of its own. -/
theorem mem_variableNames_of_derivative {e : Expr} {x : Variable}
    {name : String} (h : name ∈ (e.derivative x).variableNames) :
    name ∈ e.variableNames := by
  induction e with
  | num n => cases h
  | var v =>
      rw [derivative] at h
      split at h <;> cases h
  | sum f g ihf ihg =>
      have hparts := (mem_variableNames_of_operands rfl).mp h
      exact (mem_variableNames_of_operands rfl).mpr (hparts.imp ihf ihg)
  | prod f g ihf ihg =>
      -- each summand has one operand of the product as it is
      refine (mem_variableNames_of_operands rfl).mpr ?_
      rcases (mem_variableNames_of_operands rfl).mp h with hl | hr
      · exact ((mem_variableNames_of_operands rfl).mp hl).imp ihf id
      · exact ((mem_variableNames_of_operands rfl).mp hr).imp id ihg

/-- The values of the variables, with that of `x` moved by the infinitesimal
`ε`, whose square is zero. -/
noncomputable def nudged (ρ : Variable → ℚ) (x : Variable) :
    Variable → DualNumber ℚ :=
  Function.update (fun y => inl (ρ y)) x (inl (ρ x) + DualNumber.eps)

theorem inl_add_eps_mul (a a' b b' : ℚ) :
    (inl a + a' • DualNumber.eps : DualNumber ℚ) *
      (inl b + b' • DualNumber.eps) =
      inl (a * b) + (a' * b + a * b') • DualNumber.eps := by
  apply TrivSqZeroExt.ext
  · simp
  · simp
    ring

/-- If `x` moves by `ε`, the value moves by `ε` times the derivative. -/
theorem valueIn_nudged (e : Expr) (x : Variable) (ρ : Variable → ℚ) :
    e.valueIn (nudged ρ x) =
      inl (e.valueIn ρ) + (e.derivative x).valueIn ρ • DualNumber.eps := by
  induction e with
  | num n =>
      simp only [valueIn, derivative, Number.toRat_zero, map_zero,
        zero_smul, add_zero]
      rfl
  | var v =>
      by_cases h : v = x
      · subst h
        simp [valueIn, derivative, nudged]
      · simp [valueIn, derivative, nudged, h]
  | sum f g ihf ihg =>
      simp only [valueIn, derivative, ihf, ihg, inl_add, add_smul]
      exact add_add_add_comm _ _ _ _
  | prod f g ihf ihg =>
      simp only [valueIn, derivative, ihf, ihg, inl_add_eps_mul]

/-- **The derivative is the partial derivative.** The derivative of an
expression stands for the partial derivative of the polynomial that the
expression stands for, and its values are the slopes of the values of the
expression. It is zero if the variable does not occur, where two variables are
the same if their names agree letter by letter, and it has no variables of its
own. It does not matter whether the variable is given or its name. -/
theorem derivative_isPartialDerivative (e : Expr) (x : Variable) :
    (e.derivative x).polynomial = MvPolynomial.pderiv x e.polynomial ∧
    (∀ ρ : Variable → ℚ, e.valueIn (nudged ρ x) =
      inl (e.valueIn ρ) + (e.derivative x).valueIn ρ • DualNumber.eps) ∧
    (x.name ∉ e.variableNames → (e.derivative x).polynomial = 0) ∧
    (∀ v : Variable, ((var v).derivative x).polynomial =
      if v.name = x.name then 1 else 0) ∧
    (∀ name ∈ (e.derivative x).variableNames, name ∈ e.variableNames) ∧
    e.derivativeBy x.name = .ok (e.derivative x) := by
  refine ⟨polynomial_derivative e x, valueIn_nudged e x,
    polynomial_derivative_of_notMem, ?_,
    fun _ => mem_variableNames_of_derivative, ?_⟩
  · intro v
    by_cases h : v.name = x.name
    · obtain rfl : v = x := Variable.eq_of_name h
      simp [derivative]
    · have hne : v ≠ x := fun heq => h (congrArg Variable.name heq)
      simp [derivative, h, hne]
  · rw [derivativeBy, Variable.ofName, dif_pos x.valid]

/-! ## Products in an expression -/

def isProduct : Expr → Bool
  | prod _ _ => true
  | _ => false

/-- The products in an expression, each as often as it occurs. -/
def products (e : Expr) : List Expr := e.subexpressions.filter isProduct

/-- What the products in an expression add to the size of a derivative. -/
def excess (e : Expr) : Nat := (e.products.map fun p => p.nodeCount + 1).sum

variable {e l r : Expr} {x : Variable}

@[simp] theorem products_num (n : Number) : (num n).products = [] := rfl

@[simp] theorem products_var (v : Variable) : (var v).products = [] := rfl

@[simp] theorem products_sum (l r : Expr) :
    (sum l r).products = l.products ++ r.products := by
  simp [products, subexpressions, isProduct]

@[simp] theorem products_prod (l r : Expr) :
    (prod l r).products = l.products ++ r.products ++ [prod l r] := by
  simp [products, subexpressions, isProduct]

@[simp] theorem excess_num (n : Number) : (num n).excess = 0 := rfl

@[simp] theorem excess_var (v : Variable) : (var v).excess = 0 := rfl

@[simp] theorem excess_sum (l r : Expr) :
    (sum l r).excess = l.excess + r.excess := by
  simp [excess]

@[simp] theorem excess_prod (l r : Expr) :
    (prod l r).excess = l.excess + r.excess + (l.size + r.size + 2) := by
  simp only [excess, products_prod, List.map_append, List.sum_append_nat,
    List.map_singleton, List.sum_singleton, nodeCount_eq, size]

/-- Only products add to the size. -/
theorem excess_eq_zero : e.excess = 0 ↔ e.products = [] := by
  constructor
  · intro h
    refine List.eq_nil_iff_forall_not_mem.mpr fun p hp => ?_
    have hadds : p.nodeCount + 1 ≤ e.excess :=
      List.le_sum_of_mem (List.mem_map_of_mem hp)
    omega
  · intro h
    rw [excess, h]
    rfl

/-! ## One derivative -/

theorem size_derivative (e : Expr) (x : Variable) :
    (e.derivative x).size = e.size + e.excess := by
  induction e with
  | num n => simp [derivative, size]
  | var v =>
      rw [derivative]
      split <;> simp [size]
  | sum l r ihl ihr =>
      simp only [derivative, size, excess_sum, ihl, ihr]
      omega
  | prod l r ihl ihr =>
      simp only [derivative, size, excess_prod, ihl, ihr]
      omega

/-- The products of a sum are those of its operands, and a product becomes a
sum of two products: a derivative has products exactly if the expression has
some. -/
theorem products_derivative_eq_nil :
    (e.derivative x).products = [] ↔ e.products = [] := by
  induction e with
  | num n => simp [derivative]
  | var v =>
      rw [derivative]
      split <;> simp
  | sum l r ihl ihr =>
      simp only [derivative, products_sum, List.append_eq_nil_iff, ihl, ihr]
  | prod l r ihl ihr => simp [derivative]

/-! ## Derivatives in a row -/

/-- With a product in the expression every further derivative has more
nodes. -/
theorem isChain_derivatives (h : e.products ≠ []) (xs : List Variable) :
    (xs.scanl derivative e).IsChain fun d d' => d.size < d'.size := by
  induction xs generalizing e with
  | nil => exact .singleton e
  | cons x xs ih =>
      have hnext : (e.derivative x).products ≠ [] := by
        rwa [ne_eq, products_derivative_eq_nil]
      have hexcess : e.excess ≠ 0 := by rwa [ne_eq, excess_eq_zero]
      rw [List.scanl_cons, List.isChain_cons]
      refine ⟨?_, ih hnext⟩
      intro d hd
      rw [List.head?_scanl] at hd
      obtain rfl := Option.some.inj hd
      rw [size_derivative]
      omega

/-- **Growth.** For every variable a derivative has the nodes of the
expression and, for each product in it, as many again as the product has, and
one. It is never smaller than the expression and of the same size exactly if
there is no product. The sizes of further and further derivatives, each by any
variable, increase strictly exactly if there is one. -/
theorem nodeCount_derivative (e : Expr) :
    (∀ x, (e.derivative x).nodeCount =
      e.nodeCount + (e.products.map fun p => p.nodeCount + 1).sum) ∧
    (∀ x, e.nodeCount ≤ (e.derivative x).nodeCount) ∧
    (∀ x, (e.derivative x).nodeCount = e.nodeCount ↔ e.products = []) ∧
    ((∀ xs : List Variable,
      ((xs.scanl derivative e).map nodeCount).Pairwise fun m n => m < n) ↔
        e.products ≠ []) := by
  have hsize : ∀ x, (e.derivative x).nodeCount = e.nodeCount + e.excess := by
    intro x
    rw [nodeCount_eq, nodeCount_eq, size_derivative]
  have hsame : ∀ x,
      (e.derivative x).nodeCount = e.nodeCount ↔ e.products = [] := by
    intro x
    rw [hsize, Nat.add_eq_left, excess_eq_zero]
  refine ⟨hsize, ?_, hsame, ?_, ?_⟩
  · intro x
    rw [hsize]
    exact Nat.le_add_right _ _
  · -- without a product a single derivative, by any variable, is not larger
    intro h hnil
    obtain ⟨x⟩ : Nonempty Variable := ⟨⟨"x", by decide⟩⟩
    have hlt : e.nodeCount < (e.derivative x).nodeCount := by simpa using h [x]
    exact Nat.ne_of_gt hlt ((hsame x).mpr hnil)
  · intro h xs
    rw [List.pairwise_map]
    simp only [nodeCount_eq]
    exact List.isChain_iff_pairwise.mp (isChain_derivatives h xs)

end Expr

end PolyAlgebra
