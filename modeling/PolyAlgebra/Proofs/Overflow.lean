import Mathlib
import PolyAlgebra.Proofs.Commutation
import PolyAlgebra.Proofs.Equality

/-!
# Overflow shows

An expression is evaluated from the leaves up, and only the value of the whole
is checked. That is enough: sums and products of doubles without a sign have
no sign, and what is infinite or not a number stays one of the two. So the
value of the whole is finite only if every value on the way was, and otherwise
it is positive infinity or not a number.
-/

open Float.Model Float.Model.UnpackedFloat

namespace PolyAlgebra

namespace Binary64

def infinity : Float := Float.ofBits infinityBits.toUInt64

theorem eq_infinity_or_isNaN {x : Float} (hs : isNegative x = false)
    (hx : ¬x.isFinite = true) : x = infinity ∨ x.isNaN = true := by
  have hunsigned : Unsigned x.toModel.unpack :=
    unsigned_unpack (isNegative_eq_false.mp hs)
  have hfinite : ¬x.toModel.unpack.isFinite = true := hx
  cases hu : x.toModel.unpack with
  | notANumber =>
      refine Or.inr ?_
      show x.toModel.unpack.isNaN = true
      rw [hu]
      rfl
  | infinity s =>
      rw [hu] at hunsigned
      obtain rfl := hunsigned
      exact Or.inl (eq_of_unpack (hu.trans rfl))
  | zero s | finite s m e hm =>
      rw [hu] at hfinite
      exact absurd rfl hfinite

end Binary64

namespace Expr

/-- The value of a tree of numbers, computed from the leaves up. -/
inductive HasValue : Expr → Float → Prop where
  | num (n : Number) : HasValue (.num n) n.value
  | sum {l r : Expr} {a b : Float} (left : HasValue l a)
      (right : HasValue r b) :
      HasValue (.sum l r) (a + b)
  | prod {l r : Expr} {a b : Float} (left : HasValue l a)
      (right : HasValue r b) :
      HasValue (.prod l r) (a * b)

def AllFinite (e : Expr) : Prop :=
  ∀ d ∈ e.subexpressions, ∃ x, d.HasValue x ∧ x.isFinite = true

variable {e l r : Expr} {x y : Float} {env : Environment}

/-! ## Values -/

theorem evaluate_eq_some : e.evaluate = some x ↔ e.HasValue x := by
  constructor
  · intro h
    induction e generalizing x with
    | num n =>
        cases h
        exact .num n
    | var v => cases h
    | sum l r ihl ihr =>
        obtain ⟨a, b, ha, hb, rfl⟩ := evaluate_sum_eq_some.mp h
        exact .sum (ihl ha) (ihr hb)
    | prod l r ihl ihr =>
        obtain ⟨a, b, ha, hb, rfl⟩ := evaluate_prod_eq_some.mp h
        exact .prod (ihl ha) (ihr hb)
  · intro h
    induction h with
    | num n => rfl
    | sum left right ihl ihr =>
        exact evaluate_sum_eq_some.mpr ⟨_, _, ihl, ihr, rfl⟩
    | prod left right ihl ihr =>
        exact evaluate_prod_eq_some.mpr ⟨_, _, ihl, ihr, rfl⟩

theorem HasValue.unique (hx : e.HasValue x) (hy : e.HasValue y) : x = y :=
  Option.some.inj
    ((evaluate_eq_some.mpr hx).symm.trans (evaluate_eq_some.mpr hy))

theorem HasValue.isNegative (h : e.HasValue x) :
    Binary64.isNegative x = false :=
  isNegative_of_evaluate (evaluate_eq_some.mpr h)

/-! ## Finite values -/

theorem self_mem_subexpressions (e : Expr) : e ∈ e.subexpressions := by
  cases e <;> simp [subexpressions]

/-- Nothing that was not finite becomes finite. -/
theorem HasValue.allFinite (h : e.HasValue x) (hx : x.isFinite = true) :
    e.AllFinite := by
  induction h with
  | num n =>
      intro d hd
      obtain rfl := List.mem_singleton.mp hd
      exact ⟨_, .num n, hx⟩
  | sum left right ihl ihr =>
      obtain ⟨ha, hb⟩ := Binary64.isFinite_of_add hx
      exact (forall_mem_subexpressions rfl).mpr
        ⟨ihl ha, ihr hb, _, .sum left right, hx⟩
  | prod left right ihl ihr =>
      obtain ⟨ha, hb⟩ := Binary64.isFinite_of_mul hx
      exact (forall_mem_subexpressions rfl).mpr
        ⟨ihl ha, ihr hb, _, .prod left right, hx⟩

theorem HasValue.allFinite_iff (h : e.HasValue x) :
    e.AllFinite ↔ x.isFinite = true := by
  constructor
  · intro hall
    obtain ⟨y, hy, hfinite⟩ := hall e e.self_mem_subexpressions
    rwa [h.unique hy]
  · exact h.allFinite

/-! ## Simplification -/

theorem exists_hasValue
    (h : ∀ v, v.name ∈ e.variableNames → ∃ n, env.get? v = some n) :
    ∃ x, (e.substitute env).HasValue x := by
  induction e with
  | num n => exact ⟨_, .num n⟩
  | var v =>
      obtain ⟨n, hn⟩ := h v (List.mem_singleton_self _)
      refine ⟨n.value, ?_⟩
      rw [substitute, hn]
      exact .num n
  | sum l r ihl ihr =>
      obtain ⟨a, ha⟩ := ihl fun v hv =>
        h v ((mem_variableNames_of_operands rfl).mpr (Or.inl hv))
      obtain ⟨b, hb⟩ := ihr fun v hv =>
        h v ((mem_variableNames_of_operands rfl).mpr (Or.inr hv))
      exact ⟨a + b, .sum ha hb⟩
  | prod l r ihl ihr =>
      obtain ⟨a, ha⟩ := ihl fun v hv =>
        h v ((mem_variableNames_of_operands rfl).mpr (Or.inl hv))
      obtain ⟨b, hb⟩ := ihr fun v hv =>
        h v ((mem_variableNames_of_operands rfl).mpr (Or.inr hv))
      exact ⟨a * b, .prod ha hb⟩

/-- A value without a sign makes a number exactly if it is finite. -/
theorem ofFloat_of_unsigned (hx : Binary64.isNegative x = false) :
    (x.isFinite = true → ∃ n, ofFloat x = .ok (num n) ∧ n.value = x) ∧
    (¬x.isFinite = true → ofFloat x = .error (.value x)) := by
  constructor
  · intro hfinite
    obtain ⟨hvalid, hzero⟩ := Binary64.isMagnitude_iff.mp ⟨hfinite, hx⟩
    obtain ⟨n, hn, hvalue⟩ := Number.ofFloat_of_valid hvalid
    rw [if_neg hzero] at hvalue
    refine ⟨n, ?_, hvalue⟩
    rw [ofFloat, hn]
    rfl
  · intro hfinite
    rw [ofFloat, Number.ofFloat_of_invalid fun hvalid => hfinite hvalid.1]
    rfl

/-- **Overflow shows.** In an environment that binds all variables, an
expression has a value. It is simplified to a number exactly if every
subexpression has a finite value after substitution, and then to the value of
the whole. Otherwise that value is reported, and it is positive infinity or
not a number. -/
theorem simplify_overflow
    (h : ∀ v, v.name ∈ e.variableNames → ∃ n, env.get? v = some n) :
    ∃ x, (e.substitute env).HasValue x ∧
      ((∃ n, e.simplify env = .ok (num n)) ↔ (e.substitute env).AllFinite) ∧
      (∀ n, e.simplify env = .ok (num n) → n.value = x) ∧
      (¬(e.substitute env).AllFinite → e.simplify env = .error (.value x) ∧
        (x = Binary64.infinity ∨ x.isNaN = true)) := by
  obtain ⟨x, hx⟩ := exists_hasValue h
  rw [simplify_of_evaluate (evaluate_eq_some.mpr hx), hx.allFinite_iff]
  obtain ⟨hfinite, hinfinite⟩ := ofFloat_of_unsigned hx.isNegative
  refine ⟨x, hx, ⟨?_, ?_⟩, ?_, ?_⟩
  · rintro ⟨n, hn⟩
    exact (exists_num_of_ofFloat hn).1
  · intro hx
    obtain ⟨n, hn, -⟩ := hfinite hx
    exact ⟨n, hn⟩
  · intro n hn
    obtain ⟨m, hm, hvalue⟩ := hfinite (exists_num_of_ofFloat hn).1
    rw [hm] at hn
    obtain rfl := Expr.num.inj (Except.ok.inj hn)
    exact hvalue
  · intro hnot
    exact ⟨hinfinite hnot, Binary64.eq_infinity_or_isNaN hx.isNegative hnot⟩

/-- A square that is too large is not a number any more when it is multiplied
by zero. -/
theorem simplify_overflow_zero :
    let huge : Number :=
      ⟨1e300, by decide +kernel, by decide +kernel, by decide +kernel⟩
    let x : Variable := ⟨"x", by decide⟩
    let e := prod (num .zero) (prod (var x) (var x))
    ∃ w, e.simplify (.ofList [(x, huge)]) = .error (.value w) ∧
      w.isNaN = true := by
  intro huge x e
  have hbound : ∀ v, v.name ∈ e.variableNames →
      ∃ n, (Environment.ofList [(x, huge)]).get? v = some n := by
    intro v hv
    obtain ⟨u, hu, hname⟩ := mem_variableNames.mp hv
    have hux : u = x := by simpa [e, subexpressions] using hu
    rw [← Variable.eq_of_name hname, hux]
    exact ⟨huge, rfl⟩
  obtain ⟨w, hw, -, -, herror⟩ := simplify_overflow hbound
  have hvalue : (e.substitute (.ofList [(x, huge)])).HasValue
      (Number.zero.value * (huge.value * huge.value)) :=
        .prod (.num _) (.prod (.num _) (.num _))
  obtain rfl := hw.unique hvalue
  refine ⟨_, (herror ?_).1, by decide +kernel⟩
  rw [hvalue.allFinite_iff]
  decide +kernel

end Expr

end PolyAlgebra
