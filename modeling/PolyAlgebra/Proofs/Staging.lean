import PolyAlgebra.Proofs.PostOrder

/-!
# Simplifying in stages

To simplify an expression ends in one of three ways: with a tree that keeps
its shape, with a single number, or with a value that is no number. In stages,
each stage has its own end. All the same it does not matter whether bindings
are put in one after the other or at once, because a stage that evaluates
leaves nothing for a later one to replace.

An environment is known by what is found in it: what is found after a binding
was made, and what is found in an environment that was laid over another one.
-/

namespace PolyAlgebra

/-! ## Looking up bindings -/

namespace Bindings

def find (b : Bindings) (v : Variable) : Option Number :=
  (b.find? fun p => p.1 == v).map Prod.snd

theorem find_cons (w v : Variable) (m : Number) (rest : Bindings) :
    find ((w, m) :: rest) v = if w = v then some m else find rest v := by
  by_cases h : w = v <;> simp [find, h]

theorem find_insert (v w : Variable) (n : Number) (b : Bindings) :
    find (b.insert v n).2 w = if v = w then some n else find b w := by
  induction b with
  | nil => simp [insert, find_cons]
  | cons p rest ih =>
      obtain ⟨u, m⟩ := p
      rw [insert]
      split
      · exact find_cons v w n _
      · split
        · next heq =>
            obtain rfl := Variable.eq_of_name heq
            rw [find_cons, find_cons]
            split <;> rfl
        · next hne =>
            simp only [find_cons, ih]
            by_cases hu : u = w
            · have hv : v ≠ w := by
                rintro rfl
                exact hne (congrArg Variable.name hu.symm)
              rw [if_pos hu, if_neg hv, if_pos hu]
            · rw [if_neg hu, if_neg hu]

theorem InOrder.insert_fst {b : Bindings} (h : b.InOrder) (v : Variable)
    (n : Number) :
    (b.insert v n).1 = b.find v := by
  induction b with
  | nil => rfl
  | cons p rest ih =>
      obtain ⟨w, m⟩ := p
      obtain ⟨hw, hrest⟩ := List.pairwise_cons.mp h
      rw [Bindings.insert, find_cons]
      split
      · next hlt =>
          -- all names behind are even larger
          have hnone : rest.find? (fun p => p.1 == v) = none := by
            rw [List.find?_eq_none]
            intro p hp hpv
            rw [beq_iff_eq] at hpv
            have hvp : v.name < p.1.name := String.lt_trans hlt (hw p hp)
            rw [hpv] at hvp
            exact String.lt_irrefl _ hvp
          have hne : w ≠ v := by
            rintro rfl
            exact String.lt_irrefl _ hlt
          rw [if_neg hne, find, hnone]
          rfl
      · split
        · next heq => rw [if_pos (Variable.eq_of_name heq).symm]
        · next hne =>
            rw [if_neg fun heq => hne (congrArg Variable.name heq.symm)]
            exact ih hrest

end Bindings

namespace Environment

theorem get?_eq_find (env : Environment) (v : Variable) :
    env.get? v = env.bindings.find v := rfl

theorem lookup?_name (env : Environment) (v : Variable) :
    env.lookup? v.name = env.get? v := by
  have hkey : (fun b : Variable × Number => b.1.name == v.name) = fun b =>
      b.1 == v := by
    funext b
    rw [Bool.eq_iff_iff, beq_iff_eq, beq_iff_eq]
    exact ⟨Variable.eq_of_name, congrArg Variable.name⟩
  rw [lookup?, get?, hkey]

@[simp] theorem get?_insert (env : Environment) (v w : Variable) (n : Number) :
    (env.insert v n).2.get? w = if v = w then some n else env.get? w :=
  Bindings.find_insert v w n env.bindings

theorem insert_fst (env : Environment) (v : Variable) (n : Number) :
    (env.insert v n).1 = env.get? v :=
  env.inOrder.insert_fst v n

/-- Bindings that are made from the last one on: the first ones win. -/
theorem get?_foldr_insert (b : Bindings) (lower : Environment) (v : Variable) :
    (b.foldr (fun b env => (env.insert b.1 b.2).2) lower).get? v =
      (b.find v).or (lower.get? v) := by
  induction b with
  | nil => rfl
  | cons p rest ih =>
      obtain ⟨w, m⟩ := p
      rw [List.foldr_cons, get?_insert, ih, Bindings.find_cons]
      split <;> rfl

/-- The environment with the bindings of two, where those of the upper one
win. -/
def orElse (upper lower : Environment) : Environment :=
  upper.bindings.foldr (fun b env => (env.insert b.1 b.2).2) lower

/-- What the upper environment does not bind is looked up in the lower one. -/
theorem get?_orElse (upper lower : Environment) (v : Variable) :
    (upper.orElse lower).get? v = (upper.get? v).or (lower.get? v) :=
  get?_foldr_insert upper.bindings lower v

theorem get?_ofList (b : Bindings) (v : Variable) :
    (ofList b).get? v = Bindings.find b.reverse v := by
  have hfoldr :
      ofList b = b.reverse.foldr (fun b env => (env.insert b.1 b.2).2) empty :=
    List.foldr_reverse.symm
  rw [hfoldr, get?_foldr_insert]
  exact Option.or_none

end Environment

@[simp] theorem Number.ofFloat_value (n : Number) :
    ofFloat n.value = .ok n := by
  rw [ofFloat, dif_pos ⟨n.finite, n.nonneg⟩, dif_neg n.ne_negativeZero]

namespace Expr

variable {e : Expr} {env env₁ env₂ : Environment} {value : Float}

/-! ## Substitution -/

/-- Only the variables that occur are looked up. -/
theorem substitute_congr
    (h : ∀ v, v.name ∈ e.variableNames → env₁.get? v = env₂.get? v) :
    e.substitute env₁ = e.substitute env₂ := by
  induction e with
  | num n => rfl
  | var v => rw [substitute, substitute, h v (List.mem_singleton_self _)]
  | sum l r ihl ihr | prod l r ihl ihr =>
      rw [substitute, substitute,
        ihl fun v hv =>
          h v ((mem_variableNames_of_operands rfl).mpr (Or.inl hv)),
        ihr fun v hv =>
          h v ((mem_variableNames_of_operands rfl).mpr (Or.inr hv))]

/-- What the first environment leaves in place is looked up in the second. -/
theorem substitute_substitute (e : Expr) (env₁ env₂ : Environment) :
    (e.substitute env₁).substitute env₂ = e.substitute (env₁.orElse env₂) := by
  induction e with
  | num n => rfl
  | var v =>
      simp only [substitute, Environment.get?_orElse]
      cases h : env₁.get? v with
      | none => rw [substitute, Option.none_or]
      | some n => rw [substitute, Option.some_or]
  | sum l r ihl ihr | prod l r ihl ihr =>
      rw [substitute, substitute, substitute, ihl, ihr]

theorem both_eq_some {f : Float → Float → Float} {x y : Option Float} :
    (match x, y with
      | some a, some b => some (f a b)
      | _, _ => none) = some value ↔
      ∃ a b, x = some a ∧ y = some b ∧ f a b = value := by
  cases x <;> cases y <;> simp

theorem evaluate_sum_eq_some {l r : Expr} :
    (sum l r).evaluate = some value ↔
      ∃ a b, l.evaluate = some a ∧ r.evaluate = some b ∧ a + b = value := by
  rw [evaluate]
  exact both_eq_some

theorem evaluate_prod_eq_some {l r : Expr} :
    (prod l r).evaluate = some value ↔
      ∃ a b, l.evaluate = some a ∧ r.evaluate = some b ∧ a * b = value := by
  rw [evaluate]
  exact both_eq_some

/-- Where a value can be computed, there is nothing left to replace. -/
theorem substitute_of_evaluate (h : e.evaluate = some value)
    (env : Environment) :
    e.substitute env = e := by
  induction e generalizing value with
  | num n => rfl
  | var v => cases h
  | sum l r ihl ihr =>
      obtain ⟨a, b, ha, hb, -⟩ := evaluate_sum_eq_some.mp h
      rw [substitute, ihl ha, ihr hb]
  | prod l r ihl ihr =>
      obtain ⟨a, b, ha, hb, -⟩ := evaluate_prod_eq_some.mp h
      rw [substitute, ihl ha, ihr hb]

/-! ## Simplification -/

theorem simplify_of_evaluate (h : (e.substitute env).evaluate = some value) :
    e.simplify env = ofFloat value := by
  rw [simplify, h]

theorem simplify_of_open (h : (e.substitute env).evaluate = none) :
    e.simplify env = .ok (e.substitute env) := by
  rw [simplify, h]

/-- To simplify depends on the substituted tree alone. -/
theorem simplify_of_substitute {e' : Expr}
    (h : e.substitute env₁ = e'.substitute env₂) :
    e.simplify env₁ = e'.simplify env₂ := by
  rw [simplify, simplify, h]

theorem simplify_num (n : Number) (env : Environment) :
    (num n).simplify env = .ok (num n) := by
  have h : ((num n).substitute env).evaluate = some n.value := rfl
  rw [simplify_of_evaluate h, ofFloat, Number.ofFloat_value]
  rfl

/-- A number that was just made stays as it is, and a value that is none fails
before anything else happens. -/
theorem ofFloat_bind_simplify (x : Float) (env : Environment) :
    (ofFloat x).bind (fun e' => e'.simplify env) = ofFloat x := by
  rw [ofFloat]
  cases Number.ofFloat x with
  | error f => rfl
  | ok n => exact simplify_num n env

/-- To simplify in stages is to simplify at once. -/
theorem simplify_bind_simplify (e : Expr) (env₁ env₂ : Environment) :
    (e.simplify env₁).bind (fun e' => e'.simplify env₂) =
      e.simplify (env₁.orElse env₂) := by
  cases h : (e.substitute env₁).evaluate with
  | none =>
      rw [simplify_of_open h]
      exact simplify_of_substitute (substitute_substitute e env₁ env₂)
  | some value =>
      -- the first stage evaluates, and the single run to the same value
      have hboth : (e.substitute (env₁.orElse env₂)).evaluate = some value := by
        rw [← substitute_substitute, substitute_of_evaluate h, h]
      rw [simplify_of_evaluate h, simplify_of_evaluate hboth]
      exact ofFloat_bind_simplify value env₂

theorem simplify_congr
    (h : ∀ v, v.name ∈ e.variableNames → env₁.get? v = env₂.get? v) :
    e.simplify env₁ = e.simplify env₂ :=
  simplify_of_substitute (substitute_congr h)

/-- **Substitution can be staged.** Bindings put in one after the other give
the same result as all of them at once, where those put in first win; the
result is a tree, a number or the same invalid value. So environments with
different variables can be put in in either order, a result is simple already,
and only the variables that occur matter. -/
theorem simplify_staged (e : Expr) (env₁ env₂ : Environment) :
    (∀ v, (env₁.orElse env₂).get? v = (env₁.get? v).or (env₂.get? v)) ∧
    (∀ both : Environment, (∀ v, both.get? v = (env₁.get? v).or (env₂.get? v)) →
      (e.simplify env₁).bind (fun e' => e'.simplify env₂) = e.simplify both) ∧
    ((∀ v, env₁.get? v = none ∨ env₂.get? v = none) →
      (e.simplify env₁).bind (fun e' => e'.simplify env₂) =
        (e.simplify env₂).bind fun e' => e'.simplify env₁) ∧
    (∀ e', e.simplify env₁ = .ok e' → e'.simplify env₁ = .ok e') ∧
    ((∀ v, v.name ∈ e.variableNames → env₁.get? v = env₂.get? v) →
      e.simplify env₁ = e.simplify env₂) := by
  refine ⟨env₁.get?_orElse env₂, ?_, ?_, ?_, simplify_congr⟩
  · intro both hboth
    rw [simplify_bind_simplify]
    apply simplify_congr
    intro v _
    rw [Environment.get?_orElse, hboth]
  · intro hdisjoint
    rw [simplify_bind_simplify, simplify_bind_simplify]
    apply simplify_congr
    intro v _
    rw [Environment.get?_orElse, Environment.get?_orElse]
    rcases hdisjoint v with h | h
    · rw [h, Option.none_or, Option.or_none]
    · rw [h, Option.none_or, Option.or_none]
  · intro e' he'
    have htwice := simplify_bind_simplify e env₁ env₁
    have hself : e.simplify (env₁.orElse env₁) = e.simplify env₁ := by
      apply simplify_congr
      intro v _
      rw [Environment.get?_orElse, Option.or_self]
    rw [hself, he'] at htwice
    exact htwice

/-- What is bound twice keeps the first of its numbers. -/
theorem simplify_staged_bound_twice :
    ((sum (var ⟨"x", by decide⟩) (var ⟨"y", by decide⟩)).simplify
      (.ofList [(⟨"x", by decide⟩, .one)])).bind (fun e' => e'.simplify
        (.ofList [(⟨"x", by decide⟩, .zero), (⟨"y", by decide⟩, .one)])) =
      ofFloat 2 := by
  obtain ⟨hboth, hstaged, -⟩ := simplify_staged
    (sum (var ⟨"x", by decide⟩) (var ⟨"y", by decide⟩))
    (.ofList [(⟨"x", by decide⟩, .one)])
    (.ofList [(⟨"x", by decide⟩, .zero), (⟨"y", by decide⟩, .one)])
  exact (hstaged _ hboth).trans (simplify_of_evaluate (by decide +kernel))

end Expr

end PolyAlgebra
