import Mathlib
import PolyAlgebra.Expr.Parse
import PolyAlgebra.Proofs.Leaves

/-!
# Equality and hash codes

Expressions are compared leaf by leaf, and numbers as doubles are: by value,
not by bits. The two differ for zero, which has two signs, and for what is not
a number, which is not equal to itself. Among magnitudes neither occurs, so
that expressions over magnitudes are equal exactly if they are identical, bits
and all, and a hash code may be made from the bits.

Hash codes are words of 64 bits, and arithmetic on words wraps around. The
hash code of a number loses nothing of its bits. That of an operation is a
polynomial in the multiplier, which is odd and therefore has an inverse among
the words: each of the operation and the two operands' codes can be recovered
from the other two and the result. Exchanging the operands moves the
difference of their codes from one coefficient to the other, that is by a
multiple of one less than the multiplier. That number is even, but not
divisible by four, so the exchange goes unnoticed exactly if the operands'
codes agree in all bits but the highest.
-/

open Float.Model Float.Model.UnpackedFloat

namespace PolyAlgebra

/-! ## Doubles -/

namespace Binary64

variable {u v : UnpackedFloat}

theorem beq_unpacked_self (hu : u.isNaN = false) :
    UnpackedFloat.beq u u = true := by
  cases u with
  | notANumber => cases hu
  | infinity s => cases s <;> rfl
  | zero s => rfl
  | finite s m e hm =>
      cases s <;> simp [UnpackedFloat.beq, UnpackedFloat.compare]

/-- What is finite, has no sign and compares equal is the same. -/
theorem eq_of_beq_unpacked (hu : u.isFinite = true) (hv : v.isFinite = true)
    (su : Unsigned u) (sv : Unsigned v) (h : UnpackedFloat.beq u v = true) :
    u = v := by
  cases u with
  | notANumber | infinity s => cases hu
  | zero s =>
      cases v with
      | notANumber | infinity s' => cases hv
      | zero s' =>
          cases su
          cases sv
          rfl
      | finite s' m e hm =>
          cases sv
          cases h
  | finite s m e hm =>
      cases v with
      | notANumber | infinity s' => cases hv
      | zero s' =>
          cases su
          cases h
      | finite s' m' e' hm' =>
          cases su
          cases sv
          -- exponents are compared first, then mantissas
          have hthen : (compare e e').then (compare m m') = .eq :=
            Option.some.inj (eq_of_beq h)
          rw [Ordering.then_eq_eq, Int.compare_eq_eq,
            Nat.compare_eq_eq] at hthen
          obtain ⟨rfl, rfl⟩ := hthen
          rfl

/-- Only what is not a number differs from itself. -/
theorem beq_self {x : Float} (hx : x.isNaN = false) : (x == x) = true :=
  beq_unpacked_self hx

end Binary64

theorem IsMagnitude.beq_iff {x y : Float} (hx : IsMagnitude x)
    (hy : IsMagnitude y) :
    (x == y) = true ↔ x.toBits = y.toBits := by
  constructor
  · intro h
    have hunpack : x.toModel.unpack = y.toModel.unpack :=
      Binary64.eq_of_beq_unpacked hx.finite hy.finite
        (Binary64.unsigned_unpack (Binary64.isNegative_eq_false.mp hx.unsigned))
        (Binary64.unsigned_unpack (Binary64.isNegative_eq_false.mp hy.unsigned))
          h
    rw [Binary64.eq_of_unpack hunpack]
  · intro h
    rw [Binary64.eq_of_toBits h]
    exact Binary64.beq_self (Binary64.isNaN_of_isFinite hy.finite)

/-! ## Expressions -/

namespace Expr

def Sound : Expr → Prop
  | num n => IsMagnitude n.value
  | var v => IsWord v.name
  | sum l r | prod l r => l.Sound ∧ r.Sound

/-- The expressions have the same shape, the same names and numbers of the
same bits. -/
inductive Identical : Expr → Expr → Prop where
  | num {n m : Number} (bits : n.value.toBits = m.value.toBits) :
      Identical (.num n) (.num m)
  | var {v w : Variable} (name : v.name = w.name) : Identical (.var v) (.var w)
  | sum {l r l' r' : Expr} (left : Identical l l') (right : Identical r r') :
      Identical (.sum l r) (.sum l' r')
  | prod {l r l' r' : Expr} (left : Identical l l') (right : Identical r r') :
      Identical (.prod l r) (.prod l' r')

variable {a b : Expr}

theorem Identical.refl (a : Expr) : a.Identical a := by
  induction a with
  | num n => exact .num rfl
  | var v => exact .var rfl
  | sum l r ihl ihr => exact .sum ihl ihr
  | prod l r ihl ihr => exact .prod ihl ihr

theorem Identical.eq (h : a.Identical b) : a = b := by
  induction h with
  | num bits => rw [Number.eq_of_value (Binary64.eq_of_toBits bits)]
  | var name => rw [Variable.eq_of_name name]
  | sum left right ihl ihr | prod left right ihl ihr => rw [ihl, ihr]

/-- Sound expressions are equal exactly if they are identical. -/
theorem beq_iff_identical (ha : a.Sound) (hb : b.Sound) :
    (a == b) = true ↔ a.Identical b := by
  induction a generalizing b with
  | num n =>
      cases b with
      | num m =>
          have hbeq : (n.value == m.value) = true ↔ _ :=
            IsMagnitude.beq_iff ha hb
          exact ⟨fun h => .num (hbeq.mp h), fun | .num bits => hbeq.mpr bits⟩
      | _ => exact iff_of_false (by rintro ⟨⟩) (by rintro ⟨⟩)
  | var v =>
      cases b with
      | var w =>
          constructor
          · intro h
            have hvw : v = w := eq_of_beq h
            exact .var (congrArg Variable.name hvw)
          · rintro ⟨⟩
            · next name =>
                rw [Variable.eq_of_name name]
                exact beq_self_eq_true w
      | _ => exact iff_of_false (by rintro ⟨⟩) (by rintro ⟨⟩)
  | sum l r ihl ihr =>
      cases b with
      | sum l' r' =>
          show (l == l' && r == r') = true ↔ _
          rw [Bool.and_eq_true, ihl ha.1 hb.1, ihr ha.2 hb.2]
          exact ⟨fun ⟨hl, hr⟩ => .sum hl hr, fun | .sum hl hr => ⟨hl, hr⟩⟩
      | _ => exact iff_of_false (by rintro ⟨⟩) (by rintro ⟨⟩)
  | prod l r ihl ihr =>
      cases b with
      | prod l' r' =>
          show (l == l' && r == r') = true ↔ _
          rw [Bool.and_eq_true, ihl ha.1 hb.1, ihr ha.2 hb.2]
          exact ⟨fun ⟨hl, hr⟩ => .prod hl hr, fun | .prod hl hr => ⟨hl, hr⟩⟩
      | _ => exact iff_of_false (by rintro ⟨⟩) (by rintro ⟨⟩)

theorem beq_iff_eq (ha : a.Sound) (hb : b.Sound) : (a == b) = true ↔ a = b := by
  rw [beq_iff_identical ha hb]
  constructor
  · exact Identical.eq
  · rintro rfl
    exact .refl a

end Expr

/-! ## Hash codes of numbers -/

theorem involutive_fold :
    Function.Involutive fun bits : UInt64 => bits ^^^ (bits >>> 32) := by
  intro bits
  have hout : (bits >>> 32) >>> 32 = 0 := by
    apply UInt64.toBitVec_inj.mp
    have hwide : bits.toBitVec >>> (32 + 32) = 0#64 :=
      BitVec.ushiftRight_eq_zero (by decide)
    rwa [BitVec.shiftRight_add] at hwide
  calc
    bits ^^^ (bits >>> 32) ^^^ ((bits ^^^ (bits >>> 32)) >>> 32) =
        bits ^^^
          ((bits >>> 32) ^^^ ((bits >>> 32) ^^^ ((bits >>> 32) >>> 32))) := by
      rw [UInt64.shiftRight_xor, UInt64.xor_assoc]
    _ = bits := by
      rw [hout, UInt64.xor_zero, UInt64.xor_self, UInt64.xor_zero]

theorem Number.isMagnitude (n : Number) : IsMagnitude n.value :=
  ⟨n.finite, Binary64.isNegative_value n⟩

/-- Numbers have the same hash code exactly if they are equal. -/
theorem Number.hashCode_eq_iff {a b : Number} :
    a.hashCode = b.hashCode ↔ (a == b) = true := by
  have hbits : a.hashCode = b.hashCode ↔ a.value.toBits = b.value.toBits :=
    involutive_fold.injective.eq_iff
  rw [hbits]
  exact (IsMagnitude.beq_iff a.isMagnitude b.isMagnitude).symm

/-! ## Hash codes of operations -/

def OperatorKind.hashTag : OperatorKind → UInt64
  | add => 1
  | mul => 2

namespace Expr

variable {tag tag' left left' right right' : UInt64}

theorem hashCode_apply (kind : OperatorKind) (l r : Expr) :
    (kind.apply l r).hashCode =
      combineHash kind.hashTag l.hashCode r.hashCode := by
  cases kind <;> rfl

/-- The multiplier has an inverse. -/
theorem mul_multiplier_inj {a b : UInt64} : a * 31 = b * 31 ↔ a = b := by
  constructor
  · intro h
    have hinverse : (31 : UInt64) * 0xef7bdef7bdef7bdf = 1 := by decide
    have hcancel :
        a * 31 * 0xef7bdef7bdef7bdf = b * 31 * 0xef7bdef7bdef7bdf := by
      rw [h]
    rwa [UInt64.mul_assoc, UInt64.mul_assoc, hinverse, UInt64.mul_one,
      UInt64.mul_one] at hcancel
  · rintro rfl
    rfl

theorem combineHash_tag_inj :
    combineHash tag left right = combineHash tag' left right ↔ tag = tag' := by
  rw [combineHash, combineHash, UInt64.add_left_inj, mul_multiplier_inj,
    UInt64.add_left_inj, mul_multiplier_inj]

theorem combineHash_left_inj :
    combineHash tag left right = combineHash tag left' right ↔
      left = left' := by
  rw [combineHash, combineHash, UInt64.add_left_inj, mul_multiplier_inj,
    UInt64.add_right_inj]

theorem combineHash_right_inj :
    combineHash tag left right = combineHash tag left right' ↔
      right = right' := by
  rw [combineHash, combineHash, UInt64.add_right_inj]

/-- The part that depends on the order of the codes is the left one, times one
less than the multiplier. -/
theorem combineHash_eq (tag left right : UInt64) :
    combineHash tag left right = tag * 961 + (left + right) + left * 30 := by
  unfold combineHash
  grind

/-- Times thirty, words are the same exactly if they agree in all bits but the
highest: one is lost to the factor two, and the factor fifteen loses none. -/
theorem mul_thirty_eq_iff {a b : UInt64} :
    a * 30 = b * 30 ↔ a.toNat ≡ b.toNat [MOD 2 ^ 63] := by
  have hnat : a * 30 = b * 30 ↔ a.toNat * 30 ≡ b.toNat * 30 [MOD 2 ^ 64] := by
    rw [← UInt64.toNat_inj, UInt64.toNat_mul, UInt64.toNat_mul]
    rfl
  rw [hnat]
  constructor
  · intro h
    exact h.cancel_right_div_gcd (by decide)
  · intro h
    have hdouble : a.toNat * 2 ≡ b.toNat * 2 [MOD 2 ^ 64] := h.mul_right' 2
    simpa [Nat.mul_assoc] using hdouble.mul_right 15

theorem combineHash_swap :
    combineHash tag left right = combineHash tag right left ↔
      left.toNat ≡ right.toNat [MOD 2 ^ 63] := by
  rw [combineHash_eq, combineHash_eq tag right, UInt64.add_comm right left,
    UInt64.add_right_inj, mul_thirty_eq_iff]

/-- **Hash codes.** A sum and a product of the same operands have different
hash codes. An operation has the same one with its operands exchanged exactly
if the operands' codes are congruent modulo `2 ^ 63`. If one operand is
replaced, the code changes exactly if that of the operand does. And numbers
have the same code exactly if they are equal. -/
theorem hashCode_distinguishes (l r : Expr) :
    (sum l r).hashCode ≠ (prod l r).hashCode ∧
    (∀ kind : OperatorKind, (kind.apply l r).hashCode =
      (kind.apply r l).hashCode ↔
      l.hashCode.toNat ≡ r.hashCode.toNat [MOD 2 ^ 63]) ∧
    (∀ (kind : OperatorKind) (l' : Expr),
      (kind.apply l' r).hashCode ≠ (kind.apply l r).hashCode ↔
        l'.hashCode ≠ l.hashCode) ∧
    (∀ (kind : OperatorKind) (r' : Expr),
      (kind.apply l r').hashCode ≠ (kind.apply l r).hashCode ↔
        r'.hashCode ≠ r.hashCode) ∧
    ∀ a b : Number, a.hashCode = b.hashCode ↔ (a == b) = true := by
  refine ⟨?_, ?_, ?_, ?_, ?_⟩
  · intro h
    have htag : (1 : UInt64) = 2 := combineHash_tag_inj.mp h
    exact absurd htag (by decide)
  · intro kind
    rw [hashCode_apply, hashCode_apply, combineHash_swap]
  · intro kind l'
    rw [hashCode_apply, hashCode_apply, ne_eq, combineHash_left_inj]
  · intro kind r'
    rw [hashCode_apply, hashCode_apply, ne_eq, combineHash_right_inj]
  · intro a b
    exact Number.hashCode_eq_iff

/-- Two different names have one hash code, and their order in a sum goes
unnoticed. -/
example : (sum (var ⟨"Aa", by decide⟩) (var ⟨"BB", by decide⟩)).hashCode =
    (sum (var ⟨"BB", by decide⟩) (var ⟨"Aa", by decide⟩)).hashCode := by decide

end Expr

end PolyAlgebra
