import Mathlib
import PolyAlgebra.Proofs.Doubles

/-!
# What makes a leaf

The value of a number is a magnitude: a finite double without a sign. Among the
doubles that are finite and not below zero only negative zero is none, and it
makes the number zero. The name of a variable is a word of letters. This module
says which values and names make which leaves, and that the double nearest to a
decimal has no sign.
-/

open Float.Model Float.Model.UnpackedFloat

namespace PolyAlgebra

/-! ## Magnitudes -/

/-- A finite double whose sign bit is clear. -/
structure IsMagnitude (x : Float) : Prop where
  finite : x.isFinite = true
  unsigned : Binary64.isNegative x = false

namespace Binary64

variable {x : Float}

theorem zero_le_unpacked {u : UnpackedFloat} (hfinite : u.isFinite = true)
    (hu : Unsigned u) : UnpackedFloat.le (.zero .positive) u = true := by
  cases u with
  | notANumber | infinity s => cases hfinite
  | zero s => rfl
  | finite s m e hm =>
      cases hu
      rfl

theorem zero_le_of_isMagnitude (h : IsMagnitude x) : 0 ≤ x := by
  have hunsigned : Unsigned x.toModel.unpack :=
    unsigned_unpack (isNegative_eq_false.mp h.unsigned)
  exact decide_eq_true (zero_le_unpacked h.finite hunsigned)

theorem isNegative_of_negativeZeroBits (h : x.toBits = negativeZeroBits) :
    isNegative x = true := by
  rw [isNegative, h]
  decide

/-- Only negative zero is finite and not below zero and yet has a sign. -/
theorem isMagnitude_iff :
    IsMagnitude x ↔
      (x.isFinite = true ∧ 0 ≤ x) ∧ x.toBits ≠ negativeZeroBits := by
  constructor
  · intro h
    refine ⟨⟨h.finite, zero_le_of_isMagnitude h⟩, fun hz => ?_⟩
    have hneg := isNegative_of_negativeZeroBits hz
    rw [h.unsigned] at hneg
    cases hneg
  · rintro ⟨⟨hfinite, hle⟩, hz⟩
    exact ⟨hfinite, isNegative_value ⟨x, hfinite, hle, hz⟩⟩

theorem isNegative_ofBits {bits : UInt64} (h : bits.toNat < signSpan) :
    isNegative (Float.ofBits bits) = false := by
  rw [isNegative_eq_false]
  refine unpackSign_pack (unsigned_unpack ?_)
  apply BitVec.eq_of_toNat_eq
  rw [toNat_unpackSign]
  exact Nat.div_eq_of_lt h

end Binary64

/-- Zero is neutral, but that it takes the sign from another zero. -/
theorem Binary64.add_zero_unpacked {u : UnpackedFloat}
    (h : u ≠ .zero .negative) :
    UnpackedFloat.add Format.binary64 u (.zero .positive) = u := by
  cases u with
  | notANumber => rfl
  | infinity s => cases s <;> rfl
  | zero s =>
      cases s with
      | negative => exact absurd rfl h
      | positive => rfl
  | finite s m e hm => rfl

theorem Decimal.isNegative_toFloat (d : Decimal) :
    Binary64.isNegative d.toFloat = false := by
  have hle : d.nearestBits ≤ Binary64.infinityBits := Nat.min_le_right _ _
  have hlt : d.nearestBits < Binary64.signSpan :=
    Nat.lt_of_le_of_lt hle (by decide)
  apply Binary64.isNegative_ofBits
  rw [Nat.toUInt64, UInt64.toNat_ofNat']
  exact Nat.lt_of_le_of_lt (Nat.mod_le _ _) hlt

/-! ## Numbers -/

namespace Number

variable {x : Float} {n m : Number}

theorem eq_of_value (h : n.value = m.value) : n = m := by
  cases n
  cases m
  cases h
  rfl

/-- A value that is finite and not below zero makes the number with that value,
but for negative zero, which makes zero. -/
theorem ofFloat_of_valid (h : x.isFinite = true ∧ 0 ≤ x) :
    ∃ n, ofFloat x = .ok n ∧
      n.value = if x.toBits = negativeZeroBits then 0 else x := by
  rw [ofFloat, dif_pos h]
  split
  · exact ⟨zero, rfl, rfl⟩
  · exact ⟨_, rfl, rfl⟩

theorem ofFloat_of_invalid (h : ¬(x.isFinite = true ∧ 0 ≤ x)) :
    ofFloat x = .error (.value x) := dif_neg h

theorem valid_of_ofFloat (h : ofFloat x = .ok n) :
    x.isFinite = true ∧ 0 ≤ x := by
  by_contra hx
  rw [ofFloat_of_invalid hx] at h
  cases h

theorem valid_of_negativeZeroBits (h : x.toBits = negativeZeroBits) :
    x.isFinite = true ∧ 0 ≤ x := by
  rw [← Binary64.ofBits_toBits x, h]
  decide +kernel

theorem ofFloat_eq_ok :
    ofFloat x = .ok n ↔
      n.value = if x.toBits = negativeZeroBits then 0 else x := by
  have hvalid : (n.value = if x.toBits = negativeZeroBits then 0 else x) →
      x.isFinite = true ∧ 0 ≤ x := by
    intro hn
    split at hn
    · next hz => exact valid_of_negativeZeroBits hz
    · exact ⟨hn ▸ n.finite, hn ▸ n.nonneg⟩
  constructor
  · intro h
    obtain ⟨m, hm, hvalue⟩ := ofFloat_of_valid (valid_of_ofFloat h)
    obtain rfl := Except.ok.inj (h.symm.trans hm)
    exact hvalue
  · intro hn
    obtain ⟨m, hm, hvalue⟩ := ofFloat_of_valid (hvalid hn)
    rw [hm, eq_of_value (hvalue.trans hn.symm)]

/-- What makes a number is a magnitude, but for the sign at zero, which is
lost. -/
theorem isMagnitude_of_ofFloat (h : ofFloat x = .ok n) :
    IsMagnitude n.value := by
  rw [ofFloat_eq_ok.mp h]
  split
  · exact ⟨by decide, by decide⟩
  · next hz => exact Binary64.isMagnitude_iff.mpr ⟨valid_of_ofFloat h, hz⟩

theorem value_eq_add_zero (h : ofFloat x = .ok n) : n.value = x + 0 := by
  rw [ofFloat_eq_ok.mp h]
  split
  · next hz =>
      have hx : x = Float.ofBits negativeZeroBits := by
        rw [← hz, Binary64.ofBits_toBits]
      rw [hx]
      decide +kernel
  · next hz =>
      have hne : x.toModel.unpack ≠ .zero .negative := fun hx =>
        hz
          (congrArg Float.toBits
            (Binary64.eq_of_unpack (y := Float.ofBits negativeZeroBits) hx))
      have hadd : x + 0 = Float.ofModel (Float.Model.pack x.toModel.unpack) :=
        congrArg (fun u => Float.ofModel (Float.Model.pack u))
          (Binary64.add_zero_unpacked hne)
      rw [hadd]
      exact (Binary64.ofBits_toBits x).symm

end Number

/-! ## Variables -/

def IsWord (s : String) : Prop :=
  s.toList ≠ [] ∧ ∀ c ∈ s.toList, c.isAlpha = true

theorem Variable.isWord_of_ofName {s : String} {v : Variable}
    (h : ofName s = .ok v) :
    IsWord v.name := by
  unfold ofName at h
  split at h
  · next hvalid =>
      obtain rfl := Except.ok.inj h
      exact isValidName_iff.mp hvalid
  · cases h

theorem Variable.ofName_eq_ok {s : String} {v : Variable} :
    ofName s = .ok v ↔ v.name = s := by
  constructor
  · intro h
    unfold ofName at h
    split at h
    · exact congrArg name (Except.ok.inj h).symm
    · cases h
  · rintro rfl
    exact dif_pos v.valid

end PolyAlgebra
