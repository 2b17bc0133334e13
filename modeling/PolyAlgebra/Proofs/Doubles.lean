import Mathlib
import PolyAlgebra.Number

/-!
# Doubles: their bits, and arithmetic without signs

A double is its bits: packing what its bits say gives them back, because of
the bit patterns that stand for no number only one is in use. The bits of a
number, which is finite and not below zero, are those below the bits of
infinity.

Sums and products of doubles without a sign have no sign, and what is infinite
or not a number never becomes finite again. Among finite doubles without a
sign, zero is neutral for sums of zeros and absorbs in products. Infinity
would spoil the latter, and a sign would show in the zero.
-/

open Float.Model Float.Model.UnpackedFloat

namespace PolyAlgebra.Binary64

abbrev Packed := BitVec Format.binary64.numBits

abbrev packed (x : Float) : Packed := x.toModel.toBits.toBitVec

/-! ## The fields -/

section Fields

variable (b : Packed)

theorem packed_lt : b.toNat < 2 ^ 64 := b.isLt

theorem toNat_unpackExponent :
    (unpackExponent b).toNat = b.toNat / 2 ^ 52 % 2 ^ 11 := by
  simp [unpackExponent, BitVec.extractLsb, Nat.shiftRight_eq_div_pow]

theorem toNat_unpackMantissa : (unpackMantissa b).toNat = b.toNat % 2 ^ 52 := by
  simp [unpackMantissa, BitVec.extractLsb]

theorem toNat_unpackSign : (unpackSign b).toNat = b.toNat / 2 ^ 63 := by
  have hb := packed_lt b
  simp only [unpackSign, BitVec.extractLsb, BitVec.toNat_cast,
    BitVec.extractLsb'_toNat, Nat.shiftRight_eq_div_pow]
  exact Nat.mod_eq_of_lt (by omega)

end Fields

theorem toNat_append_eq {m n : Nat} (x : BitVec m) (y : BitVec n) :
    (x ++ y).toNat = x.toNat * 2 ^ n + y.toNat := by
  rw [BitVec.toNat_append, ← Nat.shiftLeft_add_eq_or_of_lt y.isLt,
    Nat.shiftLeft_eq]

theorem toBitVec_ofBitVec (v : BitVec 1) : (Sign.ofBitVec v).toBitVec = v := by
  revert v
  decide

theorem toNat_packComponents (s : Sign) (e : BitVec 11) (m : BitVec 52) :
    (packComponents Format.binary64 s e m).toNat =
      (s.toBitVec.toNat * 2 ^ 11 + e.toNat) * 2 ^ 52 + m.toNat := by
  rw [packComponents, toNat_append_eq, toNat_append_eq]

theorem packComponents_fields (b : Packed) :
    packComponents Format.binary64 (Sign.ofBitVec (unpackSign b))
      (unpackExponent b) (unpackMantissa b) = b := by
  apply BitVec.eq_of_toNat_eq
  have hb := packed_lt b
  rw [toNat_packComponents, toBitVec_ofBitVec, toNat_unpackSign,
    toNat_unpackExponent, toNat_unpackMantissa]
  omega

/-! ## Packing what was unpacked -/

theorem bias_eq : Format.binary64.exponentBias = 1023 := by decide

theorem mantissaBits_eq : Format.binary64.mantissaBits = 53 := by decide

theorem pack_subnormal {b : Packed} (hsub : unpackExponent b = 0#11)
    (hpos : 0 < (unpackMantissa b).toNat) :
    UnpackedFloat.pack Format.binary64 (.finite (Sign.ofBitVec (unpackSign b))
      (unpackMantissa b).toNat
      (((unpackExponent b).toNat : Int) -
        (Format.binary64.exponentBias + (52 : Nat)) + 1)
      hpos) = b := by
  have hm : (unpackMantissa b).toNat < 2 ^ 52 := (unpackMantissa b).isLt
  have hlog : (unpackMantissa b).toNat.log2 < 52 :=
    (Nat.log2_lt (Nat.ne_of_gt hpos)).mpr hm
  have hmant := mantissaBits_eq
  rw [UnpackedFloat.pack, if_neg, if_neg, BitVec.ofNat_toNat]
  · have hp := packComponents_fields b
    rw [hsub] at hp
    simpa using hp
  · omega
  · rw [hsub, bias_eq]
    decide

theorem pack_normal {b : Packed} (hinf : unpackExponent b ≠ -1#11)
    (hpos : 0 < (1#1 ++ unpackMantissa b).toNat) :
    UnpackedFloat.pack Format.binary64 (.finite (Sign.ofBitVec (unpackSign b))
      (1#1 ++ unpackMantissa b).toNat
      (((unpackExponent b).toNat : Int) -
        (Format.binary64.exponentBias + (52 : Nat)))
      hpos) = b := by
  have hm : (unpackMantissa b).toNat < 2 ^ 52 := (unpackMantissa b).isLt
  have he : (unpackExponent b).toNat < 2 ^ 11 := (unpackExponent b).isLt
  have hlt : (unpackExponent b).toNat ≠ 2047 := fun h =>
    hinf (BitVec.eq_of_toNat_eq h)
  have hone :
      (1#1 ++ unpackMantissa b).toNat = 2 ^ 52 + (unpackMantissa b).toNat := by
    rw [toNat_append_eq]
    simp
  have hlog : (1#1 ++ unpackMantissa b).toNat.log2 = 52 := by
    rw [hone, Nat.log2_eq_iff (by omega)]
    omega
  have hmant := mantissaBits_eq
  rw [UnpackedFloat.pack, if_neg, if_pos]
  · have hfraction : BitVec.ofNat 52 (1#1 ++ unpackMantissa b).toNat =
        unpackMantissa b := by
      apply BitVec.eq_of_toNat_eq
      rw [BitVec.toNat_ofNat, hone]
      omega
    have hexponent : ((((unpackExponent b).toNat : Int) -
      ((1023 : Nat) + (52 : Nat))) +
        (1023 : Nat) + (52 : Nat)).toNat = (unpackExponent b).toNat := by
      omega
    refine Eq.trans ?_ (packComponents_fields b)
    congr 1
    rw [bias_eq]
    exact (congrArg (BitVec.ofNat 11) hexponent).trans (BitVec.ofNat_toNat ..)
  · omega
  · rw [bias_eq]
    simp only [Nat.reducePow] at he ⊢
    omega

/-- What the bits of a double say is packed into them. -/
theorem pack_unpack {b : Packed} (hv : Format.binary64.Valid b) :
    UnpackedFloat.pack Format.binary64
      (UnpackedFloat.unpack Format.binary64 b) = b := by
  have hp := packComponents_fields b
  unfold UnpackedFloat.unpack
  dsimp only
  split
  · next hinf =>
      split
      · next hz =>
          rw [hinf, hz] at hp
          exact hp
      · next hz => exact (hv.eq_packedNaN hinf hz).symm
  · next hinf =>
      split
      · next hsub =>
          split
          · next hz =>
              rw [hsub, hz] at hp
              exact hp
          · exact pack_subnormal hsub _
      · exact pack_normal hinf _

theorem ofBits_toBits (x : Float) : Float.ofBits x.toBits = x := by
  obtain ⟨bits, hv⟩ := x
  simp only [Float.ofBits, Float.toBits, Float.Model.ofBits, Float.Model.pack,
    pack_unpack hv]

variable {x y : Float}

theorem eq_of_toBits (h : x.toBits = y.toBits) : x = y := by
  rw [← ofBits_toBits x, h, ofBits_toBits]

theorem eq_of_unpack (h : x.toModel.unpack = y.toModel.unpack) : x = y := by
  have hx : Float.ofModel (Float.Model.pack x.toModel.unpack) = x :=
    ofBits_toBits x
  rw [← hx, h]
  exact ofBits_toBits y

/-! ## The bits of a number -/

theorem exponent_of_isFinite {b : Packed}
    (h : (UnpackedFloat.unpack Format.binary64 b).isFinite = true) :
    unpackExponent b ≠ -1#11 := by
  intro hinf
  unfold UnpackedFloat.unpack at h
  dsimp only at h
  rw [if_pos hinf] at h
  split at h <;> cases h

/-- What is not below zero has no sign, but for negative zero. -/
theorem sign_of_nonneg {b : Packed}
    (hfin : (UnpackedFloat.unpack Format.binary64 b).isFinite = true)
    (h : UnpackedFloat.le (.zero .positive)
      (UnpackedFloat.unpack Format.binary64 b) =
      true)
    (hz : b ≠ packedZero Format.binary64 .negative) : unpackSign b = 0#1 := by
  by_contra hs
  have hneg : Sign.ofBitVec (unpackSign b) = .negative := if_neg hs
  have hp := packComponents_fields b
  unfold UnpackedFloat.unpack at h
  dsimp only at h
  rw [if_neg (exponent_of_isFinite hfin), hneg] at h
  split at h
  · next hsub =>
      split at h
      · next hm =>
          rw [hneg, hsub, hm] at hp
          exact hz hp.symm
      · cases h
  · cases h

theorem lt_infinityBits {b : Packed} (hsign : unpackSign b = 0#1)
    (hinf : unpackExponent b ≠ -1#11) : b.toNat < infinityBits := by
  have hs : (unpackSign b).toNat = 0 := by rw [hsign]; rfl
  have he : (unpackExponent b).toNat ≠ 2047 := fun h =>
    hinf (BitVec.eq_of_toNat_eq h)
  have hb := packed_lt b
  rw [toNat_unpackSign] at hs
  rw [toNat_unpackExponent] at he
  show b.toNat < 2047 * 2 ^ 52
  omega

/-- The bits of a number are below those of infinity. -/
theorem bits_lt (n : Number) : n.value.toBits.toNat < infinityBits := by
  obtain ⟨⟨⟨bits, hv⟩⟩, hfin, hle, hz⟩ := n
  have hzero : UnpackedFloat.le (.zero .positive)
      (UnpackedFloat.unpack Format.binary64 bits.toBitVec) = true :=
    of_decide_eq_true hle
  refine lt_infinityBits (sign_of_nonneg hfin hzero fun hb => hz ?_)
    (exponent_of_isFinite hfin)
  exact UInt64.toBitVec_inj.mp hb

theorem isNaN_of_isFinite (h : x.isFinite = true) : x.isNaN = false := by
  change x.toModel.unpack.isFinite = true at h
  show x.toModel.unpack.isNaN = false
  cases hu : x.toModel.unpack <;> rw [hu] at h <;> first | rfl | cases h

theorem isInf_of_isFinite (h : x.isFinite = true) : x.isInf = false := by
  change x.toModel.unpack.isFinite = true at h
  show x.toModel.unpack.isInf = false
  cases hu : x.toModel.unpack <;> rw [hu] at h <;> first | rfl | cases h

/-! ## Unpacked doubles -/

def Unsigned : UnpackedFloat → Prop
  | .infinity s | .zero s | .finite s _ _ _ => s = .positive
  | .notANumber => True

section Unpacked

variable {spec : Format} {u v : UnpackedFloat}

theorem unsigned_roundWithAccuracy (m : Nat) (e : Int) (a : Accuracy) :
    Unsigned (roundWithAccuracy spec .positive m e a) := by
  unfold roundWithAccuracy
  dsimp only
  split <;> rfl

/-- A mantissa that is not below zero is rounded without a sign. -/
theorem unsigned_normalize {m : Int} (hm : 0 ≤ m) (e : Int) :
    Unsigned (UnpackedFloat.normalize spec m e .positive) := by
  unfold UnpackedFloat.normalize
  split
  · next h => exact absurd (Int.compare_eq_lt.mp h) (by omega)
  · rfl
  · exact unsigned_roundWithAccuracy _ _ _

theorem unsigned_add (hu : Unsigned u) (hv : Unsigned v) :
    Unsigned (UnpackedFloat.add spec u v) := by
  fun_cases UnpackedFloat.add spec u v with
  | case1 | case2 | case4 => trivial
  | case3 | case5 | case7 | case10 => exact hu
  | case6 | case9 => exact hv
  | case8 => rfl
  | case11 s₁ m₁ e₁ h₁ s₂ m₂ e₂ h₂ =>
      -- both operands are finite and not zero: their mantissas are added
      cases hu
      cases hv
      exact unsigned_normalize
        (Int.add_nonneg (Int.natCast_nonneg _) (Int.natCast_nonneg _)) _

theorem unsigned_mul (hu : Unsigned u) (hv : Unsigned v) :
    Unsigned (UnpackedFloat.mul spec u v) := by
  fun_cases UnpackedFloat.mul spec u v with
  | case1 | case2 | case6 | case7 => trivial
  | case3 | case4 | case5 | case8 | case9 | case10 =>
      cases hu
      cases hv
      rfl
  | case11 =>
      cases hu
      cases hv
      exact unsigned_roundWithAccuracy _ _ _

/-- What is infinite or not a number stays so in a sum. -/
theorem isFinite_add (h : (UnpackedFloat.add spec u v).isFinite = true) :
    u.isFinite = true ∧ v.isFinite = true := by
  revert h
  fun_cases UnpackedFloat.add spec u v with
  | case1 | case2 | case3 | case4 | case5 | case6 => rintro ⟨⟩
  | case7 | case8 | case11 => exact fun _ => ⟨rfl, rfl⟩
  | case9 => exact fun hv => ⟨rfl, hv⟩
  | case10 => exact fun hu => ⟨hu, rfl⟩

theorem isFinite_mul (h : (UnpackedFloat.mul spec u v).isFinite = true) :
    u.isFinite = true ∧ v.isFinite = true := by
  revert h
  fun_cases UnpackedFloat.mul spec u v with
  | case1 | case2 | case3 | case4 | case5 | case6 | case7 => rintro ⟨⟩
  | case8 | case9 | case10 | case11 => exact fun _ => ⟨rfl, rfl⟩

theorem mul_zero_unpacked (hfinite : u.isFinite = true) (hu : Unsigned u) :
    UnpackedFloat.mul spec (.zero .positive) u = .zero .positive ∧
      UnpackedFloat.mul spec u (.zero .positive) = .zero .positive := by
  cases u with
  | notANumber | infinity s => cases hfinite
  | zero s | finite s m e hm =>
      cases hu
      exact ⟨rfl, rfl⟩

end Unpacked

/-! ## Packed doubles -/

theorem unpackSign_packComponents (s : Sign) (e : BitVec 11) (m : BitVec 52) :
    unpackSign (packComponents Format.binary64 s e m) = s.toBitVec := by
  apply BitVec.eq_of_toNat_eq
  have he : e.toNat < 2 ^ 11 := e.isLt
  have hm : m.toNat < 2 ^ 52 := m.isLt
  rw [toNat_unpackSign, toNat_packComponents]
  omega

theorem unpackSign_pack {u : UnpackedFloat} (h : Unsigned u) :
    unpackSign (UnpackedFloat.pack Format.binary64 u) = 0#1 := by
  fun_cases UnpackedFloat.pack Format.binary64 u with
  | case1 => exact unpackSign_packComponents _ _ _
  | case2 s | case3 s | case4 s | case5 s | case6 s =>
      cases h
      exact unpackSign_packComponents _ _ _

theorem unsigned_unpack {b : Packed} (h : unpackSign b = 0#1) :
    Unsigned (UnpackedFloat.unpack Format.binary64 b) := by
  have hsign : Sign.ofBitVec (unpackSign b) = .positive := by rw [h]; rfl
  unfold UnpackedFloat.unpack
  dsimp only
  rw [hsign]
  split
  · split
    · rfl
    · trivial
  · split
    · split <;> rfl
    · rfl

/-- Packing makes nothing finite. -/
theorem isFinite_unpack_pack {u : UnpackedFloat}
    (h : (UnpackedFloat.unpack Format.binary64
      (UnpackedFloat.pack Format.binary64 u)).isFinite = true) :
    u.isFinite = true := by
  cases u with
  | zero s | finite s m e hm => rfl
  | infinity s =>
      exact absurd (unpackExponent_packComponents) (exponent_of_isFinite h)
  | notANumber =>
      exact absurd (unpackExponent_packComponents) (exponent_of_isFinite h)

/-! ## Doubles -/

theorem isNegative_eq_false :
    isNegative x = false ↔ unpackSign (packed x) = 0#1 := by
  have hsign : (unpackSign (packed x)).toNat = (packed x).toNat / 2 ^ 63 :=
    toNat_unpackSign _
  rw [isNegative, decide_eq_false_iff_not, ← BitVec.toNat_inj, hsign]
  have hspan : signSpan = 2 ^ 63 := rfl
  have hbits : x.toBits.toNat = (packed x).toNat := rfl
  rw [hspan, hbits, BitVec.toNat_zero]
  omega

theorem isNegative_add (hx : isNegative x = false) (hy : isNegative y = false) :
    isNegative (x + y) = false := by
  rw [isNegative_eq_false] at *
  exact unpackSign_pack (unsigned_add (unsigned_unpack hx) (unsigned_unpack hy))

theorem isNegative_mul (hx : isNegative x = false) (hy : isNegative y = false) :
    isNegative (x * y) = false := by
  rw [isNegative_eq_false] at *
  exact unpackSign_pack (unsigned_mul (unsigned_unpack hx) (unsigned_unpack hy))

theorem isFinite_of_add (h : (x + y).isFinite = true) :
    x.isFinite = true ∧ y.isFinite = true :=
  isFinite_add (isFinite_unpack_pack h)

theorem isFinite_of_mul (h : (x * y).isFinite = true) :
    x.isFinite = true ∧ y.isFinite = true :=
  isFinite_mul (isFinite_unpack_pack h)

theorem zero_add_zero : (0 : Float) + 0 = 0 := rfl

theorem mul_zero_of_isFinite (hx : x.isFinite = true)
    (hs : isNegative x = false) :
    0 * x = 0 ∧ x * 0 = 0 := by
  have hunsigned : Unsigned x.toModel.unpack :=
    unsigned_unpack (isNegative_eq_false.mp hs)
  have hzero : UnpackedFloat.mul Format.binary64 (.zero .positive)
    x.toModel.unpack = _ ∧
    UnpackedFloat.mul Format.binary64 x.toModel.unpack (.zero .positive) = _ :=
    mul_zero_unpacked hx hunsigned
  exact ⟨congrArg (fun u => Float.ofModel (Float.Model.pack u)) hzero.1,
    congrArg (fun u => Float.ofModel (Float.Model.pack u)) hzero.2⟩

theorem isNegative_value (n : Number) : isNegative n.value = false := by
  have h := bits_lt n
  rw [isNegative, decide_eq_false_iff_not]
  have hspan : infinityBits < signSpan := by decide
  omega

end PolyAlgebra.Binary64
