import PolyAlgebra.Proofs.Doubles

/-!
# Numerals read back

A decimal that is written as a numeral is read back as a decimal of the same
value, and the canonical text of a number is a numeral whose nearest double is
the number. Rounding to the nearest double depends on the ratio of its
arguments only, and a ratio that is the value of a double is rounded to that
double.
-/

namespace PolyAlgebra

namespace Binary64

theorem fractionSpan_eq : fractionSpan = 2 ^ 52 := rfl

/-! ## Ratios -/

theorem roundQuotient_mul_left {k : Nat} (hk : 0 < k) (a b : Nat) :
    roundQuotient (k * a) (k * b) = roundQuotient a b := by
  have hcompare : compare (2 * (k * (a % b))) (k * b) =
      compare (2 * (a % b)) b := by
    rw [Nat.mul_left_comm, Nat.compare_eq_ite_lt, Nat.compare_eq_ite_lt]
    simp only [Nat.mul_lt_mul_left hk]
  rw [roundQuotient, roundQuotient, Nat.mul_div_mul_left _ _ hk,
    Nat.mul_mod_mul_left, hcompare]

theorem nearestBits_mul_left {k : Nat} (hk : 0 < k) (num den : Nat) :
    nearestBits (k * num) (k * den) = nearestBits num den := by
  rw [nearestBits, nearestBits, Nat.mul_assoc k, Nat.mul_assoc k,
    Nat.mul_div_mul_left _ _ hk, roundQuotient_mul_left hk]

/-- Equal ratios are rounded to the same double. -/
theorem nearestBits_congr {num den num' den' : Nat} (hd : 0 < den)
    (hd' : 0 < den') (h : num * den' = num' * den) :
    nearestBits num den = nearestBits num' den' := by
  rw [← nearestBits_mul_left hd' num den, ← nearestBits_mul_left hd num' den',
    Nat.mul_comm den' num, h, Nat.mul_comm num' den, Nat.mul_comm den' den]

theorem roundQuotient_mul_self (q : Nat) {b : Nat} (hb : 0 < b) :
    roundQuotient (q * b) b = q := by
  have hcompare : compare (2 * (q * b % b)) b = .lt := by
    rw [Nat.mul_mod_left]
    exact Nat.compare_eq_lt.mpr hb
  rw [roundQuotient, hcompare, Nat.mul_div_cancel q hb]

/-! ## Values of doubles -/

theorem log2_mul_two_pow {n : Nat} (hn : n ≠ 0) (k : Nat) :
    (n * 2 ^ k).log2 = n.log2 + k := by
  induction k with
  | zero => rw [Nat.pow_zero, Nat.mul_one, Nat.add_zero]
  | succ k ih =>
      have hpos : n * 2 ^ k ≠ 0 :=
        Nat.mul_ne_zero hn (Nat.ne_of_gt (Nat.two_pow_pos k))
      rw [Nat.pow_succ, ← Nat.mul_assoc, Nat.mul_comm _ 2,
        Nat.log2_two_mul hpos, ih]
      rfl

/-- A ratio that is a number of units with at most 53 digits ahead of zeros is
rounded to the bits that say so. -/
theorem nearestBits_of_digits {num den u shift leading : Nat} (hd : 0 < den)
    (h : num * unitsPerOne = u * den) (hu : u = leading * 2 ^ shift)
    (hlog : u.log2 - 52 = shift) :
    nearestBits num den =
      min (shift * fractionSpan + leading) infinityBits := by
  have hquot : num * unitsPerOne / den = u := by
    rw [h, Nat.mul_div_cancel _ hd]
  rw [nearestBits, hquot, hlog, h, Nat.pow_eq, hu, Nat.mul_assoc leading,
    Nat.mul_comm (2 ^ shift) den,
    roundQuotient_mul_self _ (Nat.mul_pos hd (Nat.two_pow_pos shift))]

/-- The exact value of a double is rounded to the double. -/
theorem nearestBits_units {x : Float} {num den : Nat}
    (hx : x.toBits.toNat < infinityBits) (hd : 0 < den)
    (h : num * unitsPerOne = units x * den) :
    nearestBits num den = x.toBits.toNat := by
  have hinf : x.toBits.toNat < 2047 * 2 ^ 52 := hx
  have hmod : x.toBits.toNat % signSpan = x.toBits.toNat :=
    Nat.mod_eq_of_lt (Nat.lt_trans hinf (by decide))
  have hu : units x =
      if x.toBits.toNat / 2 ^ 52 = 0 then x.toBits.toNat % 2 ^ 52
      else (2 ^ 52 + x.toBits.toNat % 2 ^ 52) *
        2 ^ (x.toBits.toNat / 2 ^ 52 - 1) := by
    rw [units, hmod]
    rfl
  have hmin : min x.toBits.toNat infinityBits = x.toBits.toNat :=
    Nat.min_eq_left (Nat.le_of_lt hx)
  by_cases he : x.toBits.toNat / 2 ^ 52 = 0
  · -- a subnormal double is its own count of units
    rw [if_pos he] at hu
    have hlog : (units x).log2 - 52 = 0 := by
      rw [hu]
      by_cases hz : x.toBits.toNat % 2 ^ 52 = 0
      · rw [hz]
        decide
      · have hlt := (Nat.log2_lt hz).mpr (Nat.mod_lt _ (Nat.two_pow_pos 52))
        omega
    have hshift : units x = units x * 2 ^ 0 := by
      rw [Nat.pow_zero, Nat.mul_one]
    have hbits : 0 * fractionSpan + units x = x.toBits.toNat := by
      rw [hu]
      omega
    rw [nearestBits_of_digits hd h hshift hlog, hbits, hmin]
  · rw [if_neg he] at hu
    have hlog : (units x).log2 - 52 = x.toBits.toNat / 2 ^ 52 - 1 := by
      have hne : 2 ^ 52 + x.toBits.toNat % 2 ^ 52 ≠ 0 := by omega
      have hleading : (2 ^ 52 + x.toBits.toNat % 2 ^ 52).log2 = 52 := by
        rw [Nat.log2_eq_iff hne]
        omega
      rw [hu, log2_mul_two_pow hne, hleading]
      omega
    have hbits : (x.toBits.toNat / 2 ^ 52 - 1) * fractionSpan +
        (2 ^ 52 + x.toBits.toNat % 2 ^ 52) = x.toBits.toNat := by
      rw [fractionSpan_eq]
      omega
    rw [nearestBits_of_digits hd h hu hlog, hbits, hmin]

end Binary64

/-! ## Rows of characters -/

section Rows

variable {p : Char → Bool} {cs rest : List Char}

/-- A row ends at the first character that does not belong to it. -/
theorem takeWhile_row (hcs : ∀ c ∈ cs, p c = true)
    (hrest : ∀ c ∈ rest.head?, p c = false) :
    (cs ++ rest).takeWhile p = cs := by
  rw [List.takeWhile_append_of_pos hcs]
  cases rest with
  | nil => simp
  | cons c rest => simp [hrest c rfl]

theorem dropWhile_row (hcs : ∀ c ∈ cs, p c = true)
    (hrest : ∀ c ∈ rest.head?, p c = false) :
    (cs ++ rest).dropWhile p = rest := by
  rw [List.dropWhile_append_of_pos hcs]
  cases rest with
  | nil => rfl
  | cons c rest => simp [hrest c rfl]

end Rows

namespace Decimal

/-! ## Values of decimals -/

theorem pow_ten_pos (n : Nat) : 0 < Nat.pow 10 n := Nat.pow_pos (by decide)

/-- Decimals of the same value have the same nearest double. -/
theorem nearestBits_congr {d e : Decimal}
    (h : d.digits * 10 ^ d.exponent.toNat * 10 ^ (-e.exponent).toNat =
      e.digits * 10 ^ e.exponent.toNat * 10 ^ (-d.exponent).toNat) :
    d.nearestBits = e.nearestBits :=
  Binary64.nearestBits_congr (pow_ten_pos _) (pow_ten_pos _) h

/-- A zero at the end of the digits may become part of the exponent. -/
theorem nearestBits_tenfold (k : Nat) (e : Int) :
    nearestBits ⟨10 * k, e⟩ = nearestBits ⟨k, e + 1⟩ := by
  apply nearestBits_congr
  dsimp only
  by_cases he : 0 ≤ e
  · have h1 : (e + 1).toNat = e.toNat + 1 := by omega
    have h2 : (-e).toNat = 0 := by omega
    have h3 : (-(e + 1)).toNat = 0 := by omega
    rw [h1, h2, h3, Nat.pow_succ]
    ac_rfl
  · have h1 : (e + 1).toNat = 0 := by omega
    have h2 : e.toNat = 0 := by omega
    have h3 : (-e).toNat = (-(e + 1)).toNat + 1 := by omega
    rw [h1, h2, h3, Nat.pow_succ]
    ac_rfl

theorem nearestBits_strip (d : Decimal) :
    d.strip.nearestBits = d.nearestBits := by
  induction d using strip.induct with
  | case1 d h ih =>
      rw [strip, dif_pos h, ih, ← nearestBits_tenfold, Nat.mul_div_cancel']
      exact Nat.dvd_of_mod_eq_zero h.2
  | case2 d h => rw [strip, dif_neg h]

theorem units_mul_pow (u n : Nat) :
    u * Nat.pow 5 n * Nat.pow 10 0 * Nat.pow 2 n = u * Nat.pow 10 n := by
  simp only [Nat.pow_eq]
  rw [Nat.pow_zero, Nat.mul_one, Nat.mul_assoc, ← Nat.mul_pow]

/-- The exact value of a double reads back. -/
theorem nearestBits_ofUnits {x : Float}
    (hx : x.toBits.toNat < Binary64.infinityBits) :
    (ofUnits (Binary64.units x)).nearestBits = x.toBits.toNat := by
  apply Binary64.nearestBits_units hx (pow_ten_pos _)
  have hwhole : (-1074 : Int).toNat = 0 := rfl
  have hplaces : (-(-1074) : Int).toNat = 1074 := rfl
  dsimp only [ofUnits]
  rw [hwhole, hplaces]
  unfold Binary64.unitsPerOne
  generalize 1074 = n
  exact units_mul_pow _ n

theorem nearestBits_whole {x : Float} {n : Nat}
    (hx : x.toBits.toNat < Binary64.infinityBits)
    (h : Binary64.units x = n * Binary64.unitsPerOne) :
    nearestBits ⟨n * 10, -1⟩ = x.toBits.toNat := by
  apply Binary64.nearestBits_units hx (pow_ten_pos _)
  have hten : Nat.pow 10 (-(-1) : Int).toNat = 10 := rfl
  have hone : Nat.pow 10 (-1 : Int).toNat = 1 := rfl
  dsimp only
  rw [h, hten, hone, Nat.mul_one, Nat.mul_right_comm]

theorem nearestBits_of_onGrid {u bits : Nat} {exponent : Int} {d : Decimal}
    (h : onGrid u bits exponent = some d) : d.nearestBits = bits := by
  unfold onGrid at h
  dsimp only at h
  split at h
  · next hbelow =>
      split at h
      · next habove =>
          obtain rfl := Option.some.inj h
          exact habove.1
      · obtain rfl := Option.some.inj h
        exact hbelow
  · split at h
    · next habove =>
        obtain rfl := Option.some.inj h
        exact habove
    · cases h

/-- The fewest digits read back, be they found on a grid or not. -/
theorem nearestBits_shortest {x : Float}
    (hx : x.toBits.toNat < Binary64.infinityBits) :
    (shortest (Binary64.units x) x.toBits.toNat).nearestBits =
      x.toBits.toNat := by
  rw [shortest, nearestBits_strip]
  cases hg : (grids (Binary64.units x)).findSome?
      (onGrid (Binary64.units x) x.toBits.toNat) with
  | none => exact nearestBits_ofUnits hx
  | some d =>
      obtain ⟨exponent, _, hd⟩ := List.exists_of_findSome?_eq_some hg
      exact nearestBits_of_onGrid hd

/-! ## Numerals -/

/-- The characters are a numeral of the decimal: digits, or digits with a point
between them. -/
inductive Numeral : List Char → Decimal → Prop where
  | whole {cs : List Char} (nonempty : cs ≠ [])
      (digits : ∀ c ∈ cs, c.isDigit = true) : Numeral cs ⟨value cs, 0⟩
  | pointed {cs ds : List Char} (whole_nonempty : cs ≠ [])
      (fraction_nonempty : ds ≠ [])
      (digits : ∀ c ∈ cs ++ ds, c.isDigit = true) :
      Numeral (cs ++ '.' :: ds) ⟨value (cs ++ ds), -(ds.length : Int)⟩

theorem Numeral.ofNumeral {cs : List Char} {d : Decimal} (h : Numeral cs d) :
    ofNumeral cs = d := by
  cases h with
  | whole nonempty digits =>
      have htake : (cs ++ []).takeWhile Char.isDigit = cs :=
        takeWhile_row digits (by simp)
      have hdrop : (cs ++ []).dropWhile Char.isDigit = [] :=
        dropWhile_row digits (by simp)
      rw [List.append_nil] at htake hdrop
      simp [Decimal.ofNumeral, htake, hdrop]
  | @pointed cs ds whole_nonempty fraction_nonempty digits =>
      have hcs : ∀ c ∈ cs, c.isDigit = true := fun c hc =>
        digits c (List.mem_append_left _ hc)
      have hpoint : ∀ c ∈ ('.' :: ds).head?, c.isDigit = false := by
        rintro c ⟨⟩
        rfl
      rw [Decimal.ofNumeral, takeWhile_row hcs hpoint, dropWhile_row hcs hpoint,
        List.drop_one, List.tail_cons]

theorem Numeral.getLast?_ne {cs : List Char} {d : Decimal} (h : Numeral cs d) :
    cs.getLast? ≠ some '.' := by
  intro hl
  cases h with
  | whole nonempty digits =>
      exact absurd (digits _ (List.mem_of_getLast? hl)) (by decide)
  | @pointed cs ds whole_nonempty fraction_nonempty digits =>
      have hd : ds.getLast? = some '.' := by
        rw [List.getLast?_append,
          List.getLast?_cons_of_ne_nil fraction_nonempty] at hl
        cases hds : ds.getLast? with
        | none =>
            exact absurd (List.getLast?_eq_none_iff.mp hds) fraction_nonempty
        | some c => rwa [hds] at hl
      exact absurd
        (digits _ (List.mem_append_right _ (List.mem_of_getLast? hd)))
        (by decide)

theorem value_eq_ofDigitChars (cs : List Char) :
    value cs = Nat.ofDigitChars 10 cs 0 := rfl

@[simp] theorem value_toDigits (n : Nat) : value (Nat.toDigits 10 n) = n := by
  rw [value_eq_ofDigitChars, Nat.ofDigitChars_ten_toDigits]

theorem value_append_zeros (cs : List Char) (k : Nat) :
    value (cs ++ List.replicate k '0') = value cs * 10 ^ k := by
  rw [value_eq_ofDigitChars, Nat.ofDigitChars_append,
    Nat.ofDigitChars_replicate_zero, Nat.mul_comm, ← value_eq_ofDigitChars]

/-- Zeros before a numeral mean nothing. -/
theorem value_zeros_append (k : Nat) (cs : List Char) :
    value (List.replicate k '0' ++ cs) = value cs := by
  rw [value_eq_ofDigitChars, Nat.ofDigitChars_append,
    Nat.ofDigitChars_replicate_zero, Nat.mul_zero, ← value_eq_ofDigitChars]

theorem isDigit_of_mem_toDigits {n : Nat} {c : Char}
    (h : c ∈ Nat.toDigits 10 n) :
    c.isDigit = true :=
  Nat.isDigit_of_mem_toDigits (by decide) (by decide) h

/-- A decimal is written as a numeral of the same value. -/
theorem numeral_spec (d : Decimal) :
    ∃ e, Numeral d.numeral e ∧ e.nearestBits = d.nearestBits := by
  unfold numeral
  dsimp only
  split
  · next he =>
      refine ⟨_, .whole ?_ ?_, ?_⟩
      · exact List.append_ne_nil_of_left_ne_nil Nat.toDigits_ne_nil _
      · intro c hc
        rcases List.mem_append.mp hc with hc | hc
        · exact isDigit_of_mem_toDigits hc
        · rw [(List.mem_replicate.mp hc).2]
          rfl
      · apply nearestBits_congr
        have hplaces : (-d.exponent).toNat = 0 := by omega
        rw [value_append_zeros, value_toDigits, hplaces]
        simp
  · next he =>
      -- with zeros before the digits one stands before the point at least
      obtain ⟨places, hplaces⟩ : ∃ places, (-d.exponent).toNat = places :=
        ⟨_, rfl⟩
      obtain ⟨padded, hpadded⟩ : ∃ padded, List.replicate
          (places + 1 - (Nat.toDigits 10 d.digits).length) '0' ++
            Nat.toDigits 10 d.digits = padded := ⟨_, rfl⟩
      have hlength : places + 1 ≤ padded.length := by
        rw [← hpadded, List.length_append, List.length_replicate]
        omega
      have hdigits : ∀ c ∈ padded, c.isDigit = true := by
        intro c hc
        rw [← hpadded] at hc
        rcases List.mem_append.mp hc with hc | hc
        · rw [(List.mem_replicate.mp hc).2]
          rfl
        · exact isDigit_of_mem_toDigits hc
      have hvalue : value padded = d.digits := by
        rw [← hpadded, value_zeros_append, value_toDigits]
      have hfraction : (padded.drop (padded.length - places)).length =
          places := by
        rw [List.length_drop]
        omega
      rw [hplaces, hpadded]
      refine ⟨_, .pointed ?_ ?_ ?_, ?_⟩
      · intro h
        have hl := congrArg List.length h
        rw [List.length_take, List.length_nil] at hl
        omega
      · intro h
        rw [h, List.length_nil] at hfraction
        omega
      · rwa [List.take_append_drop]
      · rw [List.take_append_drop, hvalue, hfraction]
        have hexponent : -(places : Int) = d.exponent := by omega
        rw [hexponent]

theorem toFloat_of_nearestBits {d : Decimal} {x : Float}
    (h : d.nearestBits = x.toBits.toNat) : d.toFloat = x := by
  rw [toFloat, h]
  exact (congrArg Float.ofBits UInt64.ofNat_toNat).trans
    (Binary64.ofBits_toBits x)

end Decimal

/-! ## Numbers -/

namespace Number

/-- A number that has a part less than one is written with the fewest
digits. -/
theorem plain_eq (n : Number) (hpos : Binary64.units n.value ≠ 0) :
    (Decimal.plain n.value).toList =
      (Decimal.shortest (Binary64.units n.value)
        n.value.toBits.toNat).numeral := by
  have hlt := Binary64.bits_lt n
  have hsign : n.value.toBits.toNat < Binary64.signSpan :=
    Nat.lt_trans hlt (by decide)
  have hneg : Binary64.isNegative n.value = false :=
    decide_eq_false (Nat.not_le.mpr hsign)
  rw [Decimal.plain, Binary64.isNaN_of_isFinite n.finite,
    Binary64.isInf_of_isFinite n.finite, hneg, Nat.mod_eq_of_lt hsign]
  simp [hpos]

/-- The plain text of a number is a numeral whose nearest double is the
number. -/
theorem plain_spec (n : Number) :
    ∃ d, Decimal.Numeral (Decimal.plain n.value).toList d ∧
      d.toFloat = n.value := by
  have hlt := Binary64.bits_lt n
  by_cases hz : Binary64.units n.value = 0
  · -- the bits say that zero is positive
    have hsign : n.value.toBits.toNat < Binary64.signSpan :=
      Nat.lt_trans hlt (by decide)
    have hneg : Binary64.isNegative n.value = false :=
      decide_eq_false (Nat.not_le.mpr hsign)
    have hzero : (Decimal.plain n.value).toList = ['0'] := by
      rw [Decimal.plain, Binary64.isNaN_of_isFinite n.finite,
        Binary64.isInf_of_isFinite n.finite, hneg]
      simp [hz]
    rw [hzero]
    refine ⟨_, .whole (by simp) (by simp), Decimal.toFloat_of_nearestBits ?_⟩
    have hvalue : Decimal.value ['0'] = 0 := rfl
    have hbits : Decimal.nearestBits ⟨0, 0⟩ =
        Decimal.nearestBits ⟨0 * 10, -1⟩ :=
      Decimal.nearestBits_congr (by simp)
    rw [hvalue, hbits]
    exact Decimal.nearestBits_whole hlt (by rw [hz, Nat.zero_mul])
  · obtain ⟨d, hd, hbits⟩ := Decimal.numeral_spec
      (Decimal.shortest (Binary64.units n.value) n.value.toBits.toNat)
    rw [plain_eq n hz]
    refine ⟨d, hd, Decimal.toFloat_of_nearestBits ?_⟩
    rw [hbits, Decimal.nearestBits_shortest hlt]

theorem text_spec (n : Number) :
    ∃ d, Decimal.Numeral n.text.toList d ∧ d.toFloat = n.value := by
  unfold text
  dsimp only
  split
  · next hwhole =>
      rw [String.toList_ofList]
      refine ⟨_, .pointed Nat.toDigits_ne_nil (by simp) ?_,
        Decimal.toFloat_of_nearestBits ?_⟩
      · intro c hc
        rcases List.mem_append.mp hc with hc | hc
        · exact Decimal.isDigit_of_mem_toDigits hc
        · obtain rfl := List.mem_singleton.mp hc
          rfl
      · have hvalue := Decimal.value_append_zeros
          (Nat.toDigits 10 (Binary64.units n.value / Binary64.unitsPerOne)) 1
        rw [Decimal.value_toDigits] at hvalue
        rw [← List.replicate_one, hvalue]
        exact Decimal.nearestBits_whole (Binary64.bits_lt n)
          (Nat.div_mul_cancel (Nat.dvd_of_mod_eq_zero hwhole)).symm
  · exact n.plain_spec

end Number

end PolyAlgebra
