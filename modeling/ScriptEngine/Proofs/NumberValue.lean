import ScriptEngine.Number
import Mathlib.Algebra.Order.Field.Power
import Mathlib.Algebra.Order.Floor.Semifield
import Mathlib.Data.Rat.Floor
import Mathlib.Tactic

/-!
# What a number stands for

A finite number stands for the rational `± mantissa * 2 ^ exponent`. The comparison of numbers,
which looks at bit patterns only, is the comparison of these rationals (`le_iff`): without the
sign bit a larger pattern stands for a larger rational (`modulus_strictMono`). Whole numbers of up
to 53 binary digits are kept exactly (`ofInt_value`), a larger one is rounded but never below
those, and the whole part of a number is the whole part of what it stands for.
-/

namespace ScriptEngine.Number

variable {x y : Number} {m n : Nat}

/-! ## Fields of the pattern -/

/-- The bit pattern without the sign. -/
def magnitude (x : Number) : Nat :=
  x.bits.toNat % 2 ^ 63

theorem exponentField_eq (x : Number) : x.exponentField = x.magnitude / 2 ^ 52 := by
  have hmask : (0x7FF : UInt64).toNat = 2 ^ 11 - 1 := rfl
  unfold exponentField magnitude
  rw [UInt64.toNat_and, UInt64.toNat_shiftRight, hmask, Nat.and_two_pow_sub_one_eq_mod,
    Nat.shiftRight_eq_div_pow]
  simp only [UInt64.reduceToNat, Nat.reduceMod]
  omega

theorem fraction_eq (x : Number) : x.fraction = x.magnitude % 2 ^ 52 := by
  have hmask : (0xFFFFFFFFFFFFF : UInt64).toNat = 2 ^ 52 - 1 := rfl
  unfold fraction magnitude
  rw [UInt64.toNat_and, hmask, Nat.and_two_pow_sub_one_eq_mod]
  omega

theorem isNegative_iff : x.isNegative = true ↔ 2 ^ 63 ≤ x.bits.toNat := by
  have hlt := x.bits.toNat_lt
  unfold isNegative
  rw [decide_eq_true_iff, ← UInt64.toNat_inj, UInt64.toNat_shiftRight, Nat.shiftRight_eq_div_pow]
  simp only [UInt64.reduceToNat, Nat.reduceMod]
  omega

theorem abs_bits (x : Number) : x.abs.bits.toNat = x.magnitude := by
  have hmask : (0x7FFFFFFFFFFFFFFF : UInt64).toNat = 2 ^ 63 - 1 := rfl
  unfold abs magnitude
  rw [UInt64.toNat_and, hmask, Nat.and_two_pow_sub_one_eq_mod]

theorem isZero_iff : x.isZero = true ↔ x.magnitude = 0 := by
  unfold isZero
  rw [decide_eq_true_iff, ← abs_bits, ← UInt64.toNat_inj]
  rfl

theorem orderKey_eq (x : Number) :
    x.orderKey = if x.isNegative then -(x.magnitude : Int) - 1 else x.magnitude := by
  unfold orderKey
  rw [abs_bits]
  by_cases h : x.isNegative
  · simp [h]
  · have hlt : x.bits.toNat < 2 ^ 63 := by
      have := isNegative_iff.not.1 h
      omega
    rw [if_neg h, if_neg h, magnitude, Nat.mod_eq_of_lt hlt]

/-! ## Exact values -/

/-- The rational that a bit pattern without a sign stands for. -/
def modulus (m : Nat) : ℚ :=
  ((if m / 2 ^ 52 = 0 then m % 2 ^ 52 else 2 ^ 52 + m % 2 ^ 52 : Nat) : ℚ) *
    2 ^ (((max (m / 2 ^ 52) 1 : Nat) : Int) - 1075)

/-- The rational that a finite number stands for. -/
def value (x : Number) : ℚ :=
  (if x.isNegative then -1 else 1) * (x.mantissa * 2 ^ x.exponent)

theorem value_eq (x : Number) :
    x.value = (if x.isNegative then -1 else 1) * modulus x.magnitude := by
  simp only [value, modulus, mantissa, exponent, exponentField_eq, fraction_eq, Nat.pow_eq]

/-- Between two patterns with one exponent field the significands decide, and otherwise the
smaller significand has one binary digit less than the larger one counts for. -/
theorem modulus_strictMono : StrictMono modulus := by
  intro m n hmn
  unfold modulus
  have hdiv : m / 2 ^ 52 ≤ n / 2 ^ 52 := Nat.div_le_div_right hmn.le
  have hm := Nat.div_add_mod m (2 ^ 52)
  have hn := Nat.div_add_mod n (2 ^ 52)
  have hmlt := Nat.mod_lt m (show 2 ^ 52 > 0 by decide)
  have hnlt := Nat.mod_lt n (show 2 ^ 52 > 0 by decide)
  have hpos (e : Int) : (0 : ℚ) < 2 ^ e := zpow_pos two_pos e
  by_cases hsame : max (m / 2 ^ 52) 1 = max (n / 2 ^ 52) 1
  · rw [hsame]
    refine mul_lt_mul_of_pos_right ?_ (hpos _)
    rw [Nat.cast_lt]
    split <;> split <;> omega
  · have hlt : m / 2 ^ 52 < n / 2 ^ 52 ∧ 1 < n / 2 ^ 52 := by omega
    set a := (if m / 2 ^ 52 = 0 then m % 2 ^ 52 else 2 ^ 52 + m % 2 ^ 52 : Nat) with ha
    have ha' : a < 2 ^ 53 := by
      rw [ha]
      split <;> omega
    rw [if_neg (by omega)]
    set d : Int := ((max (m / 2 ^ 52) 1 : Nat) : Int) - 1075 with hd
    set e : Int := ((max (n / 2 ^ 52) 1 : Nat) : Int) - 1075 with he
    have hde : d + 1 ≤ e := by omega
    calc (a : ℚ) * 2 ^ d < (2 ^ 53 : Nat) * 2 ^ d :=
          mul_lt_mul_of_pos_right (Nat.cast_lt.2 ha') (hpos d)
      _ = (2 ^ 52 : Nat) * 2 ^ (d + 1) := by
          rw [zpow_add₀ two_ne_zero]
          push_cast
          ring
      _ ≤ (2 ^ 52 : Nat) * 2 ^ e :=
          mul_le_mul_of_nonneg_left (zpow_le_zpow_right₀ one_le_two hde) (Nat.cast_nonneg _)
      _ ≤ (2 ^ 52 + n % 2 ^ 52 : Nat) * 2 ^ e :=
          mul_le_mul_of_nonneg_right (Nat.cast_le.2 (Nat.le_add_right _ _)) (hpos e).le

theorem modulus_zero : modulus 0 = 0 := by
  norm_num [modulus]

theorem modulus_nonneg (m : Nat) : 0 ≤ modulus m :=
  modulus_zero ▸ modulus_strictMono.monotone m.zero_le

theorem isNaN_of_isFinite (h : x.isFinite = true) : x.isNaN = false := by
  unfold isFinite at h
  unfold isNaN
  have := of_decide_eq_true h
  simp [show x.exponentField ≠ 2047 by omega]

/-- On finite numbers the comparison is the comparison of what they stand for. -/
theorem le_iff (hx : x.isFinite = true) (hy : y.isFinite = true) :
    x.le y = true ↔ x.value ≤ y.value := by
  have hxm := isZero_iff (x := x)
  have hym := isZero_iff (x := y)
  simp only [le, isNaN_of_isFinite hx, isNaN_of_isFinite hy, Bool.not_false, Bool.true_and,
    Bool.or_eq_true, Bool.and_eq_true, decide_eq_true_iff, hxm, hym, orderKey_eq, value_eq]
  have hx0 := modulus_nonneg x.magnitude
  have hy0 := modulus_nonneg y.magnitude
  have hzero (m : Nat) : modulus m = 0 ↔ m = 0 := by
    rw [← modulus_zero, modulus_strictMono.injective.eq_iff]
  have hmono := modulus_strictMono.le_iff_le (a := x.magnitude) (b := y.magnitude)
  have hmono' := modulus_strictMono.le_iff_le (a := y.magnitude) (b := x.magnitude)
  have hxz := hzero x.magnitude
  have hyz := hzero y.magnitude
  by_cases hxn : x.isNegative <;> by_cases hyn : y.isNegative <;>
    simp only [hxn, hyn, if_true, if_false, Bool.false_eq_true, neg_one_mul, one_mul, neg_le_neg_iff]
  · rw [hmono']
    omega
  · constructor
    · intro _
      linarith
    · intro _
      right
      omega
  · constructor
    · rintro (⟨h1, h2⟩ | h)
      · rw [hxz.2 h1, hyz.2 h2, neg_zero]
      · omega
    · intro h
      left
      exact ⟨hxz.1 (by linarith), hyz.1 (by linarith)⟩
  · rw [hmono]
    omega

/-! ## Whole parts -/

theorem whole_eq_floor (a : Nat) (e : Int) :
    (if 0 ≤ e then a <<< e.toNat else a >>> (-e).toNat) = ⌊(a : ℚ) * 2 ^ e⌋₊ := by
  split
  next h =>
    obtain ⟨k, rfl⟩ := Int.eq_ofNat_of_zero_le h
    rw [Int.toNat_natCast, Nat.shiftLeft_eq, zpow_natCast]
    exact_mod_cast (Nat.floor_natCast (R := ℚ) (a * 2 ^ k)).symm
  next h =>
    obtain ⟨k, hk⟩ := Int.eq_ofNat_of_zero_le (show 0 ≤ -e by omega)
    obtain rfl : e = -(k : Int) := by omega
    rw [neg_neg, Int.toNat_natCast, Nat.shiftRight_eq_div_pow, zpow_neg, zpow_natCast,
      ← div_eq_mul_inv]
    exact_mod_cast (Nat.floor_div_natCast (K := ℚ) (a : ℚ) (2 ^ k)).symm

/-- The whole part of a number that is not negative is the floor of what it stands for. -/
theorem truncate_toNat (h : 0 ≤ x.value) : x.truncate.toNat = ⌊x.value⌋₊ := by
  unfold truncate
  simp only [whole_eq_floor]
  unfold value at h ⊢
  have hpos : (0 : ℚ) ≤ x.mantissa * 2 ^ x.exponent := by positivity
  split
  next hneg =>
    rw [if_pos hneg, neg_one_mul] at h
    have hzero : (x.mantissa : ℚ) * 2 ^ x.exponent = 0 := by linarith
    simp [hzero]
  next hneg => simp

/-! ## Rounded whole numbers -/

theorem withSign_fields (b : Bool) (hm : m < 2 ^ 63) :
    (withSign b ⟨m.toUInt64⟩).isNegative = b ∧ (withSign b ⟨m.toUInt64⟩).magnitude = m := by
  have hbits : (m.toUInt64).toNat = m := by
    rw [Nat.toUInt64, UInt64.toNat_ofNat']
    omega
  have htop : (0x8000000000000000 : UInt64).toNat = 2 ^ 63 * 1 := rfl
  cases b
  · have hplain : (withSign false ⟨m.toUInt64⟩).bits.toNat = m := hbits
    rw [Bool.eq_false_iff, Ne, isNegative_iff, magnitude, hplain]
    omega
  · have hor : (withSign true ⟨m.toUInt64⟩).bits.toNat = m + 2 ^ 63 := by
      simp only [withSign, if_true]
      rw [UInt64.toNat_or, hbits, htop, Nat.or_comm, ← Nat.two_pow_add_eq_or_of_lt hm]
      omega
    rw [isNegative_iff, magnitude, hor]
    omega

/-- The significand that a positive whole number is rounded to. -/
def rounded (n : Nat) : Nat :=
  roundDiv (n * 2 ^ (52 - n.log2)) (2 ^ (n.log2 - 52))

theorem roundDiv_one (n : Nat) : roundDiv n 1 = n := by
  simp [roundDiv, Nat.mod_one]

theorem le_roundDiv (n k : Nat) : n / k ≤ roundDiv n k := by
  unfold roundDiv
  dsimp only
  split <;> omega

theorem roundDiv_le (n k : Nat) : roundDiv n k ≤ n / k + 1 := by
  unfold roundDiv
  dsimp only
  split <;> omega

theorem rounded_of_lt (hn : n < 2 ^ 53) (h0 : n ≠ 0) : rounded n = n * 2 ^ (52 - n.log2) := by
  have hlog : n.log2 < 53 := (Nat.log2_lt h0).2 hn
  rw [rounded, show n.log2 - 52 = 0 by omega, pow_zero, roundDiv_one]

theorem rounded_bounds (h0 : n ≠ 0) : 2 ^ 52 ≤ rounded n ∧ rounded n ≤ 2 ^ 53 := by
  have hle : 2 ^ n.log2 ≤ n := Nat.log2_self_le h0
  have hlt : n < 2 ^ (n.log2 + 1) := Nat.lt_log2_self
  unfold rounded
  set a := n * 2 ^ (52 - n.log2)
  set b := 2 ^ (n.log2 - 52) with hb
  have hb0 : 0 < b := by positivity
  have hlow : 2 ^ 52 * b ≤ a := by
    calc 2 ^ 52 * b = 2 ^ n.log2 * 2 ^ (52 - n.log2) := by
          rw [hb, ← pow_add, ← pow_add]
          congr 1
          omega
      _ ≤ a := Nat.mul_le_mul_right _ hle
  have hhigh : a < 2 ^ 53 * b := by
    calc a < 2 ^ (n.log2 + 1) * 2 ^ (52 - n.log2) :=
          Nat.mul_lt_mul_of_pos_right hlt (by positivity)
      _ = 2 ^ 53 * b := by
          rw [hb, ← pow_add, ← pow_add]
          congr 1
          omega
  exact ⟨((Nat.le_div_iff_mul_le hb0).2 hlow).trans (le_roundDiv a b),
    (roundDiv_le a b).trans ((Nat.div_lt_iff_lt_mul hb0).2 hhigh)⟩

/-- The pattern of a rounded whole number: a significand that is rounded up to the next power of
two carries into the exponent field. -/
theorem ofRatio_one (b : Bool) (h0 : n ≠ 0) (hn : n < 2 ^ 64) :
    ofRatio b n 1 = withSign b ⟨((n.log2 + 1022) * 2 ^ 52 + rounded n).toUInt64⟩ := by
  have hlog : n.log2 < 64 := (Nat.log2_lt h0).2 hn
  have hbounds := rounded_bounds h0
  have hratio : log2Ratio n 1 = n.log2 := by
    have hle : 2 ^ n.log2 ≤ n := Nat.log2_self_le h0
    have h1 : Nat.log2 1 = 0 := by decide
    simp only [log2Ratio, h1, Nat.pow_eq, Nat.cast_zero, sub_zero, Int.toNat_natCast, one_mul,
      Int.toNat_neg_natCast, pow_zero, mul_one]
    rw [if_pos hle]
  have hscale : max (log2Ratio n 1 - 52) (-1074) = (n.log2 : Int) - 52 := by
    rw [hratio]
    omega
  have hdown : (-((n.log2 : Int) - 52)).toNat = 52 - n.log2 := by omega
  have hup : ((n.log2 : Int) - 52).toNat = n.log2 - 52 := by omega
  have hfield : ((n.log2 : Int) - 52 + 1074).toNat = n.log2 + 1022 := by omega
  unfold ofRatio
  simp only [h0, if_false, hscale, hdown, hup, hfield, Nat.pow_eq, one_mul]
  change (if (n.log2 + 1022) * 2 ^ 52 + rounded n < _ then _ else _) = _
  rw [if_pos (by omega)]
  rfl

/-- The bit pattern of a whole number stands for its rounded significand, scaled back. -/
theorem modulus_rounded (h0 : n ≠ 0) :
    modulus ((n.log2 + 1022) * 2 ^ 52 + rounded n) = rounded n * 2 ^ ((n.log2 : Int) - 52) := by
  obtain ⟨hlow, hhigh⟩ := rounded_bounds h0
  rcases hhigh.lt_or_eq with hlt | heq
  · rw [modulus, show ((n.log2 + 1022) * 2 ^ 52 + rounded n) / 2 ^ 52 = n.log2 + 1023 by omega,
      show ((n.log2 + 1022) * 2 ^ 52 + rounded n) % 2 ^ 52 = rounded n - 2 ^ 52 by omega,
      if_neg (by omega), Nat.add_sub_cancel' hlow,
      show ((max (n.log2 + 1023) 1 : Nat) : Int) - 1075 = (n.log2 : Int) - 52 by omega]
  · rw [modulus, heq, show ((n.log2 + 1022) * 2 ^ 52 + 2 ^ 53) / 2 ^ 52 = n.log2 + 1024 by omega,
      show ((n.log2 + 1022) * 2 ^ 52 + 2 ^ 53) % 2 ^ 52 = 0 by omega, if_neg (by omega),
      show ((max (n.log2 + 1024) 1 : Nat) : Int) - 1075 = (n.log2 : Int) - 52 + 1 by omega,
      zpow_add₀ two_ne_zero]
    push_cast
    ring

theorem rounded_value (h0 : n ≠ 0) (hn : n ≤ 2 ^ 53) :
    (rounded n : ℚ) * 2 ^ ((n.log2 : Int) - 52) = n := by
  rcases hn.lt_or_eq with hlt | rfl
  · have hlog : n.log2 < 53 := (Nat.log2_lt h0).2 hlt
    rw [rounded_of_lt hlt h0, show (n.log2 : Int) - 52 = -((52 - n.log2 : Nat) : Int) by omega,
      zpow_neg, zpow_natCast]
    push_cast
    field_simp
  · have hlog : Nat.log2 (2 ^ 53) = 53 := Nat.log2_two_pow
    have hround : rounded (2 ^ 53) = 2 ^ 52 := by
      rw [rounded, hlog]
      decide
    rw [hround, hlog]
    norm_num

theorem ofInt_fields {i : Int} (hi : i.natAbs < 2 ^ 64) (h0 : i ≠ 0) :
    (ofInt i).isNegative = decide (i < 0) ∧
      (ofInt i).magnitude = (i.natAbs.log2 + 1022) * 2 ^ 52 + rounded i.natAbs := by
  have h0' : i.natAbs ≠ 0 := by omega
  have hlog : i.natAbs.log2 < 64 := (Nat.log2_lt h0').2 hi
  have hbounds := rounded_bounds h0'
  rw [ofInt, ofRatio_one _ h0' hi]
  exact withSign_fields _ (by omega)

theorem ofInt_zero : ofInt 0 = zero := rfl

theorem ofInt_isFinite {i : Int} (hi : i.natAbs < 2 ^ 64) : (ofInt i).isFinite = true := by
  by_cases h0 : i = 0
  · subst h0
    rfl
  · have h0' : i.natAbs ≠ 0 := by omega
    have hlog : i.natAbs.log2 < 64 := (Nat.log2_lt h0').2 hi
    have hbounds := rounded_bounds h0'
    unfold isFinite
    rw [decide_eq_true_iff, exponentField_eq, (ofInt_fields hi h0).2]
    omega

theorem zero_value : zero.value = 0 := by
  have : zero.magnitude = 0 := rfl
  rw [value_eq, this, modulus_zero, mul_zero]

/-- Whole numbers of up to 53 binary digits are kept exactly. -/
theorem ofInt_value {i : Int} (hi : i.natAbs ≤ 2 ^ 53) : (ofInt i).value = i := by
  by_cases h0 : i = 0
  · subst h0
    rw [ofInt_zero, zero_value, Int.cast_zero]
  · have h0' : i.natAbs ≠ 0 := by omega
    obtain ⟨hsign, hmag⟩ := ofInt_fields (by omega) h0
    rw [value_eq, hsign, hmag, modulus_rounded h0', rounded_value h0' hi, Nat.cast_natAbs]
    by_cases hneg : i < 0
    · simp [hneg, abs_of_neg hneg]
    · simp [hneg, abs_of_nonneg (not_lt.1 hneg)]

theorem ofNat_value (hn : n ≤ 2 ^ 53) : (ofNat n).value = n := by
  have h := ofInt_value (i := n) (by simpa using hn)
  exact_mod_cast h

/-- A whole number of more binary digits is not rounded below those that are kept exactly. -/
theorem le_ofNat_value (hlow : 2 ^ 53 ≤ n) (hn : n < 2 ^ 64) : 2 ^ 53 ≤ (ofNat n).value := by
  have h0 : n ≠ 0 := by omega
  obtain ⟨hsign, hmag⟩ := ofInt_fields (i := n) (by simpa using hn) (by exact_mod_cast h0)
  have hlog : 53 ≤ n.log2 := (Nat.le_log2 h0).2 hlow
  have hround : (2 ^ 52 : ℚ) ≤ rounded n := by exact_mod_cast (rounded_bounds h0).1
  have hscale : (2 : ℚ) ^ (1 : Int) ≤ 2 ^ ((n.log2 : Int) - 52) :=
    zpow_le_zpow_right₀ one_le_two (by omega)
  rw [ofNat, value_eq, hsign, hmag, Int.natAbs_natCast, modulus_rounded h0]
  rw [if_neg (by simp), one_mul]
  calc (2 ^ 53 : ℚ) = 2 ^ 52 * 2 ^ (1 : Int) := by norm_num
    _ ≤ rounded n * 2 ^ ((n.log2 : Int) - 52) :=
      mul_le_mul hround hscale (by positivity) (by positivity)

/-! ## Whole values -/

theorem natAbs_of_value {i : Int} (h : x.value = i) :
    (x.mantissa : ℚ) * 2 ^ x.exponent = i.natAbs := by
  have hpos : (0 : ℚ) ≤ x.mantissa * 2 ^ x.exponent := by positivity
  rw [Nat.cast_natAbs, Int.cast_abs, ← h, value, abs_mul, abs_of_nonneg hpos]
  split <;> simp

theorem truncate_of_value {i : Int} (h : x.value = i) : x.truncate = i := by
  have habs := natAbs_of_value h
  unfold truncate
  simp only [whole_eq_floor, habs, Nat.floor_natCast]
  rw [value, habs] at h
  split
  next hneg =>
    rw [if_pos hneg, neg_one_mul] at h
    have : -(i.natAbs : Int) = i := by exact_mod_cast h
    exact this
  next hneg =>
    rw [if_neg hneg, one_mul, Nat.cast_natAbs] at h
    exact_mod_cast h

theorem isWhole_of_value (hx : x.isFinite = true) {i : Int} (h : x.value = i) :
    x.isWhole = true := by
  have habs := natAbs_of_value h
  unfold isWhole
  rw [hx, Bool.true_and, Bool.or_eq_true, decide_eq_true_iff, decide_eq_true_iff]
  rcases le_or_gt 0 x.exponent with he | he
  · exact .inl he
  · right
    obtain ⟨k, hk⟩ := Int.eq_ofNat_of_zero_le (show 0 ≤ -x.exponent by omega)
    have hmul : x.mantissa = i.natAbs * 2 ^ k := by
      rw [show x.exponent = -(k : Int) by omega, zpow_neg, zpow_natCast, ← div_eq_mul_inv,
        div_eq_iff (by positivity)] at habs
      exact_mod_cast habs
    rw [hk, Int.toNat_natCast, Nat.shiftRight_eq_div_pow, Nat.shiftLeft_eq, hmul,
      Nat.mul_div_cancel _ (by positivity)]

/-! ## Bounds -/

theorem isFinite_iff : x.isFinite = true ↔ x.magnitude < 2047 * 2 ^ 52 := by
  rw [isFinite, decide_eq_true_iff, exponentField_eq]
  omega

/-- A number between zero and a finite one is finite. -/
theorem isFinite_of_le (h0 : zero.le x = true) (hxy : x.le y = true) (hy : y.isFinite = true) :
    x.isFinite = true := by
  have hzero : zero.isNegative = false := rfl
  have hmag : zero.magnitude = 0 := rfl
  rw [isFinite_iff] at hy ⊢
  simp only [le, Bool.and_eq_true, Bool.or_eq_true, decide_eq_true_iff, isZero_iff, orderKey_eq,
    hzero, hmag] at h0 hxy
  have h0 := h0.2
  have hxy := hxy.2
  split at h0 <;> split at hxy <;> simp_all <;> omega

theorem lt_eq_false_of_le (h : x.le y = true) : y.lt x = false := by
  simp only [le, Bool.and_eq_true, Bool.or_eq_true, decide_eq_true_iff] at h
  rcases h.2 with ⟨hx, hy⟩ | hkey
  · simp [lt, hx, hy]
  · simp [lt, hkey]

end ScriptEngine.Number
