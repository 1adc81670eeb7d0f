import Mathlib.Data.List.TakeWhile
import LuaTranspiler.Number.Numeral
import LuaTranspiler.Proofs.Number.Rounding

/-!
# Numerals read back

The numeral of a finite number without a sign, read as a numeral, gives that number again, so no two
such numbers have the same text.

* `readDecimal?_positional`: the positional notation of a decimal keeps its value
* `Binary64.ofScientific_eq_of_reaches`: a decimal in the interval of a number is read as it
* `Binary64.ofNumeral?_numeral`: the number that a numeral was written for is read from it
-/

namespace LuaTranspiler

/-! ### Digits -/

theorem ofDigits_eq_ofDigitChars {ds : List Char} (h : ∀ c ∈ ds, c.isDigit) :
    ofDigits 10 ds = Nat.ofDigitChars 10 ds 0 := by
  unfold ofDigits
  rw [Nat.ofDigitChars_eq_foldl]
  refine List.foldl_ext _ _ _ fun n c hc => ?_
  rw [digitValue, if_pos (h c hc)]

theorem ofDigits_digits (d : Decimal) : ofDigits 10 d.digits = d.coefficient := by
  rw [ofDigits_eq_ofDigitChars, Decimal.digits, Nat.ofDigitChars_ten_toDigits]
  exact fun c hc => Nat.isDigit_of_mem_toDigits (by norm_num) (by norm_num) hc

theorem isDigit_of_mem_digits {d : Decimal} {c : Char} (h : c ∈ d.digits) : c.isDigit :=
  Nat.isDigit_of_mem_toDigits (by norm_num) (by norm_num) h

theorem isDigit_of_mem_zeros {n : ℕ} {c : Char} (h : c ∈ List.replicate n '0') : c.isDigit := by
  rw [List.eq_of_mem_replicate h]
  rfl

/-- Zeros in front of digits do not count. -/
theorem ofDigits_zeros_append (n : ℕ) (ds : List Char) :
    ofDigits 10 (List.replicate n '0' ++ ds) = ofDigits 10 ds := by
  have hzero : ofDigits 10 (List.replicate n '0') = 0 := by
    rw [ofDigits_eq_ofDigitChars fun c => isDigit_of_mem_zeros, Nat.ofDigitChars_replicate_zero,
      Nat.mul_zero]
  unfold ofDigits at hzero ⊢
  rw [List.foldl_append, hzero]

/-- Zeros behind digits are factors of ten. -/
theorem ofDigits_append_zeros (n : ℕ) {ds : List Char} (h : ∀ c ∈ ds, c.isDigit) :
    ofDigits 10 (ds ++ List.replicate n '0') = ofDigits 10 ds * 10 ^ n := by
  have hall : ∀ c ∈ ds ++ List.replicate n '0', c.isDigit := by
    intro c hc
    rcases List.mem_append.1 hc with hc | hc
    · exact h c hc
    · exact isDigit_of_mem_zeros hc
  rw [ofDigits_eq_ofDigitChars hall, ofDigits_eq_ofDigitChars h, Nat.ofDigitChars_append,
    Nat.ofDigitChars_replicate_zero, Nat.mul_comm]

/-! ### Decimals -/

/-- Digits without a point are an integer. -/
theorem readDecimal?_digits {ds : List Char} (h : ∀ c ∈ ds, c.isDigit) (hne : ds ≠ []) :
    readDecimal? ds = some ⟨ofDigits 10 ds, 0⟩ := by
  have htake : ds.takeWhile Char.isDigit = ds := List.takeWhile_eq_self_iff.mpr h
  have hdrop : ds.dropWhile Char.isDigit = [] := List.dropWhile_eq_nil_iff.mpr h
  simp [readDecimal?, htake, hdrop, hne, readExponent?]

/-- The digits behind a point are counted by the exponent. -/
theorem readDecimal?_point {whole part : List Char} (hw : ∀ c ∈ whole, c.isDigit)
    (hp : ∀ c ∈ part, c.isDigit) (hne : whole ≠ []) :
    readDecimal? (whole ++ '.' :: part) = some ⟨ofDigits 10 (whole ++ part), -part.length⟩ := by
  have htake : (whole ++ '.' :: part).takeWhile Char.isDigit = whole := by
    rw [List.takeWhile_append_of_pos hw]
    simp
  have hdrop : (whole ++ '.' :: part).dropWhile Char.isDigit = '.' :: part := by
    rw [List.dropWhile_append_of_pos hw]
    rfl
  have htake' : part.takeWhile Char.isDigit = part := List.takeWhile_eq_self_iff.mpr hp
  have hdrop' : part.dropWhile Char.isDigit = [] := List.dropWhile_eq_nil_iff.mpr hp
  simp [readDecimal?, htake, hdrop, htake', hdrop', hne, readExponent?]

/-- The positional notation of a decimal is read with its value. -/
theorem readDecimal?_positional (d : Decimal) :
    ∃ e, readDecimal? d.positionalChars = some e ∧ e.value = d.value := by
  have hne : d.digits ≠ [] := Nat.toDigits_ne_nil
  have hall : ∀ c ∈ d.digits, c.isDigit := fun c => isDigit_of_mem_digits
  unfold Decimal.positionalChars
  dsimp only
  split_ifs with h1 h2
  · refine ⟨_, readDecimal?_digits ?_ (by simp [hne]), ?_⟩
    · intro c hc
      rcases List.mem_append.1 hc with hc | hc
      · exact hall c hc
      · exact isDigit_of_mem_zeros hc
    · have hpow : (10 : ℚ) ^ d.exponent = 10 ^ d.exponent.toNat := by
        rw [← zpow_natCast, Int.toNat_of_nonneg h1]
      unfold Decimal.value
      rw [ofDigits_append_zeros _ hall, ofDigits_digits, hpow]
      push_cast
      ring
  · refine ⟨_, readDecimal?_point (fun c hc => hall c (List.mem_of_mem_take hc))
      (fun c hc => hall c (List.mem_of_mem_drop hc)) ?_, ?_⟩
    · rw [ne_eq, List.take_eq_nil_iff]
      rintro (h | h)
      · omega
      · exact hne h
    · unfold Decimal.value
      dsimp only
      rw [List.take_append_drop, ofDigits_digits, List.length_drop]
      congr 2
      omega
  · have hread := @readDecimal?_point ['0']
      (List.replicate ((-d.exponent).toNat - d.digits.length) '0' ++ d.digits) (by simp) ?_
      (by simp)
    · refine ⟨_, hread, ?_⟩
      unfold Decimal.value
      dsimp only
      rw [← List.append_assoc, ← List.replicate_one, List.replicate_append_replicate,
        ofDigits_zeros_append, ofDigits_digits, List.length_append, List.length_replicate]
      congr 2
      omega
    · intro c hc
      rcases List.mem_append.1 hc with hc | hc
      · exact isDigit_of_mem_zeros hc
      · exact hall c hc

namespace Binary64

/-! ### Reading a decimal in the interval of a number -/

theorem exponent_le {x : Binary64} (hx : x.IsUnsigned) : x.exponent ≤ 971 := by
  have := hx.1
  unfold exponent
  omega

/-- What rounds to a number is neither too small nor too great to be looked at. -/
theorem Reaches.bounds {x : Binary64} (hx : x.IsUnsigned) (hpos : 0 < x.significand) {v : ℚ}
    (h : x.Reaches v) : (2 : ℚ) ^ (-1075 : ℤ) ≤ v ∧ v < 2 ^ (1024 : ℤ) := by
  obtain ⟨hl, hh⟩ := h.weak
  have hp := x.place_pos
  have hone : (1 : ℚ) ≤ x.significand := by exact_mod_cast hpos
  have hsig : (x.significand : ℚ) + 1 ≤ 2 ^ 53 := by exact_mod_cast x.significand_lt
  constructor
  · have hplace : (2 : ℚ) ^ (-1074 : ℤ) ≤ x.place := zpow_le_zpow_right₀ one_le_two x.exponent_ge
    calc (2 : ℚ) ^ (-1075 : ℤ) = 2 ^ (-1074 : ℤ) / 2 := zpow_sub_one₀ two_ne_zero (-1074)
      _ ≤ x.place / 2 := by gcongr
      _ ≤ x.lowEnd := by
        rw [lowEnd, magnitude_eq]
        split_ifs <;> nlinarith
      _ ≤ v := hl
  · have hplace : x.place ≤ (2 : ℚ) ^ (971 : ℤ) := zpow_le_zpow_right₀ one_le_two (exponent_le hx)
    calc v ≤ x.highEnd := hh
      _ < 2 ^ 53 * x.place := by
        rw [highEnd, magnitude_eq]
        nlinarith
      _ ≤ 2 ^ 53 * 2 ^ (971 : ℤ) := by gcongr
      _ = 2 ^ (1024 : ℤ) := by
        rw [← zpow_natCast, ← zpow_add₀ two_ne_zero]
        norm_num

theorem two_zpow_le_ten_zpow {n : ℕ} : (2 : ℚ) ^ (3 * n : ℤ) ≤ 10 ^ (n : ℤ) := by
  rw [zpow_mul]
  norm_num
  gcongr
  norm_num

/-- A decimal in the interval of a number is read as that number. -/
theorem ofScientific_eq_of_reaches {x : Binary64} (hx : x.IsUnsigned) (hpos : 0 < x.significand)
    {d : Decimal} (h : x.Reaches d.value) : ofScientific d.coefficient d.exponent = x := by
  obtain ⟨hsmall, hgreat⟩ := h.bounds hx hpos
  have hvpos : 0 < d.value := lt_of_lt_of_le (by positivity) hsmall
  have hcoef : 0 < d.coefficient := by
    rcases Nat.eq_zero_or_pos d.coefficient with h0 | h0
    · simp [Decimal.value, h0] at hvpos
    · exact h0
  have hten (i j : ℤ) (hij : i ≤ j) : (10 : ℚ) ^ i ≤ 10 ^ j :=
    zpow_le_zpow_right₀ (by norm_num) hij
  have hupper : d.value < 10 ^ (digitCount d.coefficient + d.exponent) := by
    have : (d.coefficient : ℚ) < 10 ^ digitCount d.coefficient := by
      exact_mod_cast Rounding.lt_pow_digitCount d.coefficient
    rw [zpow_add₀ (by norm_num), zpow_natCast]
    unfold Decimal.value
    gcongr
  have hlower : (10 : ℚ) ^ (digitCount d.coefficient + d.exponent - 1) ≤ d.value := by
    have hle : ((10 ^ (digitCount d.coefficient - 1) : ℕ) : ℚ) ≤ d.coefficient := by
      exact_mod_cast Rounding.pow_digitCount_le hcoef
    have hcount : 0 < digitCount d.coefficient := Nat.length_toDigits_pos
    rw [show (digitCount d.coefficient + d.exponent - 1 : ℤ) =
      ((digitCount d.coefficient - 1 : ℕ) : ℤ) + d.exponent by omega, zpow_add₀ (by norm_num),
      zpow_natCast]
    push_cast at hle
    unfold Decimal.value
    gcongr
  simp only [ofScientific, Nat.pow_eq]
  rw [if_neg, if_neg]
  · refine ofRatio_eq_of_reaches hx (by positivity) (by positivity) ?_
    convert h using 1
    unfold Decimal.value
    push_cast
    rw [← zpow_mul_pow_toNat (by norm_num : (10 : ℚ) ≠ 0) d.exponent]
    field_simp
  · intro hcount
    have h1 : (10 : ℚ) ^ ((400 : ℕ) : ℤ) < 2 ^ (1024 : ℤ) :=
      (hten _ _ (by omega)).trans_lt (hlower.trans_lt hgreat)
    have h2 := (zpow_lt_zpow_iff_right₀ one_lt_two).1 (two_zpow_le_ten_zpow.trans_lt h1)
    omega
  · rintro (h0 | hcount)
    · omega
    · have h1 : (2 : ℚ) ^ (-1075 : ℤ) < 10 ^ (-((400 : ℕ) : ℤ)) :=
        hsmall.trans_lt (hupper.trans_le (hten _ _ (by omega)))
      rw [zpow_neg, zpow_neg, inv_lt_inv₀ (by positivity) (by positivity)] at h1
      have h2 := (zpow_lt_zpow_iff_right₀ one_lt_two).1 (two_zpow_le_ten_zpow.trans_lt h1)
      omega

/-! ### Numerals -/

/-- Nothing but the zero bits has no significand. -/
theorem eq_zero_of_significand {x : Binary64} (hx : x.IsUnsigned) (h : x.significand = 0) :
    x = zero := by
  have hexp := exponent_of_significand_lt (x := x) (by omega)
  have hbits := bits_eq hx
  rw [hexp, h] at hbits
  obtain ⟨bits⟩ := x
  simp only [zero, mk.injEq]
  exact UInt64.toNat_inj.1 (by simpa using hbits)

theorem numeral_eq {x : Binary64} (hx : x.IsUnsigned) :
    x.numeral = if x.significand = 0 then "0" else (x.shortest .up).positional := by
  have hexp := hx.1
  have hinf : x.isInfinite = false := by
    simp [isInfinite]
    omega
  have hnan : x.isNaN = false := by
    simp [isNaN]
    omega
  simp [numeral, hinf, hnan, hx.2]

/-- **A numeral reads back.** The numeral of a finite number without a sign gives that number
again. -/
theorem ofNumeral?_numeral {x : Binary64} (hx : x.IsUnsigned) : ofNumeral? x.numeral = some x := by
  rw [numeral_eq hx]
  split_ifs with h0
  · rw [eq_zero_of_significand hx h0]
    rfl
  · have hpos : 0 < x.significand := Nat.pos_of_ne_zero h0
    obtain ⟨d, hread, hvalue⟩ := readDecimal?_positional (x.shortest .up)
    have hreach : x.Reaches d.value := hvalue ▸ reaches_shortest hpos .up
    rw [ofNumeral?, Decimal.positional, String.toList_ofList, hread, Option.map_some,
      ofScientific_eq_of_reaches hx hpos hreach]

end Binary64

end LuaTranspiler
