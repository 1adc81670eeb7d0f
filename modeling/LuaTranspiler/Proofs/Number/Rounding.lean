import Mathlib.Algebra.Order.Field.Power
import Mathlib.Data.Nat.Log
import Mathlib.Tactic.FieldSimp
import Mathlib.Tactic.Linarith
import Mathlib.Tactic.NormNum
import Mathlib.Tactic.Positivity
import Mathlib.Tactic.Ring
import LuaTranspiler.Number.Shortest

/-!
# What rounds to a number

A finite number without a sign is `magnitude x`, a rational. The rationals that round to it lie
between `lowEnd x` and `highEnd x`; the ends belong to them when the significand is even.

* `Binary64.Reaches x v`: the rational `v` lies among those
* `Binary64.ofRatio_eq_of_reaches`: a quotient among them is rounded to `x`
* `Rounding.contains_iff`: the test in integers decides it
* `Binary64.reaches_shortest`: the shortest decimal lies among them
-/

namespace LuaTranspiler

/-- A power with an integer exponent as a quotient of powers with natural exponents. -/
theorem zpow_mul_pow_toNat {b : ℚ} (hb : b ≠ 0) (k : ℤ) :
    b ^ k * b ^ (-k).toNat = b ^ k.toNat := by
  rw [← zpow_natCast, ← zpow_natCast, ← zpow_add₀ hb]
  congr 1
  omega

namespace Binary64

/-- Whether the number is finite and has no sign. -/
def IsUnsigned (x : Binary64) : Prop := x.exponentField < 2047 ∧ x.isNegative = false

instance (x : Binary64) : Decidable x.IsUnsigned := inferInstanceAs (Decidable (_ ∧ _))

/-- The rational that a finite number without a sign stands for. -/
def magnitude (x : Binary64) : ℚ := x.significand * 2 ^ x.exponent

/-- The distance to the numbers above. -/
def place (x : Binary64) : ℚ := 2 ^ x.exponent

/-- The lower end of what rounds to a number. Below a power of two the numbers lie twice as
dense. -/
def lowEnd (x : Binary64) : ℚ :=
  x.magnitude - if x.fraction = 0 ∧ 1 < x.exponentField then x.place / 4 else x.place / 2

/-- The upper end of what rounds to a number. -/
def highEnd (x : Binary64) : ℚ := x.magnitude + x.place / 2

/-- Whether a rational is among those that round to a number. -/
def Reaches (x : Binary64) (v : ℚ) : Prop :=
  if x.significand % 2 = 0 then x.lowEnd ≤ v ∧ v ≤ x.highEnd else x.lowEnd < v ∧ v < x.highEnd

theorem place_pos (x : Binary64) : 0 < x.place := by
  unfold place
  positivity

theorem magnitude_eq (x : Binary64) : x.magnitude = x.significand * x.place := rfl

theorem Reaches.weak {x : Binary64} {v : ℚ} (h : x.Reaches v) : x.lowEnd ≤ v ∧ v ≤ x.highEnd := by
  unfold Reaches at h
  split_ifs at h with heven
  · exact h
  · exact ⟨h.1.le, h.2.le⟩

theorem Reaches.of_strict {x : Binary64} {v : ℚ} (hl : x.lowEnd < v) (hh : v < x.highEnd) :
    x.Reaches v := by
  unfold Reaches
  split_ifs
  · exact ⟨hl.le, hh.le⟩
  · exact ⟨hl, hh⟩

/-! ### Bits -/

theorem fraction_lt (x : Binary64) : x.fraction < 2 ^ 52 := by
  unfold fraction
  omega

theorem significand_lt (x : Binary64) : x.significand < 2 ^ 53 := by
  have := x.fraction_lt
  unfold significand
  split_ifs <;> omega

theorem exponent_ge (x : Binary64) : -1074 ≤ x.exponent := by
  unfold exponent
  omega

/-- A significand without its leading bit belongs to the least exponent. -/
theorem exponent_of_significand_lt {x : Binary64} (h : x.significand < 2 ^ 52) :
    x.exponent = -1074 := by
  unfold significand at h
  unfold exponent
  split_ifs at h with he
  · rw [he]
    rfl
  · omega

/-- The bits of a number without a sign, from its exponent and its significand. -/
theorem bits_eq {x : Binary64} (hx : x.IsUnsigned) :
    x.bits.toNat = (x.exponent + 1074).toNat * 2 ^ 52 + x.significand := by
  have hlt : x.bits.toNat < 2 ^ 63 := by simpa [isNegative] using hx.2
  have hfield : x.exponentField = x.bits.toNat / 2 ^ 52 := by
    unfold exponentField
    omega
  unfold significand exponent fraction
  split_ifs with he
  · rw [he]
    have : x.bits.toNat / 2 ^ 52 = 0 := by omega
    simp
    omega
  · have h : ((max x.exponentField 1 : ℕ) - 1075 + 1074 : ℤ).toNat = x.exponentField - 1 := by
      omega
    rw [h]
    omega

theorem bits_lt_infinity {x : Binary64} (hx : x.IsUnsigned) :
    x.bits.toNat < infinity.bits.toNat := by
  have hlt : x.bits.toNat < 2 ^ 63 := by simpa [isNegative] using hx.2
  have hfield := hx.1
  have hinf : infinity.bits.toNat = 2047 * 2 ^ 52 := by decide
  unfold exponentField at hfield
  omega

/-- A number is known by the bits that its exponent and its significand make. -/
theorem eq_of_bits {x : Binary64} (hx : x.IsUnsigned) {n : ℕ} (hn : n = x.bits.toNat) :
    (if infinity.bits.toNat ≤ n then infinity else ⟨UInt64.ofNat n⟩) = x := by
  have hlt := bits_lt_infinity hx
  rw [if_neg (by omega), hn]
  simp

/-! ### Rounding a quotient -/

/-- A quotient is rounded to an integer that it is at most one half away from, at one half only if
that integer is even. -/
theorem roundDiv_eq {num den m : ℕ} (hden : 0 < den) (hl : 2 * m * den ≤ 2 * num + den)
    (hh : 2 * num ≤ 2 * m * den + den)
    (htie : m % 2 = 0 ∨ 2 * m * den < 2 * num + den ∧ 2 * num < 2 * m * den + den) :
    roundDiv num den = m := by
  have hdiv := Nat.div_add_mod num den
  have hmod := Nat.mod_lt num hden
  unfold roundDiv
  generalize num / den = q at *
  generalize num % den = r at *
  have hm : m = q ∨ m = q + 1 := by
    have h1 : m < q + 2 := by
      by_contra h
      have := Nat.mul_le_mul_right den (Nat.le_of_not_lt h)
      nlinarith
    have h2 : q < m + 1 := by
      by_contra h
      have := Nat.mul_le_mul_right den (Nat.le_of_not_lt h)
      nlinarith
    omega
  obtain rfl | rfl := hm
  · have hr : 2 * r ≤ den := by nlinarith
    rw [if_pos]
    simp only [Bool.or_eq_true, Bool.and_eq_true, decide_eq_true_eq]
    rcases Nat.lt_or_eq_of_le hr with h | h
    · exact Or.inl h
    · refine Or.inr ⟨h, ?_⟩
      rcases htie with h' | ⟨-, h'⟩
      · exact h'
      · nlinarith
  · have hr : den ≤ 2 * r := by nlinarith
    rw [if_neg]
    simp only [Bool.or_eq_true, Bool.and_eq_true, decide_eq_true_eq]
    rintro (h | ⟨h, h'⟩)
    · omega
    · rcases htie with h'' | ⟨h'', -⟩
      · omega
      · nlinarith

/-- The same for a quotient that is scaled by a power of two first. -/
theorem roundDiv_scaled {num den m : ℕ} (q : ℤ) (hden : 0 < den)
    (hl : ((m : ℚ) - 1 / 2) * 2 ^ q ≤ num / den) (hh : (num / den : ℚ) ≤ (m + 1 / 2) * 2 ^ q)
    (htie : m % 2 = 0 ∨
      ((m : ℚ) - 1 / 2) * 2 ^ q < num / den ∧ (num / den : ℚ) < (m + 1 / 2) * 2 ^ q) :
    roundDiv (num * 2 ^ (-q).toNat) (den * 2 ^ q.toNat) = m := by
  have hd : (0 : ℚ) < den := by exact_mod_cast hden
  have hp : (0 : ℚ) < 2 ^ q := by positivity
  have hD : (0 : ℚ) < den * 2 ^ q.toNat := by positivity
  have hN : (num * 2 ^ (-q).toNat : ℚ) * 2 ^ q = num / den * (den * 2 ^ q.toNat) := by
    rw [← zpow_mul_pow_toNat (two_ne_zero) q]
    field_simp
  -- multiplied by `2 ^ q`, each bound on the scaled quotient is one on the quotient
  have key (a : ℚ) : (a * (den * 2 ^ q.toNat) ≤ num * 2 ^ (-q).toNat ↔ a * 2 ^ q ≤ num / den) ∧
      (num * 2 ^ (-q).toNat ≤ a * (den * 2 ^ q.toNat) ↔ (num / den : ℚ) ≤ a * 2 ^ q) := by
    have ha : a * (den * 2 ^ q.toNat) * 2 ^ q = a * 2 ^ q * (den * 2 ^ q.toNat : ℚ) := by ring
    constructor
    · rw [← mul_le_mul_iff_left₀ hp, hN, ha, mul_le_mul_iff_left₀ hD]
    · rw [← mul_le_mul_iff_left₀ hp, hN, ha, mul_le_mul_iff_left₀ hD]
  have hlow := (key (m - 1 / 2)).1
  have hhigh := (key (m + 1 / 2)).2
  have hlow' := (key (m - 1 / 2)).2.not
  have hhigh' := (key (m + 1 / 2)).1.not
  rw [not_le, not_le] at hlow' hhigh'
  refine roundDiv_eq (by positivity) ?_ ?_ (htie.imp_right fun ⟨h1, h2⟩ => ⟨?_, ?_⟩)
  · have := hlow.2 hl
    rw [← Nat.cast_le (α := ℚ)]
    push_cast
    linarith
  · have := hhigh.2 hh
    rw [← Nat.cast_le (α := ℚ)]
    push_cast
    linarith
  · have := hlow'.2 h1
    rw [← Nat.cast_lt (α := ℚ)]
    push_cast
    linarith
  · have := hhigh'.2 h2
    rw [← Nat.cast_lt (α := ℚ)]
    push_cast
    linarith

/-- The last place of a quotient is the one of 53 binary digits, unless it is the least of all. -/
theorem placeExponent_spec {num den : ℕ} (hnum : 0 < num) (hden : 0 < den) :
    -1074 ≤ placeExponent num den ∧ (num / den : ℚ) < 2 ^ (placeExponent num den + 53) ∧
      ((2 : ℚ) ^ (placeExponent num den + 52) ≤ num / den ∨ placeExponent num den = -1074) := by
  have hd : (0 : ℚ) < den := by exact_mod_cast hden
  have hn1 : (2 : ℚ) ^ (num.log2 : ℤ) ≤ num := by
    exact_mod_cast Nat.log2_self_le (Nat.pos_iff_ne_zero.1 hnum)
  have hn2 : (num : ℚ) < 2 ^ ((num.log2 : ℤ) + 1) := by exact_mod_cast Nat.lt_log2_self
  have hd1 : (2 : ℚ) ^ (den.log2 : ℤ) ≤ den := by
    exact_mod_cast Nat.log2_self_le (Nat.pos_iff_ne_zero.1 hden)
  have hd2 : (den : ℚ) < 2 ^ ((den.log2 : ℤ) + 1) := by exact_mod_cast Nat.lt_log2_self
  simp only [placeExponent, Nat.shiftLeft_eq]
  generalize hE : (num.log2 : ℤ) - den.log2 = E
  have hlow : (2 : ℚ) ^ (E - 1) ≤ num / den := by
    rw [le_div_iff₀ hd, ← hE]
    calc (2 : ℚ) ^ ((num.log2 : ℤ) - den.log2 - 1) * den
        ≤ 2 ^ ((num.log2 : ℤ) - den.log2 - 1) * 2 ^ ((den.log2 : ℤ) + 1) := by gcongr
      _ = 2 ^ (num.log2 : ℤ) := by
        rw [← zpow_add₀ two_ne_zero]
        congr 1
        ring
      _ ≤ num := hn1
  have hhigh : (num / den : ℚ) < 2 ^ (E + 1) := by
    rw [div_lt_iff₀ hd, ← hE]
    calc (num : ℚ) < 2 ^ ((num.log2 : ℤ) + 1) := hn2
      _ = 2 ^ ((num.log2 : ℤ) - den.log2 + 1) * 2 ^ (den.log2 : ℤ) := by
        rw [← zpow_add₀ two_ne_zero]
        congr 1
        ring
      _ ≤ 2 ^ ((num.log2 : ℤ) - den.log2 + 1) * den := by gcongr
  have htest : den * 2 ^ E.toNat ≤ num * 2 ^ (-E).toNat ↔ (2 : ℚ) ^ E ≤ num / den := by
    have hp : (0 : ℚ) < 2 ^ (-E).toNat := by positivity
    rw [le_div_iff₀ hd, ← mul_le_mul_iff_left₀ hp, ← Nat.cast_le (α := ℚ)]
    push_cast
    rw [← zpow_mul_pow_toNat two_ne_zero E]
    ring_nf
  have mono (i j : ℤ) (h : i ≤ j) : (2 : ℚ) ^ i ≤ 2 ^ j := zpow_le_zpow_right₀ one_le_two h
  split_ifs with h
  · have h' := htest.1 h
    refine ⟨le_max_right _ _, hhigh.trans_le (mono _ _ (by omega)), ?_⟩
    rcases le_total (-1074) (E - 52) with hc | hc
    · exact Or.inl ((mono _ _ (by omega)).trans h')
    · exact Or.inr (max_eq_right hc)
  · have h' := not_le.1 (htest.not.1 h)
    refine ⟨le_max_right _ _, h'.trans_le (mono _ _ (by omega)), ?_⟩
    rcases le_total (-1074) (E - 53) with hc | hc
    · exact Or.inl ((mono _ _ (by omega)).trans hlow)
    · exact Or.inr (max_eq_right hc)

/-- The place of a quotient that rounds to a number is that of the number, or the next finer one
just below a power of two. -/
theorem placeExponent_of_reaches {x : Binary64} {num den : ℕ} (hnum : 0 < num) (hden : 0 < den)
    (h : x.Reaches (num / den)) :
    placeExponent num den = x.exponent ∨
      (placeExponent num den = x.exponent - 1 ∧ x.significand = 2 ^ 52 ∧ x.fraction = 0 ∧
        1 < x.exponentField ∧ (num / den : ℚ) < 2 ^ 52 * x.place) := by
  obtain ⟨hq, hqh, hql⟩ := placeExponent_spec hnum hden
  generalize placeExponent num den = q at *
  generalize (num / den : ℚ) = v at *
  obtain ⟨hl, hh⟩ := h.weak
  have hp := x.place_pos
  have hm := x.significand_lt
  have he := x.exponent_ge
  have hlow : ((x.significand : ℚ) - 1 / 2) * x.place ≤ v := by
    refine le_trans ?_ hl
    unfold lowEnd
    rw [magnitude_eq]
    split_ifs <;> linarith
  have hhigh : v < 2 ^ (x.exponent + 53) := by
    refine lt_of_le_of_lt hh ?_
    have hm' : (x.significand : ℚ) + 1 ≤ 2 ^ 53 := by exact_mod_cast hm
    rw [zpow_add₀ two_ne_zero, highEnd, magnitude_eq]
    change _ < x.place * _
    norm_num at hm' ⊢
    nlinarith
  have mono {i j : ℤ} (h : (2 : ℚ) ^ i < 2 ^ j) : i < j := (zpow_lt_zpow_iff_right₀ one_lt_two).1 h
  have hqe : q ≤ x.exponent := by
    rcases hql with h | h
    · have := mono (h.trans_lt hhigh)
      omega
    · omega
  rcases lt_or_ge x.significand (2 ^ 52) with hsub | hnorm
  · have := exponent_of_significand_lt hsub
    exact Or.inl (by omega)
  rcases le_or_gt (2 ^ 52 * x.place) v with hv | hv
  · have hpow : (2 : ℚ) ^ (x.exponent + 52) = 2 ^ 52 * x.place := by
      rw [zpow_add₀ two_ne_zero, mul_comm]
      rfl
    have := mono (hpow.trans_le hv |>.trans_lt hqh)
    exact Or.inl (by omega)
  -- now the quotient lies below the power of two that the number is
  have hm52 : x.significand = 2 ^ 52 := by
    have : (x.significand : ℚ) - 1 / 2 < 2 ^ 52 :=
      lt_of_mul_lt_mul_right (hlow.trans_lt hv) hp.le
    have : (x.significand : ℚ) < ((2 ^ 52 + 1 : ℕ) : ℚ) := by
      push_cast
      linarith
    have : x.significand < 2 ^ 52 + 1 := by exact_mod_cast this
    omega
  have hfrac : x.fraction = 0 ∧ x.exponentField ≠ 0 := by
    have := x.fraction_lt
    unfold significand at hm52
    split_ifs at hm52 with h0
    · omega
    · exact ⟨by omega, h0⟩
  rcases Nat.lt_or_ge 1 x.exponentField with hf | hf
  · have hpow : (2 : ℚ) ^ (x.exponent + 51) = 2 ^ 51 * x.place := by
      rw [zpow_add₀ two_ne_zero, mul_comm]
      rfl
    have hlt : (2 : ℚ) ^ (x.exponent + 51) < 2 ^ (q + 53) := by
      refine lt_of_le_of_lt ?_ hqh
      refine le_trans ?_ hlow
      rw [hpow, hm52]
      push_cast
      norm_num
      linarith
    have := mono hlt
    rcases (show q = x.exponent ∨ q = x.exponent - 1 by omega) with h | h
    · exact Or.inl h
    · exact Or.inr ⟨h, hm52, hfrac.1, hf, hv⟩
  · have : x.exponent = -1074 := by
      unfold exponent
      omega
    exact Or.inl (by omega)

/-- **What lies in the interval of a number is rounded to it.** -/
theorem ofRatio_eq_of_reaches {x : Binary64} (hx : x.IsUnsigned) {num den : ℕ} (hnum : 0 < num)
    (hden : 0 < den) (h : x.Reaches (num / den)) : ofRatio num den = x := by
  unfold ofRatio
  rw [if_neg (by omega)]
  simp only [Nat.shiftLeft_eq]
  refine eq_of_bits hx ?_
  rw [bits_eq hx]
  obtain ⟨hl, hh⟩ := h.weak
  have hp := x.place_pos
  rcases placeExponent_of_reaches hnum hden h with hq | ⟨hq, hm, hf, hE, hv⟩
  · rw [hq]
    congr 1
    have hhalf : ((x.significand : ℚ) - 1 / 2) * 2 ^ x.exponent ≤ x.lowEnd := by
      change _ * x.place ≤ _
      rw [lowEnd, magnitude_eq]
      split_ifs <;> linarith
    have htop : x.highEnd = ((x.significand : ℚ) + 1 / 2) * 2 ^ x.exponent := by
      change _ = _ * x.place
      rw [highEnd, magnitude_eq]
      ring
    refine roundDiv_scaled x.exponent hden (hhalf.trans hl) (htop ▸ hh) ?_
    unfold Reaches at h
    split_ifs at h with heven
    · exact Or.inl heven
    · exact Or.inr ⟨hhalf.trans_lt h.1, htop ▸ h.2⟩
  · -- one place finer, the quotient is rounded up to the power of two
    have hround : roundDiv (num * 2 ^ (-(x.exponent - 1)).toNat) (den * 2 ^ (x.exponent - 1).toNat)
        = 2 ^ 53 := by
      have hhalf : (2 : ℚ) ^ (x.exponent - 1) = x.place / 2 := zpow_sub_one₀ two_ne_zero _
      refine roundDiv_scaled (x.exponent - 1) hden ?_ ?_ (Or.inl (by norm_num))
      · rw [lowEnd, if_pos ⟨hf, hE⟩, magnitude_eq, hm] at hl
        rw [hhalf]
        push_cast at hl ⊢
        linarith
      · rw [hhalf]
        push_cast
        linarith
    rw [hq, hround, hm]
    have hexp : -1073 ≤ x.exponent := by
      unfold exponent
      omega
    omega

end Binary64

/-! ### The interval in integers -/

namespace Rounding

open Binary64

variable {x : Binary64}

theorem den_pos (x : Binary64) : (0 : ℚ) < (ofBinary64 x).den := by
  have : 0 < (ofBinary64 x).den := by
    simp only [ofBinary64, Nat.shiftLeft_eq]
    positivity
  exact_mod_cast this

/-- The unit of the integers is a quarter of a place. -/
theorem place_mul_den (x : Binary64) :
    x.place * (ofBinary64 x).den = 4 * 2 ^ x.exponent.toNat := by
  have h : ((ofBinary64 x).den : ℚ) = 4 * 2 ^ (-x.exponent).toNat := by
    simp only [ofBinary64, Nat.shiftLeft_eq]
    push_cast
    rfl
  rw [h, ← zpow_mul_pow_toNat two_ne_zero x.exponent]
  unfold place
  ring

theorem value_eq (x : Binary64) :
    ((ofBinary64 x).value : ℚ) = x.magnitude * (ofBinary64 x).den := by
  rw [magnitude_eq, mul_assoc, place_mul_den]
  simp only [ofBinary64, Nat.shiftLeft_eq]
  push_cast
  ring

theorem high_eq (x : Binary64) : ((ofBinary64 x).high : ℚ) = x.highEnd * (ofBinary64 x).den := by
  have h : (ofBinary64 x).high = (ofBinary64 x).value + 2 * 2 ^ x.exponent.toNat := by
    simp only [ofBinary64, Nat.one_shiftLeft]
  rw [h, highEnd, add_mul, ← value_eq, div_mul_eq_mul_div, place_mul_den]
  push_cast
  ring

theorem low_eq (hpos : 0 < x.significand) :
    ((ofBinary64 x).low : ℚ) = x.lowEnd * (ofBinary64 x).den := by
  have hunit : 4 * 2 ^ x.exponent.toNat ≤ (ofBinary64 x).value := by
    simp only [ofBinary64, Nat.one_shiftLeft]
    nlinarith [Nat.two_pow_pos x.exponent.toNat]
  have h : (ofBinary64 x).low = (ofBinary64 x).value -
      (if x.fraction = 0 ∧ 1 < x.exponentField then 2 ^ x.exponent.toNat
        else 2 * 2 ^ x.exponent.toNat) := by
    simp only [ofBinary64, Nat.one_shiftLeft]
  rw [h, lowEnd, sub_mul, ← value_eq]
  split_ifs
  · rw [Nat.cast_sub (by omega), div_mul_eq_mul_div, place_mul_den]
    push_cast
    ring
  · rw [Nat.cast_sub (by omega), div_mul_eq_mul_div, place_mul_den]
    push_cast
    ring

/-- The comparisons of the test, as comparisons of rationals. -/
theorem scaled_le_iff {a n : ℕ} {k : ℤ} {v : ℚ} (hn : (n : ℚ) = v * (ofBinary64 x).den) :
    (n * 10 ^ (-k).toNat ≤ a * 10 ^ k.toNat * (ofBinary64 x).den ↔ v ≤ a * 10 ^ k) ∧
      (a * 10 ^ k.toNat * (ofBinary64 x).den ≤ n * 10 ^ (-k).toNat ↔ (a : ℚ) * 10 ^ k ≤ v) := by
  have hscale : (0 : ℚ) < (ofBinary64 x).den * 10 ^ (-k).toNat :=
    mul_pos (den_pos x) (by positivity)
  have hl : ((n * 10 ^ (-k).toNat : ℕ) : ℚ) = v * ((ofBinary64 x).den * 10 ^ (-k).toNat) := by
    push_cast
    rw [hn]
    ring
  have hr : ((a * 10 ^ k.toNat * (ofBinary64 x).den : ℕ) : ℚ) =
      a * 10 ^ k * ((ofBinary64 x).den * 10 ^ (-k).toNat) := by
    push_cast
    rw [← zpow_mul_pow_toNat (by norm_num : (10 : ℚ) ≠ 0) k]
    ring
  rw [← Nat.cast_le (α := ℚ), ← Nat.cast_le (α := ℚ), hl, hr, mul_le_mul_iff_left₀ hscale,
    mul_le_mul_iff_left₀ hscale]
  exact ⟨Iff.rfl, Iff.rfl⟩

/-- The test in integers decides whether a decimal rounds to the number. -/
theorem contains_iff (hpos : 0 < x.significand) (a : ℕ) (k : ℤ) :
    (ofBinary64 x).contains a k = true ↔ x.Reaches (a * 10 ^ k) := by
  have hl := scaled_le_iff (a := a) (k := k) (low_eq hpos)
  have hh := scaled_le_iff (a := a) (k := k) (high_eq x)
  unfold contains Reaches
  simp only [Nat.pow_eq]
  have hclosed : (ofBinary64 x).closed = decide (x.significand % 2 = 0) := rfl
  rw [hclosed]
  split_ifs with h1 h2 h2
  · rw [Bool.and_eq_true, decide_eq_true_eq, decide_eq_true_eq, hl.1, hh.2]
  · simp [h2] at h1
  · simp [h2] at h1
  · rw [Bool.and_eq_true, decide_eq_true_eq, decide_eq_true_eq, ← not_le, hl.2, ← not_le, hh.1,
      not_le, not_le]

/-! ### The search for the shortest decimal -/

theorem floorOn_le (x : Binary64) (k : ℤ) :
    ((ofBinary64 x).floorOn k : ℚ) * 10 ^ k ≤ x.magnitude := by
  rw [← (scaled_le_iff (a := (ofBinary64 x).floorOn k) (k := k) (value_eq x)).2]
  have := Nat.div_mul_le_self ((ofBinary64 x).value * 10 ^ (-k).toNat)
    ((ofBinary64 x).den * 10 ^ k.toNat)
  simp only [floorOn, Nat.pow_eq]
  linarith

theorem lt_floorOn (x : Binary64) (k : ℤ) :
    x.magnitude < ((ofBinary64 x).floorOn k + 1 : ℕ) * 10 ^ k := by
  rw [← not_le, ← (scaled_le_iff (a := (ofBinary64 x).floorOn k + 1) (k := k) (value_eq x)).2,
    not_le]
  have hpos : 0 < (ofBinary64 x).den * 10 ^ k.toNat := by
    have := den_pos x
    have : 0 < (ofBinary64 x).den := by exact_mod_cast this
    positivity
  have := Nat.lt_mul_div_succ ((ofBinary64 x).value * 10 ^ (-k).toNat) hpos
  simp only [floorOn, Nat.pow_eq]
  linarith

theorem nearer_eq (r : Rounding) (tie : Tie) (a : ℕ) (k : ℤ) :
    r.nearer tie a k = a ∨ r.nearer tie a k = a + 1 := by
  unfold nearer
  dsimp only
  cases tie <;> dsimp only <;> split_ifs <;> simp

/-- What is picked on a grid lies in the interval. -/
theorem contains_of_pick {r : Rounding} {tie : Tie} {k : ℤ} {a : ℕ} (h : r.pick tie k = some a) :
    r.contains a k = true := by
  unfold pick at h
  dsimp only at h
  split at h
  · rename_i h1 h2
    cases h
    rcases r.nearer_eq tie (r.floorOn k) k with h | h
    · rwa [h]
    · rwa [h]
  · rename_i h1 _
    cases h
    exact h1
  · rename_i _ h2
    cases h
    exact h2
  · cases h

/-- A grid that is finer than the interval is wide has a point in it. -/
theorem pick_isSome (hpos : 0 < x.significand) (tie : Tie) {k : ℤ}
    (hwide : (10 : ℚ) ^ k < x.highEnd - x.lowEnd) : ((ofBinary64 x).pick tie k).isSome := by
  have hp := x.place_pos
  have hlow := floorOn_le x k
  have hhigh := lt_floorOn x k
  have hin : x.magnitude < x.highEnd := by
    unfold highEnd
    linarith
  have hin' : x.lowEnd < x.magnitude := by
    unfold lowEnd
    split_ifs <;> linarith
  have hone : x.Reaches ((ofBinary64 x).floorOn k * 10 ^ k) ∨
      x.Reaches (((ofBinary64 x).floorOn k + 1 : ℕ) * 10 ^ k) := by
    rcases le_or_gt ((ofBinary64 x).floorOn k * 10 ^ k : ℚ) x.lowEnd with h | h
    · refine Or.inr (.of_strict (hin'.trans hhigh) ?_)
      push_cast
      linarith
    · exact Or.inl (.of_strict h (hlow.trans_lt hin))
  rw [← contains_iff hpos, ← contains_iff hpos] at hone
  unfold pick
  dsimp only
  split
  · rfl
  · rfl
  · rfl
  · rename_i h1 h2
    rcases hone with h | h
    · simp [h1] at h
    · simp [h2] at h

/-- The search ends in the interval as soon as one of its grids has a point there. -/
theorem contains_search {r : Rounding} {tie : Tie} {n : ℕ} {k : ℤ}
    (h : ∃ i < n, (r.pick tie (k - i)).isSome) :
    r.contains (r.search tie n k).coefficient (r.search tie n k).exponent = true := by
  induction n generalizing k with
  | zero => obtain ⟨i, hi, -⟩ := h; omega
  | succ n ih =>
    unfold search
    cases hk : r.pick tie k with
    | some a => exact contains_of_pick hk
    | none =>
      refine ih ?_
      obtain ⟨i, hi, hpick⟩ := h
      cases i with
      | zero => simp [hk] at hpick
      | succ i =>
        refine ⟨i, by omega, ?_⟩
        rwa [show k - 1 - (i : ℤ) = k - ((i + 1 : ℕ) : ℤ) by push_cast; ring]

/-- Digits are counted by powers of ten. -/
theorem pow_digitCount_le {n : ℕ} (hn : 0 < n) : 10 ^ (digitCount n - 1) ≤ n := by
  unfold digitCount
  by_contra h
  have hpos := Nat.length_toDigits_pos (b := 10) (n := n)
  rcases Nat.eq_zero_or_pos ((Nat.toDigits 10 n).length - 1) with h0 | h0
  · rw [h0] at h
    omega
  · have := (Nat.length_toDigits_le_iff (by norm_num) h0).2 (not_le.1 h)
    omega

theorem lt_pow_digitCount (n : ℕ) : n < 10 ^ digitCount n :=
  (Nat.length_toDigits_le_iff (by norm_num) Nat.length_toDigits_pos).1 le_rfl

/-- The first grid is not coarser than the number is great. -/
theorem pow_magnitude_le (hpos : 0 < x.significand) :
    (10 : ℚ) ^ (ofBinary64 x).magnitude ≤ x.magnitude := by
  have hval := value_eq x
  have hden := den_pos x
  have hmag : 0 < x.magnitude := by
    rw [magnitude_eq]
    have : (0 : ℚ) < x.significand := by exact_mod_cast hpos
    have := x.place_pos
    positivity
  have hvpos : (0 : ℚ) < (ofBinary64 x).value := by
    rw [hval]
    positivity
  have heq : x.magnitude = (ofBinary64 x).value / (ofBinary64 x).den := by
    rw [hval]
    field_simp
  rw [heq]
  unfold Rounding.magnitude
  generalize (ofBinary64 x).value = v at *
  generalize (ofBinary64 x).den = d at *
  have hv : 0 < v := by exact_mod_cast hvpos
  have hd : 0 < d := by exact_mod_cast hden
  split_ifs with h1
  · have hdiv : 0 < v / d := Nat.div_pos h1 hd
    have hle : 10 ^ (digitCount (v / d) - 1) * d ≤ v :=
      (Nat.mul_le_mul_right d (pow_digitCount_le hdiv)).trans (Nat.div_mul_le_self v d)
    have hcount : 0 < digitCount (v / d) := Nat.length_toDigits_pos
    rw [le_div_iff₀ hden, show (digitCount (v / d) : ℤ) - 1 = ((digitCount (v / d) - 1 : ℕ) : ℤ) by
      omega, zpow_natCast]
    exact_mod_cast hle
  · dsimp only
    have hcount : 0 < digitCount (d / v) := Nat.length_toDigits_pos
    split_ifs with h2
    · have hexponent : (1 : ℤ) - digitCount (d / v) = -((digitCount (d / v) - 1 : ℕ) : ℤ) := by omega
      rw [le_div_iff₀ hden, hexponent, zpow_neg, zpow_natCast, inv_mul_le_iff₀ (by positivity)]
      have : (d : ℚ) ≤ ((v * 10 ^ (digitCount (d / v) - 1) : ℕ) : ℚ) := by exact_mod_cast h2
      push_cast at this
      linarith
    · rw [le_div_iff₀ hden, zpow_neg, zpow_natCast, inv_mul_le_iff₀ (by positivity)]
      have hlt : d < v * 10 ^ digitCount (d / v) :=
        (Nat.lt_mul_div_succ d hv).trans_le (Nat.mul_le_mul_left v (lt_pow_digitCount (d / v)))
      have : (d : ℚ) < ((v * 10 ^ digitCount (d / v) : ℕ) : ℚ) := by exact_mod_cast hlt
      push_cast at this
      linarith

/-- Seventeen digits are enough: the interval is wider than their grid. -/
theorem seventeenth_grid_lt (hpos : 0 < x.significand) :
    (10 : ℚ) ^ ((ofBinary64 x).magnitude - 16) < x.highEnd - x.lowEnd := by
  have hp := x.place_pos
  have hgrid : (10 : ℚ) ^ ((ofBinary64 x).magnitude - 16) * 10 ^ 16 ≤ x.significand * x.place := by
    rw [← magnitude_eq, zpow_sub₀ (by norm_num), zpow_ofNat, div_mul_cancel₀ _ (by norm_num)]
    exact pow_magnitude_le hpos
  have hsig : (x.significand : ℚ) ≤ 2 ^ 53 := by exact_mod_cast x.significand_lt.le
  have hplace : (x.significand : ℚ) * x.place ≤ 2 ^ 53 * x.place := by gcongr
  unfold highEnd lowEnd
  split_ifs with h
  · have h52 : x.significand = 2 ^ 52 := by
      unfold significand
      rw [if_neg (by omega), h.1, Nat.add_zero]
      norm_num
    rw [h52] at hgrid
    push_cast at hgrid
    norm_num at hgrid ⊢
    linarith
  · norm_num at hgrid hplace ⊢
    linarith

end Rounding

/-! ### The shortest decimal -/

/-- The rational that a decimal stands for. -/
def Decimal.value (d : Decimal) : ℚ := d.coefficient * 10 ^ d.exponent

/-- Zeros at the end of a coefficient do not count. -/
theorem Decimal.value_stripZeros (d : Decimal) : d.stripZeros.value = d.value := by
  fun_induction Decimal.stripZeros d with
  | case1 d h ih =>
    rw [ih]
    have hc : d.coefficient = 10 * (d.coefficient / 10) := by omega
    have : (d.coefficient : ℚ) = 10 * (d.coefficient / 10 : ℕ) := by exact_mod_cast hc
    unfold value
    rw [this, zpow_add_one₀ (by norm_num)]
    ring
  | case2 d h => rfl

/-- **The shortest decimal of a number rounds to it.** -/
theorem Binary64.reaches_shortest {x : Binary64} (hpos : 0 < x.significand) (tie : Tie) :
    x.Reaches (x.shortest tie).value := by
  unfold shortest
  dsimp only
  rw [Decimal.value_stripZeros]
  have hpick := Rounding.pick_isSome hpos tie (Rounding.seventeenth_grid_lt hpos)
  have hcontains := Rounding.contains_search (n := 17) ⟨16, by norm_num, hpick⟩
  exact (Rounding.contains_iff hpos _ _).1 hcontains

end LuaTranspiler
