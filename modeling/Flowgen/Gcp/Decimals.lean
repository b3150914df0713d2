/-
# `Flowgen.Gcp.Decimals` — decimal columns of a BigQuery result
(`gcp/src/bigquery/query.rs`)

A decimal is read as a double, multiplied by a power of ten, rounded to an integer, and cast
to 128 bits.  It is decoded exactly if and only if the product, before it is rounded, is one
that reaches the integer (`decimals_exact_iff`).  That of a `NUMERIC` of 15 digits does
(`numeric_short`).
-/
import Flowgen.Gcp.Columns

namespace Flowgen.Gcp.Columns

open Flowgen.Lib

/-- A product that is rounded to this integer of 128 bits.  The bounds of these are reached
from half a place below the power of two. -/
def LandsI128 (y : ℚ) (n : ℤ) : Prop :=
  0 ≤ y ∧ (n < 2 ^ 127 - 1 ∧ Lands y n ∨ n = 2 ^ 127 - 1 ∧ (2 : ℚ) ^ 127 - 2 ^ 73 ≤ y) ∨
    y < 0 ∧ (-2 ^ 127 < n ∧ Lands (-y) (-n) ∨ n = -2 ^ 127 ∧ (2 : ℚ) ^ 127 - 2 ^ 73 ≤ -y)

/-- The integer that is written, in units of `10 ^ -scale`. -/
def scaled (d : Decimal) (scale : ℕ) : ℤ :=
  d.sign * (d.magnitude * 10 ^ (scale - d.fraction.length))

variable {lib : Libraries} {y : ℚ} {n : ℤ}

theorem saturate_iff : F64.saturate 127 (roundAway (nearest y)) = n ↔ LandsI128 y n := by
  unfold LandsI128 F64.saturate
  rcases le_or_gt 0 y with hy | hy
  · have hnonneg := roundAway_nonneg hy
    rw [or_iff_left (fun h => absurd hy (not_le.mpr h.1)), and_iff_right hy, ← lands_iff hy]
    rcases le_or_gt ((2 : ℚ) ^ 127 - 2 ^ 73) y with hlarge | hsmall
    · have h := saturates_of_le hlarge
      rw [and_iff_left hlarge]
      omega
    · have h := lt_of_not_saturates hy hsmall
      rw [or_iff_left (fun h => absurd h.2 (not_le.mpr hsmall))]
      omega
  · have hneg : 0 ≤ -y := by linarith
    have hnonneg := roundAway_nonneg hneg
    have hround : roundAway (nearest y) = -roundAway (nearest (-y)) := by
      rw [nearest_neg, roundAway_neg, neg_neg]
    rw [hround, or_iff_right (fun h => absurd h.1 (not_le.mpr hy)), and_iff_right hy,
      ← lands_iff hneg]
    rcases le_or_gt ((2 : ℚ) ^ 127 - 2 ^ 73) (-y) with hlarge | hsmall
    · have h := saturates_of_le hlarge
      rw [and_iff_left hlarge]
      omega
    · have h := lt_of_not_saturates hneg hsmall
      rw [or_iff_left (fun h => absurd h.2 (not_le.mpr hsmall))]
      omega

/-- What is computed of a decimal that is not too large. -/
theorem parseDecimal128_text (d : Decimal) (scale : ℕ) (hvalue : |d.value| ≤ 10 ^ 38)
    (hpowi : |lib.powi scale| ≤ 10 ^ 39) :
    parseDecimal128 lib d.text scale =
      some (F64.saturate 127 (roundAway (nearest (nearest d.value * lib.powi scale)))) := by
  have hvalue' : |d.value| ≤ 10 ^ 80 := hvalue.trans (by norm_num)
  have hproduct : |nearest d.value * lib.powi scale| ≤ 10 ^ 80 := by
    have hnearest := abs_nearest_le d.value
    rw [abs_mul]
    calc |nearest d.value| * |lib.powi scale|
        ≤ (2 * 10 ^ 38 + 1) * 10 ^ 39 :=
          mul_le_mul (by linarith) hpowi (abs_nonneg _) (by norm_num)
      _ ≤ 10 ^ 80 := by norm_num
  rw [parseDecimal128, Decimal.parse_text, Option.map_some, F64.ofRat_of_le hvalue', F64.mul,
    F64.ofRat_of_le hproduct, F64.round, F64.toInt, F64.truncate_intCast]

theorem abs_value_le (d : Decimal) (hwhole : d.whole.length ≤ 38) : |d.value| ≤ 10 ^ 38 := by
  have hmagnitude : (d.magnitude : ℚ) ≤ 10 ^ (38 + d.fraction.length) := by
    have h := Decimal.foldl_lt (d.whole ++ d.fraction)
    have hle : d.magnitude ≤ 10 ^ (38 + d.fraction.length) := by
      refine h.le.trans (Nat.pow_le_pow_right (by norm_num) ?_)
      rw [List.length_append]
      omega
    exact_mod_cast hle
  have hsign : |(d.sign : ℚ)| = 1 := by
    rw [Decimal.sign]
    cases d.negative with
    | true => rw [if_pos rfl, Int.cast_neg, Int.cast_one, abs_neg, abs_one]
    | false => rw [if_neg Bool.false_ne_true, Int.cast_one, abs_one]
  have hpos : (0 : ℚ) < 10 ^ d.fraction.length := by positivity
  rw [Decimal.value, abs_mul, hsign, one_mul, abs_of_nonneg (by positivity), div_le_iff₀ hpos,
    ← pow_add]
  exact hmagnitude

/-! ## Short numbers -/

theorem landsI128_of_near (hn : |(n : ℚ)| ≤ 2 ^ 51) (hnear : |y - n| ≤ 1 / 4) : LandsI128 y n := by
  obtain ⟨hlow, hhigh⟩ := abs_le.mp hn
  have hlow' : -2 ^ 127 < n := by
    have h : (-2 ^ 127 : ℚ) < n := lt_of_lt_of_le (by norm_num) hlow
    exact_mod_cast h
  have hhigh' : n < 2 ^ 127 - 1 := by
    have h : (n : ℚ) < 2 ^ 127 - 1 := lt_of_le_of_lt hhigh (by norm_num)
    exact_mod_cast h
  rcases le_or_gt 0 y with hy | hy
  · exact Or.inl ⟨hy, Or.inl ⟨hhigh', lands_of_near hhigh hy hnear⟩⟩
  · refine Or.inr ⟨hy, Or.inl ⟨hlow', lands_of_near ?_ (by linarith) ?_⟩⟩
    · push_cast
      linarith
    · push_cast
      rw [← abs_neg]
      convert hnear using 2
      ring

theorem scaled_eq (d : Decimal) {scale : ℕ} (hscale : d.fraction.length ≤ scale) :
    (scaled d scale : ℚ) = d.value * 10 ^ scale := by
  have hpow : (10 : ℚ) ^ scale = 10 ^ (scale - d.fraction.length) * 10 ^ d.fraction.length := by
    rw [← pow_add, Nat.sub_add_cancel hscale]
  have hne : (10 : ℚ) ^ d.fraction.length ≠ 0 := by positivity
  rw [scaled, Decimal.value, hpow]
  push_cast
  field_simp

/-- A `NUMERIC` of at most `2 ^ 51` units, so every one of 15 digits, is decoded exactly. -/
theorem numeric_short (d : Decimal) (hfraction : d.fraction.length ≤ 9)
    (hsmall : |(scaled d 9 : ℚ)| ≤ 2 ^ 51) :
    LandsI128 (nearest d.value * 10 ^ 9) (scaled d 9) := by
  refine landsI128_of_near hsmall ?_
  have hscaled := scaled_eq d hfraction
  have herror : |nearest d.value * 10 ^ 9 - scaled d 9| ≤ spacing d.value / 2 * 10 ^ 9 := by
    rw [hscaled, ← sub_mul, abs_mul, abs_of_pos (by norm_num : (0 : ℚ) < 10 ^ 9), abs_sub_comm]
    exact mul_le_mul_of_nonneg_right (abs_sub_nearest_le _) (by norm_num)
  refine herror.trans ?_
  by_cases hzero : scaled d 9 = 0
  · have hvalue : d.value = 0 := by
      rw [hzero, Int.cast_zero] at hscaled
      exact (mul_eq_zero.mp hscaled.symm).resolve_right (by norm_num)
    have hspacing : spacing d.value = 2 ^ (-52 : ℤ) := by
      rw [hvalue, spacing, lastPlace, abs_zero, Int.log_zero_right]
      norm_num
    rw [hspacing]
    norm_num
  · have hone : (1 : ℚ) ≤ |(scaled d 9 : ℚ)| := by
      have h := Int.one_le_abs hzero
      exact_mod_cast h
    have habs : |(scaled d 9 : ℚ)| = |d.value| * 10 ^ 9 := by
      rw [hscaled, abs_mul, abs_of_pos (by norm_num : (0 : ℚ) < 10 ^ 9)]
    rw [habs] at hone hsmall
    have hnormal : (2 : ℚ) ^ (-1022 : ℤ) ≤ |d.value| := by
      have hpow : (2 : ℚ) ^ (-1022 : ℤ) ≤ 2 ^ (-30 : ℤ) :=
        zpow_le_zpow_right₀ (by norm_num) (by norm_num)
      have h30 : (2 : ℚ) ^ (-30 : ℤ) * 10 ^ 9 ≤ 1 := by norm_num
      nlinarith
    have hspacing := spacing_le_of_normal hnormal
    norm_num at hspacing hsmall ⊢
    linarith

/-- For every number of a `NUMERIC` or a `BIGNUMERIC` column, and whatever powers of ten are
computed: what is appended is the number that is written, in units of the scale, exactly if
the product of the nearest double and the power is rounded to it. -/
theorem decimals_exact_iff {lib : Libraries} (hnumeric : lib.powi 9 = 10 ^ 9)
    (hbignumeric : |lib.powi 38| ≤ 10 ^ 39) :
    (∀ d : Decimal, d.whole.length ≤ 29 → d.fraction.length ≤ 9 →
      (append lib .numeric (.string d.text) = .decimal128 (scaled d 9) ↔
        LandsI128 (nearest d.value * 10 ^ 9) (scaled d 9))) ∧
    ∀ d : Decimal, d.whole.length ≤ 38 → d.fraction.length ≤ 38 →
      (append lib .bignumeric (.string d.text) = .decimal256 (scaled d 38) ↔
        LandsI128 (nearest d.value * lib.powi 38) (scaled d 38)) := by
  constructor
  · intro d hwhole _
    have hpowi : |lib.powi 9| ≤ 10 ^ 39 := by
      rw [hnumeric]
      norm_num
    rw [append, readText, parseDecimal128_text d 9 (abs_value_le d (by omega)) hpowi, hnumeric,
      Option.map_some, Option.getD_some, Cell.decimal128.injEq]
    exact saturate_iff
  · intro d hwhole _
    have hread : parseDecimal256 lib d.text 38 = parseDecimal128 lib d.text 38 := rfl
    rw [append, readText, hread, parseDecimal128_text d 38 (abs_value_le d hwhole) hbignumeric,
      Option.map_some, Option.getD_some, Cell.decimal256.injEq]
    exact saturate_iff

/-- Libraries for decimals. -/
def decimalLibraries : Libraries where
  powi scale := nearest (10 ^ scale)
  parseDate _ _ := none
  parseTime _ _ := none
  decodeBase64 _ := none
  tryNew schema columns := .ok ⟨schema, columns⟩

/-- A cent of an amount is kept. -/
theorem decimals_exact_cent :
    ∃ d : Decimal, d.text = "-12345.01" ∧ scaled d 9 = -12345010000000 ∧
      append decimalLibraries .numeric (.string d.text) = .decimal128 (-12345010000000) ∧
      (append decimalLibraries .numeric (.string d.text) = .decimal128 (scaled d 9) ↔
        LandsI128 (nearest d.value * 10 ^ 9) (scaled d 9)) := by
  have hnumeric : decimalLibraries.powi 9 = 10 ^ 9 := by decide +kernel
  have hbignumeric : |decimalLibraries.powi 38| ≤ 10 ^ 39 := by decide +kernel
  have hexact := (decimals_exact_iff hnumeric hbignumeric).1
    ⟨true, [1, 2, 3, 4, 5], [0, 1], by decide⟩ (by decide) (by decide)
  exact ⟨_, by decide +kernel, by decide +kernel, by decide +kernel, hexact⟩

/-- Two numbers of 16 digits with one value. -/
theorem sixteenth_digit_lost :
    append decimalLibraries .numeric (.string "9007199.254740993") = .decimal128 9007199254740992 ∧
      append decimalLibraries .numeric (.string "9007199.254740992") =
        .decimal128 9007199254740992 := by
  decide +kernel

end Flowgen.Gcp.Columns
