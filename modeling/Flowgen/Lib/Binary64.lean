/-
# `Flowgen.Lib.Binary64` — double-precision numbers as rationals

A finite double is the rational it stands for; there is no negative zero.  A number is
rounded to a multiple of the spacing of its binade, ties to the even multiple.  A text of a
number is read as the double that is nearest to it.

Which numbers reach a given integer by way of a double is `lands_iff`.
-/
import Mathlib

namespace Flowgen.Lib

/-! ## Rounding to integers -/

/-- To the nearest integer, ties to the even one. -/
def roundEven (q : ℚ) : ℤ :=
  if q - ⌊q⌋ < 1 / 2 then ⌊q⌋
  else if 1 / 2 < q - ⌊q⌋ then ⌊q⌋ + 1
  else if Even ⌊q⌋ then ⌊q⌋ else ⌊q⌋ + 1

/-- To the nearest integer, ties away from zero. -/
def roundAway (q : ℚ) : ℤ :=
  if 0 ≤ q then ⌊q + 1 / 2⌋ else -⌊-q + 1 / 2⌋

variable {q y : ℚ} {n k : ℤ}

theorem roundEven_eq_iff :
    roundEven q = k ↔ |q - k| < 1 / 2 ∨ |q - k| = 1 / 2 ∧ Even k := by
  have hle := Int.floor_le q
  have hlt := Int.lt_floor_add_one q
  -- An integer within one of `q` is its floor or the next one.
  have hcases : ∀ j : ℤ, |q - j| ≤ 1 / 2 → j = ⌊q⌋ ∨ j = ⌊q⌋ + 1 := by
    intro j hj
    obtain ⟨hlow, hhigh⟩ := abs_le.mp hj
    have h1 : (⌊q⌋ : ℚ) < j + 1 := by linarith
    have h2 : (j : ℚ) < ⌊q⌋ + 2 := by linarith
    norm_cast at h1 h2
    omega
  have hparity : Even (⌊q⌋ + 1) ↔ ¬ Even ⌊q⌋ := Int.even_add_one
  have hself : |q - ⌊q⌋| = q - ⌊q⌋ := abs_of_nonneg (by linarith)
  have hnext : |q - ((⌊q⌋ + 1 : ℤ) : ℚ)| = 1 - (q - ⌊q⌋) := by
    push_cast
    rw [abs_of_nonpos (by linarith)]
    ring
  unfold roundEven
  constructor
  · intro h
    split at h
    · rename_i hsmall
      subst h
      exact Or.inl (hself.trans_lt hsmall)
    · split at h
      · rename_i hlarge
        subst h
        refine Or.inl ?_
        rw [hnext]
        linarith
      · have htie : q - ⌊q⌋ = 1 / 2 := by linarith
        split at h
        · rename_i heven
          subst h
          exact Or.inr ⟨hself.trans htie, heven⟩
        · rename_i hodd
          subst h
          refine Or.inr ⟨?_, hparity.mpr hodd⟩
          rw [hnext, htie]
          norm_num
  · intro h
    have hk : |q - k| ≤ 1 / 2 := h.elim le_of_lt fun h => h.1.le
    rcases hcases k hk with rfl | rfl
    · rw [hself] at h
      rcases h with h | ⟨h, heven⟩
      · rw [if_pos h]
      · rw [if_neg (by linarith), if_neg (by linarith), if_pos heven]
    · rw [hnext] at h
      rcases h with h | ⟨h, heven⟩
      · rw [if_neg (by linarith), if_pos (by linarith)]
      · rw [if_neg (by linarith), if_neg (by linarith), if_neg (hparity.mp heven)]

theorem abs_sub_roundEven_le (q : ℚ) : |q - roundEven q| ≤ 1 / 2 :=
  (roundEven_eq_iff.mp (Eq.refl (roundEven q))).elim le_of_lt fun h => h.1.le

theorem roundEven_neg (q : ℚ) : roundEven (-q) = -roundEven q := by
  rw [roundEven_eq_iff]
  have habs : |-q - ((-roundEven q : ℤ) : ℚ)| = |q - roundEven q| := by
    push_cast
    rw [← abs_neg]
    congr 1
    ring
  rw [habs, even_neg]
  exact roundEven_eq_iff.mp rfl

/-- An even integer is not exceeded exactly up to half a unit above it. -/
theorem le_roundEven_iff (hk : Even k) : k ≤ roundEven q ↔ (k : ℚ) - 1 / 2 ≤ q := by
  have hround := abs_le.mp (abs_sub_roundEven_le q)
  constructor
  · intro h
    have h : (k : ℚ) ≤ roundEven q := by exact_mod_cast h
    linarith [hround.1]
  · intro h
    by_contra hlt
    have hlt : roundEven q + 1 ≤ k := by omega
    have hlt' : (roundEven q : ℚ) + 1 ≤ k := by exact_mod_cast hlt
    -- Then `q` is half a unit below `k`, and the tie goes to `k`.
    have hq : q = k - 1 / 2 := by linarith [hround.2]
    have hk' : roundEven q = k := by
      rw [roundEven_eq_iff]
      refine Or.inr ⟨?_, hk⟩
      rw [hq, abs_of_nonpos (by linarith)]
      ring
    omega

theorem roundAway_neg (q : ℚ) : roundAway (-q) = -roundAway q := by
  unfold roundAway
  rcases lt_trichotomy q 0 with h | rfl | h
  · rw [if_pos (by linarith), if_neg (by linarith), neg_neg]
  · rw [neg_zero, if_pos le_rfl]
    norm_num
  · rw [if_neg (by linarith), if_pos h.le, neg_neg]

theorem roundAway_eq_iff (hq : 0 ≤ q) :
    roundAway q = n ↔ (n : ℚ) - 1 / 2 ≤ q ∧ q < n + 1 / 2 := by
  rw [roundAway, if_pos hq, Int.floor_eq_iff]
  constructor
  · rintro ⟨h1, h2⟩
    constructor <;> linarith
  · rintro ⟨h1, h2⟩
    constructor <;> linarith

/-! ## Rounding to doubles -/

/-- The exponent of the last place of a double of this magnitude. -/
def lastPlace (q : ℚ) : ℤ := max (Int.log 2 |q| - 52) (-1074)

/-- The distance of the doubles of this magnitude. -/
def spacing (q : ℚ) : ℚ := 2 ^ lastPlace q

def nearest (q : ℚ) : ℚ := roundEven (q / spacing q) * spacing q

theorem spacing_pos (q : ℚ) : 0 < spacing q := zpow_pos (by norm_num) _

theorem spacing_neg (q : ℚ) : spacing (-q) = spacing q := by
  rw [spacing, spacing, lastPlace, lastPlace, abs_neg]

theorem nearest_neg (q : ℚ) : nearest (-q) = -nearest q := by
  rw [nearest, nearest, spacing_neg, neg_div, roundEven_neg]
  push_cast
  ring

theorem nearest_nonneg (hq : 0 ≤ q) : 0 ≤ nearest q := by
  have h : 0 ≤ roundEven (q / spacing q) := by
    rw [le_roundEven_iff (Int.even_iff.mpr rfl)]
    have := div_nonneg hq (spacing_pos q).le
    push_cast
    linarith
  exact mul_nonneg (by exact_mod_cast h) (spacing_pos q).le

/-- A rational lies in its binade. -/
theorem lt_spacing (hq : 0 ≤ q) : q < 2 ^ 53 * spacing q := by
  have hlog : |q| < 2 ^ (Int.log 2 |q| + 1) := by
    exact_mod_cast Int.lt_zpow_succ_log_self (R := ℚ) (b := 2) (by norm_num) |q|
  rw [abs_of_nonneg hq] at hlog
  refine hlog.trans_le ?_
  rw [spacing, ← zpow_natCast, ← zpow_add₀ (by norm_num : (2 : ℚ) ≠ 0)]
  refine zpow_le_zpow_right₀ (by norm_num) ?_
  have hmax : Int.log 2 |q| - 52 ≤ lastPlace q := le_max_left _ _
  rw [abs_of_nonneg hq] at hmax
  push_cast
  omega

theorem abs_sub_nearest_le (q : ℚ) : |q - nearest q| ≤ spacing q / 2 := by
  have hg := spacing_pos q
  have h := abs_sub_roundEven_le (q / spacing q)
  have heq : q - nearest q = (q / spacing q - roundEven (q / spacing q)) * spacing q := by
    rw [sub_mul, div_mul_cancel₀ _ hg.ne', nearest]
  rw [heq, abs_mul, abs_of_pos hg]
  calc |q / spacing q - roundEven (q / spacing q)| * spacing q
      ≤ 1 / 2 * spacing q := mul_le_mul_of_nonneg_right h hg.le
    _ = spacing q / 2 := by ring

theorem roundAway_nonneg (hy : 0 ≤ y) : 0 ≤ roundAway (nearest y) := by
  have h := (roundAway_eq_iff (nearest_nonneg hy)).mp (Eq.refl (roundAway (nearest y)))
  have hpos : (-1 : ℚ) < roundAway (nearest y) := by
    linarith [nearest_nonneg hy, h.2]
  have hpos : -1 < roundAway (nearest y) := by exact_mod_cast hpos
  omega

theorem spacing_le (q : ℚ) : spacing q ≤ |q| + 1 := by
  have hq := abs_nonneg q
  rw [spacing, lastPlace]
  rcases le_total (Int.log 2 |q| - 52) (-1074) with h | h
  · rw [max_eq_right h]
    have hone : (2 : ℚ) ^ (-1074 : ℤ) ≤ 1 := zpow_le_one_of_nonpos₀ (by norm_num) (by norm_num)
    linarith
  · rw [max_eq_left h]
    rcases hq.eq_or_lt with hzero | hpos
    · rw [← hzero, Int.log_zero_right]
      norm_num
    · have hlog : (2 : ℚ) ^ Int.log 2 |q| ≤ |q| := by
        exact_mod_cast Int.zpow_log_le_self (R := ℚ) (b := 2) (by norm_num) hpos
      have hle : (2 : ℚ) ^ (Int.log 2 |q| - 52) ≤ 2 ^ Int.log 2 |q| :=
        zpow_le_zpow_right₀ (by norm_num) (by omega)
      linarith

theorem abs_nearest_le (q : ℚ) : |nearest q| ≤ 2 * |q| + 1 := by
  have h1 := abs_sub_nearest_le q
  have h2 := spacing_le q
  have h3 : |nearest q| ≤ |q| + |q - nearest q| := by
    have h := abs_sub_abs_le_abs_sub (nearest q) q
    rw [abs_sub_comm] at h
    linarith
  have hq := abs_nonneg q
  linarith

theorem spacing_le_of_normal (h : (2 : ℚ) ^ (-1022 : ℤ) ≤ |y|) : spacing y ≤ |y| / 2 ^ 52 := by
  have hpos : 0 < |y| := lt_of_lt_of_le (zpow_pos (by norm_num) _) h
  have hlog : -1022 ≤ Int.log 2 |y| := by
    rw [← Int.zpow_le_iff_le_log (by norm_num) hpos]
    exact_mod_cast h
  have hself : (2 : ℚ) ^ Int.log 2 |y| ≤ |y| := by
    exact_mod_cast Int.zpow_log_le_self (R := ℚ) (b := 2) (by norm_num) hpos
  rw [spacing, lastPlace, max_eq_left (by omega), zpow_sub₀ (by norm_num)]
  exact div_le_div_of_nonneg_right hself (by norm_num)

/-- A number between two powers of two has the spacing of the lower one. -/
theorem spacing_eq {e : ℤ} (he : -1022 ≤ e) (hle : 2 ^ e ≤ y) (hlt : y < 2 ^ (e + 1)) :
    spacing y = 2 ^ (e - 52) := by
  have hy : 0 < y := lt_of_lt_of_le (zpow_pos (by norm_num) _) hle
  have hlog : Int.log 2 |y| = e := by
    rw [abs_of_pos hy]
    have h1 : e ≤ Int.log 2 y := by
      rw [← Int.zpow_le_iff_le_log (by norm_num) hy]
      exact_mod_cast hle
    have h2 : Int.log 2 y < e + 1 := by
      rw [← Int.lt_zpow_iff_log_lt (by norm_num) hy]
      exact_mod_cast hlt
    omega
  rw [spacing, lastPlace, hlog, max_eq_left (by omega)]

theorem exists_binade (hy : 0 < y) : ∃ e : ℤ, 2 ^ e ≤ y ∧ y < 2 ^ (e + 1) := by
  refine ⟨Int.log 2 y, ?_, ?_⟩
  · exact_mod_cast Int.zpow_log_le_self (R := ℚ) (b := 2) (by norm_num) hy
  · exact_mod_cast Int.lt_zpow_succ_log_self (R := ℚ) (b := 2) (by norm_num) y

/-! ## Rounding to doubles and then to integers -/

/-- A number that is rounded to this integer by way of a double.  Where the doubles are whole,
the integer is the nearest of them, or the even one of two.  Where they are finer, the number
is not so near to the halves about the integer that it is rounded to the wrong one of them. -/
def Lands (y : ℚ) (n : ℤ) : Prop :=
  if 1 ≤ spacing y then
    ∃ k : ℤ, (n : ℚ) = k * spacing y ∧
      (|y - n| < spacing y / 2 ∨ |y - n| = spacing y / 2 ∧ Even k)
  else if spacing y = 1 / 2 then (n : ℚ) - 3 / 4 < y ∧ y ≤ n + 1 / 4
  else n - (1 + spacing y) / 2 ≤ y ∧ y < n + (1 - spacing y) / 2

/-- The doubles are whole. -/
theorem lands_whole (hy : 0 ≤ y) {e : ℕ} (he : spacing y = 2 ^ e) :
    roundAway (nearest y) = n ↔ ∃ k : ℤ, (n : ℚ) = k * spacing y ∧
      (|y - n| < spacing y / 2 ∨ |y - n| = spacing y / 2 ∧ Even k) := by
  have hg := spacing_pos y
  have hcast : nearest y = ((roundEven (y / spacing y) * 2 ^ e : ℤ) : ℚ) := by
    rw [nearest, he]
    push_cast
    rfl
  have hround : roundAway (nearest y) = roundEven (y / spacing y) * 2 ^ e := by
    rw [roundAway_eq_iff (nearest_nonneg hy), hcast]
    constructor <;> linarith
  have hk : ∀ k : ℤ, (n : ℚ) = k * spacing y →
      (roundEven (y / spacing y) = k ↔
        |y - n| < spacing y / 2 ∨ |y - n| = spacing y / 2 ∧ Even k) := by
    intro k hn
    have hscale : |y / spacing y - k| = |y - n| / spacing y := by
      rw [hn, ← abs_of_pos hg, ← abs_div, abs_of_pos hg, sub_div, mul_div_cancel_right₀ _ hg.ne']
    rw [roundEven_eq_iff, hscale, div_lt_iff₀ hg, div_eq_iff hg.ne', one_div_mul_eq_div]
  rw [hround]
  constructor
  · intro h
    have hn : (n : ℚ) = roundEven (y / spacing y) * spacing y := by
      rw [← h, he]
      push_cast
      rfl
    exact ⟨_, hn, (hk _ hn).mp rfl⟩
  · rintro ⟨k, hn, h⟩
    rw [(hk k hn).mpr h]
    have hn' : (n : ℚ) = ((k * 2 ^ e : ℤ) : ℚ) := by
      rw [hn, he]
      push_cast
      rfl
    exact_mod_cast hn'.symm

/-- The doubles are halves. -/
theorem lands_half (hy : 0 ≤ y) (hg : spacing y = 1 / 2) :
    roundAway (nearest y) = n ↔ (n : ℚ) - 3 / 4 < y ∧ y ≤ n + 1 / 4 := by
  have hnearest : nearest y = roundEven (2 * y) / 2 := by
    rw [nearest, hg, div_div_eq_mul_div, div_one, mul_comm y]
    ring
  rw [roundAway_eq_iff (nearest_nonneg hy), hnearest]
  have hodd : ¬ Even (2 * n - 1) := by
    rw [Int.not_even_iff_odd]
    exact ⟨n - 1, by ring⟩
  -- Half of the integer is `n`, or `n - 1 / 2`, which is rounded away from zero.
  have hcases : ((n : ℚ) - 1 / 2 ≤ roundEven (2 * y) / 2 ∧
      (roundEven (2 * y) : ℚ) / 2 < n + 1 / 2) ↔
      roundEven (2 * y) = 2 * n - 1 ∨ roundEven (2 * y) = 2 * n := by
    constructor
    · rintro ⟨h1, h2⟩
      have h1 : 2 * n - 1 ≤ roundEven (2 * y) := by
        have : ((2 * n - 1 : ℤ) : ℚ) ≤ roundEven (2 * y) := by
          push_cast
          linarith
        exact_mod_cast this
      have h2 : roundEven (2 * y) < 2 * n + 1 := by
        have : (roundEven (2 * y) : ℚ) < ((2 * n + 1 : ℤ) : ℚ) := by
          push_cast
          linarith
        exact_mod_cast this
      omega
    · rintro (h | h)
      · rw [h]
        push_cast
        constructor <;> linarith
      · rw [h]
        push_cast
        constructor <;> linarith
  rw [hcases, roundEven_eq_iff, roundEven_eq_iff]
  push_cast
  constructor
  · rintro ((h | ⟨-, h⟩) | (h | ⟨h, -⟩))
    · obtain ⟨h1, h2⟩ := abs_lt.mp h
      constructor <;> linarith
    · exact absurd h hodd
    · obtain ⟨h1, h2⟩ := abs_lt.mp h
      constructor <;> linarith
    · obtain ⟨h1, h2⟩ := abs_le.mp h.le
      constructor <;> linarith
  · rintro ⟨h1, h2⟩
    rcases lt_or_ge (2 * y) (2 * n - 1 / 2) with h | h
    · refine Or.inl (Or.inl (abs_lt.mpr ⟨?_, ?_⟩)) <;> linarith
    · have habs : |2 * y - 2 * (n : ℚ)| ≤ 1 / 2 := abs_le.mpr ⟨by linarith, by linarith⟩
      rcases habs.lt_or_eq with h | h
      · exact Or.inr (Or.inl h)
      · exact Or.inr (Or.inr ⟨h, even_two_mul n⟩)

/-- The doubles are finer than halves. -/
theorem lands_fine (hy : 0 ≤ y) {e : ℕ} (he : spacing y * 2 ^ (e + 2) = 1) :
    roundAway (nearest y) = n ↔
      n - (1 + spacing y) / 2 ≤ y ∧ y < n + (1 - spacing y) / 2 := by
  have hg := spacing_pos y
  -- The halves about the integer are even multiples of the spacing.
  have hhalf : ∀ m : ℤ, Even (m * 2 ^ (e + 1)) := fun m =>
    (Int.even_pow.mpr ⟨even_two, by omega⟩).mul_left m
  have hscale : ∀ m : ℤ, ((m * 2 ^ (e + 1) : ℤ) : ℚ) * spacing y = m / 2 := by
    intro m
    push_cast
    have he' : spacing y * 2 ^ (e + 1) = 1 / 2 := by
      rw [pow_succ] at he
      linarith
    linear_combination (m : ℚ) * he'
  have hmultiple : ∀ m : ℤ, (m : ℚ) / 2 ≤ nearest y ↔ m / 2 - spacing y / 2 ≤ y := by
    intro m
    rw [nearest, ← hscale m, mul_le_mul_iff_left₀ hg, Int.cast_le, le_roundEven_iff (hhalf m),
      le_div_iff₀ hg, sub_mul, hscale m]
    constructor
    · intro h
      linarith
    · intro h
      linarith
  have hlow := hmultiple (2 * n - 1)
  have hhigh := not_congr (hmultiple (2 * n + 1))
  push_cast at hlow hhigh
  rw [roundAway_eq_iff (nearest_nonneg hy)]
  have h1 : (n : ℚ) - 1 / 2 = (2 * n - 1) / 2 := by ring
  have h2 : (n : ℚ) + 1 / 2 = (2 * n + 1) / 2 := by ring
  rw [h1, h2, hlow, ← not_le, hhigh, not_le]
  constructor
  · rintro ⟨h3, h4⟩
    constructor <;> linarith
  · rintro ⟨h3, h4⟩
    constructor <;> linarith

theorem lands_iff (hy : 0 ≤ y) : roundAway (nearest y) = n ↔ Lands y n := by
  unfold Lands
  rcases lt_trichotomy (lastPlace y) (-1) with h | h | h
  · obtain ⟨e, he⟩ : ∃ e : ℕ, lastPlace y = -(e + 2 : ℕ) := ⟨(-lastPlace y - 2).toNat, by omega⟩
    have hspacing : spacing y * 2 ^ (e + 2) = 1 := by
      rw [spacing, he, zpow_neg, zpow_natCast]
      exact inv_mul_cancel₀ (by positivity)
    have hlt : spacing y < 1 / 2 := by
      have hpow : (4 : ℚ) ≤ 2 ^ (e + 2) := by
        have : (1 : ℚ) ≤ 2 ^ e := one_le_pow₀ (by norm_num)
        rw [pow_add]
        linarith
      have hg := spacing_pos y
      nlinarith
    rw [if_neg (by linarith), if_neg hlt.ne]
    exact lands_fine hy hspacing
  · have hspacing : spacing y = 1 / 2 := by
      rw [spacing, h]
      norm_num
    rw [if_neg (by rw [hspacing]; norm_num), if_pos hspacing]
    exact lands_half hy hspacing
  · obtain ⟨e, he⟩ : ∃ e : ℕ, lastPlace y = e := ⟨(lastPlace y).toNat, by omega⟩
    have hspacing : spacing y = 2 ^ e := by
      rw [spacing, he, zpow_natCast]
    rw [if_pos (by rw [hspacing]; exact one_le_pow₀ (by norm_num))]
    exact lands_whole hy hspacing

theorem spacing_lt_one (hy : |y| < 2 ^ 52) : spacing y = 1 / 2 ∨ spacing y ≤ 1 / 4 := by
  have hlog : Int.log 2 |y| < 52 := by
    rcases (abs_nonneg y).eq_or_lt with hzero | hpos
    · rw [← hzero, Int.log_zero_right]
      norm_num
    · rw [← Int.lt_zpow_iff_log_lt (by norm_num) hpos]
      exact_mod_cast hy
  have hlast : lastPlace y ≤ -1 := max_le (by omega) (by norm_num)
  rcases hlast.eq_or_lt with h | h
  · left
    rw [spacing, h]
    norm_num
  · right
    calc spacing y ≤ 2 ^ (-2 : ℤ) := zpow_le_zpow_right₀ (by norm_num) (by omega)
      _ = 1 / 4 := by norm_num

/-- A number within a quarter of an integer below `2 ^ 51` reaches it. -/
theorem lands_of_near (hn : (n : ℚ) ≤ 2 ^ 51) (hy : 0 ≤ y) (hnear : |y - n| ≤ 1 / 4) :
    Lands y n := by
  obtain ⟨hlow, hhigh⟩ := abs_le.mp hnear
  have hlt : |y| < 2 ^ 52 := by
    rw [abs_of_nonneg hy]
    norm_num at hn ⊢
    linarith
  have hg := spacing_pos y
  rcases spacing_lt_one hlt with h | h
  · rw [Lands, if_neg (by linarith), if_pos h]
    constructor <;> linarith
  · rw [Lands, if_neg (by linarith), if_neg (by linarith)]
    constructor <;> linarith

/-- What a 128-bit integer is too small for. -/
theorem saturates_of_le (hy : (2 : ℚ) ^ 127 - 2 ^ 73 ≤ y) : 2 ^ 127 ≤ roundAway (nearest y) := by
  have hpos : 0 < y := lt_of_lt_of_le (by norm_num) hy
  have hnearest : (2 : ℚ) ^ 127 ≤ nearest y := by
    obtain ⟨e, hle, hlt⟩ := exists_binade hpos
    have he : 126 ≤ e := by
      by_contra he
      have hpow : (2 : ℚ) ^ (e + 1) ≤ 2 ^ (126 : ℤ) := zpow_le_zpow_right₀ (by norm_num) (by omega)
      have h126 : (2 : ℚ) ^ (126 : ℤ) < 2 ^ 127 - 2 ^ 73 := by norm_num
      linarith
    have hspacing := spacing_eq (by omega) hle hlt
    have hg := spacing_pos y
    rcases he.eq_or_lt with rfl | he
    · have hround : (2 ^ 53 : ℤ) ≤ roundEven (y / spacing y) := by
        rw [le_roundEven_iff (by decide), le_div_iff₀ hg, hspacing]
        norm_num at hy ⊢
        linarith
      have hround : ((2 : ℚ) ^ 53) ≤ roundEven (y / spacing y) := by exact_mod_cast hround
      rw [nearest, hspacing] at *
      norm_num at hround ⊢
      linarith
    · have hround : (2 ^ 52 : ℤ) ≤ roundEven (y / spacing y) := by
        rw [le_roundEven_iff (by decide), le_div_iff₀ hg]
        have hlast : (2 : ℚ) ^ 52 * spacing y = 2 ^ e := by
          rw [hspacing, ← zpow_natCast, ← zpow_add₀ (by norm_num)]
          congr 1
          push_cast
          ring
        push_cast
        linarith
      have hround : ((2 : ℚ) ^ 52) ≤ roundEven (y / spacing y) := by exact_mod_cast hround
      have hpow : (2 : ℚ) ^ 127 ≤ 2 ^ e := by
        rw [← zpow_natCast]
        exact zpow_le_zpow_right₀ (by norm_num) (by push_cast; omega)
      have hlast : (2 : ℚ) ^ 52 * spacing y = 2 ^ e := by
        rw [hspacing, ← zpow_natCast, ← zpow_add₀ (by norm_num)]
        congr 1
        push_cast
        ring
      calc (2 : ℚ) ^ 127 ≤ 2 ^ e := hpow
        _ = 2 ^ 52 * spacing y := hlast.symm
        _ ≤ nearest y := mul_le_mul_of_nonneg_right hround hg.le
  have hround := (roundAway_eq_iff (nearest_nonneg hpos.le)).mp (Eq.refl (roundAway (nearest y)))
  by_contra hlt
  have hlt : roundAway (nearest y) ≤ 2 ^ 127 - 1 := by omega
  have hlt : (roundAway (nearest y) : ℚ) ≤ 2 ^ 127 - 1 := by exact_mod_cast hlt
  linarith [hround.2]

theorem lt_of_not_saturates (hy : 0 ≤ y) (hlt : y < (2 : ℚ) ^ 127 - 2 ^ 73) :
    roundAway (nearest y) < 2 ^ 127 - 1 := by
  have hg := spacing_pos y
  have hnearest : nearest y ≤ 2 ^ 127 - 2 ^ 74 := by
    rcases lt_or_ge y (2 ^ 126) with hsmall | hlarge
    · have hround : roundEven (y / spacing y) ≤ 2 ^ 53 := by
        have h := (abs_le.mp (abs_sub_roundEven_le (y / spacing y))).1
        have hq : y / spacing y < 2 ^ 53 := (div_lt_iff₀ hg).mpr (lt_spacing hy)
        have h : (roundEven (y / spacing y) : ℚ) < 2 ^ 53 + 1 := by linarith
        have h : roundEven (y / spacing y) < 2 ^ 53 + 1 := by exact_mod_cast h
        omega
      have hround : (roundEven (y / spacing y) : ℚ) ≤ 2 ^ 53 := by exact_mod_cast hround
      have hspacing : spacing y ≤ 2 ^ (73 : ℤ) := by
        refine zpow_le_zpow_right₀ (by norm_num) (max_le ?_ (by norm_num))
        rcases hy.eq_or_lt with rfl | hpos
        · rw [abs_zero, Int.log_zero_right]
          norm_num
        · have hlog : Int.log 2 |y| < 126 := by
            rw [abs_of_pos hpos, ← Int.lt_zpow_iff_log_lt (by norm_num) hpos]
            exact_mod_cast hsmall
          omega
      calc nearest y ≤ 2 ^ 53 * spacing y := mul_le_mul_of_nonneg_right hround hg.le
        _ ≤ 2 ^ 53 * 2 ^ (73 : ℤ) := mul_le_mul_of_nonneg_left hspacing (by norm_num)
        _ ≤ 2 ^ 127 - 2 ^ 74 := by norm_num
    · have hspacing : spacing y = 2 ^ ((126 : ℤ) - 52) :=
        spacing_eq (by norm_num) (by exact_mod_cast hlarge) (by norm_num at hlt ⊢; linarith)
      have hround : ¬ (2 ^ 53 : ℤ) ≤ roundEven (y / spacing y) := by
        rw [le_roundEven_iff (by decide), le_div_iff₀ hg, hspacing]
        norm_num at hlt ⊢
        linarith
      have hround : roundEven (y / spacing y) ≤ 2 ^ 53 - 1 := by omega
      have hround : (roundEven (y / spacing y) : ℚ) ≤ 2 ^ 53 - 1 := by exact_mod_cast hround
      calc nearest y ≤ (2 ^ 53 - 1) * spacing y := mul_le_mul_of_nonneg_right hround hg.le
        _ ≤ 2 ^ 127 - 2 ^ 74 := by
          rw [hspacing]
          norm_num
  have hround := (roundAway_eq_iff (nearest_nonneg hy)).mp (Eq.refl (roundAway (nearest y)))
  have h : (roundAway (nearest y) : ℚ) < ((2 ^ 127 - 1 : ℤ) : ℚ) := by
    push_cast
    norm_num at hnearest ⊢
    linarith [hround.1]
  exact_mod_cast h

/-! ## Doubles -/

inductive F64
  | nan
  | infinite (negative : Bool)
  | finite (value : ℚ)
deriving DecidableEq

namespace F64

def ofRat (q : ℚ) : F64 :=
  if 2 ^ 1024 ≤ |nearest q| then .infinite (q < 0) else .finite (nearest q)

def mul : F64 → F64 → F64
  | .finite p, .finite q => ofRat (p * q)
  | .infinite s, .infinite t => .infinite (s != t)
  | .infinite s, .finite q => if q = 0 then .nan else .infinite (s != decide (q < 0))
  | .finite q, .infinite s => if q = 0 then .nan else .infinite (s != decide (q < 0))
  | _, _ => .nan

def round : F64 → F64
  | .finite q => .finite (roundAway q)
  | x => x

def truncate (q : ℚ) : ℤ := if 0 ≤ q then ⌊q⌋ else ⌈q⌉

/-- A cast to an integer of this width and a sign. -/
def saturate (width : ℕ) (n : ℤ) : ℤ := max (-2 ^ width) (min (2 ^ width - 1) n)

/-- `as` to a signed integer of a sign and this many bits. -/
def toInt (width : ℕ) : F64 → ℤ
  | .nan => 0
  | .infinite negative => if negative then -2 ^ width else 2 ^ width - 1
  | .finite q => saturate width (truncate q)

theorem truncate_intCast (n : ℤ) : truncate n = n := by
  unfold truncate
  split
  · exact Int.floor_intCast n
  · exact Int.ceil_intCast n

theorem ofRat_of_le (h : |y| ≤ 10 ^ 80) : ofRat y = .finite (nearest y) := by
  rw [ofRat, if_neg]
  have hnearest : |nearest y| ≤ (2 ^ 256) ^ 2 := by
    have h' := abs_nearest_le y
    have hbound : 2 * (10 : ℚ) ^ 80 + 1 < (2 ^ 256) ^ 2 := by norm_num
    linarith
  have hpow : ((2 : ℚ) ^ 256) ^ 2 < 2 ^ 1024 := by
    rw [← pow_mul]
    exact pow_lt_pow_right₀ (by norm_num) (by norm_num)
  exact not_le.mpr (hnearest.trans_lt hpow)

/-! ### Reading -/

def natOf (digits : List Char) : ℕ :=
  digits.foldl (fun n c => 10 * n + (c.toNat - '0'.toNat)) 0

def signed : List Char → Bool × List Char
  | '-' :: rest => (true, rest)
  | '+' :: rest => (false, rest)
  | rest => (false, rest)

/-- An exponent, or nothing. -/
def readExponent : List Char → Option ℤ
  | [] => some 0
  | e :: rest =>
      let (negative, digits) := signed rest
      if (e = 'e' ∨ e = 'E') ∧ digits ≠ [] ∧ digits.all Char.isDigit then
        some (if negative then -(natOf digits : ℤ) else natOf digits)
      else none

def readFraction : List Char → List Char × List Char
  | '.' :: rest => (rest.takeWhile Char.isDigit, rest.dropWhile Char.isDigit)
  | rest => ([], rest)

def readNumber (text : List Char) : Option ℚ :=
  let whole := text.takeWhile Char.isDigit
  let (fraction, rest) := readFraction (text.dropWhile Char.isDigit)
  if whole ++ fraction = [] then none
  else (readExponent rest).map fun exponent : ℤ =>
    natOf (whole ++ fraction) * 10 ^ (exponent - fraction.length)

/-- `str::parse::<f64>`. -/
def parse (text : String) : Option F64 :=
  let (negative, rest) := signed text.toList
  match readNumber rest with
  | some q => some (ofRat (if negative then -q else q))
  | none =>
      let word := String.ofList (rest.map Char.toLower)
      if word = "inf" ∨ word = "infinity" then some (.infinite negative)
      else if word = "nan" then some .nan
      else none

end F64

/-- The digits of a number, before and after its point. -/
structure Decimal where
  negative : Bool
  whole : List (Fin 10)
  fraction : List (Fin 10)
  digits : whole ++ fraction ≠ []

namespace Decimal

def digit (d : Fin 10) : Char := Nat.digitChar d

def pointed : List (Fin 10) → List Char
  | [] => []
  | fraction => '.' :: fraction.map digit

def text (d : Decimal) : String :=
  String.ofList ((if d.negative then ['-'] else []) ++ (d.whole.map digit ++ pointed d.fraction))

/-- The digits as one number. -/
def magnitude (d : Decimal) : ℕ := (d.whole ++ d.fraction).foldl (fun n d => 10 * n + d.val) 0

def sign (d : Decimal) : ℤ := if d.negative then -1 else 1

def value (d : Decimal) : ℚ := d.sign * (d.magnitude / 10 ^ d.fraction.length)

theorem isDigit_digit (d : Fin 10) : (digit d).isDigit = true := by
  revert d
  decide

theorem digit_ne (d : Fin 10) : digit d ≠ '-' ∧ digit d ≠ '+' ∧ digit d ≠ '.' := by
  revert d
  decide

theorem natOf_digits (digits : List (Fin 10)) :
    F64.natOf (digits.map digit) = digits.foldl (fun n d => 10 * n + d.val) 0 := by
  have hdigit : ∀ d : Fin 10, (digit d).toNat - '0'.toNat = d.val := by decide
  have hfold : ∀ n, (digits.map digit).foldl (fun n c => 10 * n + (c.toNat - '0'.toNat)) n =
      digits.foldl (fun n d => 10 * n + d.val) n := by
    induction digits with
    | nil => exact fun _ => rfl
    | cons d digits ih =>
        intro n
        rw [List.map_cons, List.foldl_cons, List.foldl_cons, hdigit, ih]
  exact hfold 0

theorem foldl_lt (digits : List (Fin 10)) :
    digits.foldl (fun n d => 10 * n + d.val) 0 < 10 ^ digits.length := by
  have h : ∀ n, digits.foldl (fun n d => 10 * n + d.val) n < (n + 1) * 10 ^ digits.length := by
    induction digits with
    | nil =>
        intro n
        rw [List.foldl_nil, List.length_nil, pow_zero, mul_one]
        exact Nat.lt_succ_self n
    | cons d digits ih =>
        intro n
        rw [List.foldl_cons, List.length_cons, pow_succ']
        have hd := d.isLt
        refine (ih _).trans_le ?_
        rw [← mul_assoc]
        exact Nat.mul_le_mul_right _ (by omega)
  have h0 := h 0
  rwa [zero_add, one_mul] at h0

theorem takeWhile_digits (digits : List (Fin 10)) {rest : List Char}
    (hrest : ∀ c ∈ rest.head?, c.isDigit = false) :
    (digits.map digit ++ rest).takeWhile Char.isDigit = digits.map digit ∧
      (digits.map digit ++ rest).dropWhile Char.isDigit = rest := by
  induction digits with
  | nil =>
      cases rest with
      | nil => exact ⟨rfl, rfl⟩
      | cons c rest =>
          have hc := hrest c rfl
          exact ⟨List.takeWhile_cons_of_neg (by simp [hc]),
            List.dropWhile_cons_of_neg (by simp [hc])⟩
  | cons d digits ih =>
      rw [List.map_cons, List.cons_append, List.takeWhile_cons_of_pos (isDigit_digit d),
        List.dropWhile_cons_of_pos (isDigit_digit d), ih.1]
      exact ⟨rfl, ih.2⟩

theorem readFraction_pointed (fraction : List (Fin 10)) :
    F64.readFraction (pointed fraction) = (fraction.map digit, []) := by
  cases fraction with
  | nil => rfl
  | cons d fraction =>
      have hnil : ∀ c ∈ ([] : List Char).head?, c.isDigit = false := by
        intro c hc
        cases hc
      have h := takeWhile_digits (d :: fraction) hnil
      rw [List.append_nil] at h
      rw [pointed, F64.readFraction, h.1, h.2]
      nofun

theorem readNumber_digits (d : Decimal) :
    F64.readNumber (d.whole.map digit ++ pointed d.fraction) =
      some ((d.magnitude : ℚ) / 10 ^ d.fraction.length) := by
  have hpoint : ∀ c ∈ (pointed d.fraction).head?, c.isDigit = false := by
    intro c hc
    cases hfraction : d.fraction with
    | nil =>
        rw [hfraction] at hc
        cases hc
    | cons _ _ =>
        rw [hfraction] at hc
        cases hc
        rfl
  obtain ⟨htake, hdrop⟩ := takeWhile_digits d.whole hpoint
  have hnil : ¬ d.whole.map digit ++ d.fraction.map digit = [] := by
    rw [← List.map_append, List.map_eq_nil_iff]
    exact d.digits
  rw [F64.readNumber]
  dsimp only
  rw [htake, hdrop, readFraction_pointed]
  dsimp only
  rw [if_neg hnil, F64.readExponent, Option.map_some, ← List.map_append, natOf_digits,
    List.length_map, zero_sub, zpow_neg, zpow_natCast, ← div_eq_mul_inv]
  rfl

/-- The text of a number is read as the nearest double. -/
theorem parse_text (d : Decimal) : F64.parse d.text = some (F64.ofRat d.value) := by
  have hsigned : F64.signed d.text.toList =
      (d.negative, d.whole.map digit ++ pointed d.fraction) := by
    rw [text, String.toList_ofList]
    cases d.negative with
    | true => rfl
    | false =>
        rw [if_neg Bool.false_ne_true, List.nil_append]
        cases hwhole : d.whole with
        | nil =>
            cases hfraction : d.fraction with
            | nil =>
                refine absurd ?_ d.digits
                rw [hwhole, hfraction]
                rfl
            | cons f fraction => rfl
        | cons w whole =>
            obtain ⟨hminus, hplus, -⟩ := digit_ne w
            rw [List.map_cons, List.cons_append, F64.signed]
            · exact fun _ h => hminus (List.cons.inj h).1
            · exact fun _ h => hplus (List.cons.inj h).1
  rw [F64.parse, hsigned]
  dsimp only
  rw [readNumber_digits]
  rw [value, sign]
  cases d.negative with
  | true =>
      dsimp only
      rw [if_pos rfl, if_pos rfl, Int.cast_neg, Int.cast_one, neg_one_mul]
  | false =>
      dsimp only
      rw [if_neg Bool.false_ne_true, if_neg Bool.false_ne_true, Int.cast_one, one_mul]

end Decimal

end Flowgen.Lib
