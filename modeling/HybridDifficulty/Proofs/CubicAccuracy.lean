import HybridDifficulty.Proofs.ScaleOrder
import Mathlib.Analysis.Complex.ExponentialBounds
import Mathlib.Analysis.SpecialFunctions.Pow.Real

/-!
How far the cubic is from the power of two that it stands for. On the unit interval it is never
below the power, and above it by less than 0.07 percent. Against the exact schedule a scaled target
is then at most that much too easy, and on the late side it is too hard by the final rounding alone.
-/

namespace HybridDifficulty.Exponential

open Real

variable {x y : ℝ} {r d target : Nat} {late : Int}

noncomputable def cubic (x : ℝ) : ℝ := (4 * x ^ 3 + 11 * x ^ 2 + 35 * x + 50) / 50

theorem two_rpow_eq_exp (x : ℝ) : (2 : ℝ) ^ x = exp (log 2 * x) := rpow_def_of_pos two_pos x

theorem exp_le_quartic (h : |y| ≤ 1) : exp y ≤ 1 + y + y ^ 2 / 2 + y ^ 3 / 6 + 5 / 96 * y ^ 4 := by
  have hbound := (abs_le.1 (exp_bound h (n := 4) (by decide))).2
  rw [Even.pow_abs (by decide)] at hbound
  simp only [Finset.sum_range_succ, Finset.sum_range_zero, Nat.factorial] at hbound
  norm_num at hbound
  linarith

theorem quintic_le_exp (h : 0 ≤ y) :
    1 + y + y ^ 2 / 2 + y ^ 3 / 6 + y ^ 4 / 24 + y ^ 5 / 120 ≤ exp y := by
  have hbound := sum_le_exp_of_nonneg h 6
  simp only [Finset.sum_range_succ, Finset.sum_range_zero, Nat.factorial] at hbound
  norm_num at hbound
  linarith

theorem two_rpow_le_cubic_of_le_half (h0 : 0 ≤ x) (h : x ≤ 1 / 2) : (2 : ℝ) ^ x ≤ cubic x := by
  -- both start at one, where the cubic has the greater slope
  have hlog : log 2 * x ≤ 0.6932 * x := mul_le_mul_of_nonneg_right (by linarith [log_two_lt_d9]) h0
  have hsmall : |0.6932 * x| ≤ 1 := by
    rw [abs_of_nonneg (by linarith)]
    linarith
  have hpoly : 1 + 0.6932 * x + (0.6932 * x) ^ 2 / 2 + (0.6932 * x) ^ 3 / 6 +
      5 / 96 * (0.6932 * x) ^ 4 ≤ cubic x := by
    rw [cubic]
    nlinarith [mul_nonneg h0 (sq_nonneg (x - 0.548)), mul_nonneg (pow_nonneg h0 3) (sub_nonneg.2 h)]
  calc (2 : ℝ) ^ x = exp (log 2 * x) := two_rpow_eq_exp x
    _ ≤ exp (0.6932 * x) := exp_le_exp.2 hlog
    _ ≤ _ := exp_le_quartic hsmall
    _ ≤ cubic x := hpoly

theorem two_rpow_le_cubic_of_half_le (h : 1 / 2 ≤ x) (h1 : x ≤ 1) : (2 : ℝ) ^ x ≤ cubic x := by
  -- both end at two, where the cubic has the smaller slope, and are compared from that end
  obtain ⟨z, rfl⟩ : ∃ z, x = 1 - z := ⟨1 - x, by ring⟩
  have h0 : 0 ≤ z := by linarith
  have hz : z ≤ 1 / 2 := by linarith
  have hlog : log 2 * -z ≤ -(0.6931 * z) := by nlinarith [log_two_gt_d9]
  have hsmall : |-(0.6931 * z)| ≤ 1 := by
    rw [abs_neg, abs_of_nonneg (by linarith)]
    linarith
  have hpoly : 2 * (1 + -(0.6931 * z) + (-(0.6931 * z)) ^ 2 / 2 + (-(0.6931 * z)) ^ 3 / 6 +
      5 / 96 * (-(0.6931 * z)) ^ 4) ≤ cubic (1 - z) := by
    rw [cubic]
    nlinarith [mul_nonneg h0 (sq_nonneg (z - 0.537)),
      mul_nonneg (pow_nonneg h0 3) (sub_nonneg.2 hz)]
  calc (2 : ℝ) ^ (1 - z) = 2 * (2 : ℝ) ^ (-z) := by rw [sub_eq_add_neg, rpow_add two_pos, rpow_one]
    _ = 2 * exp (log 2 * -z) := by rw [two_rpow_eq_exp]
    _ ≤ 2 * exp (-(0.6931 * z)) := mul_le_mul_of_nonneg_left (exp_le_exp.2 hlog) two_pos.le
    _ ≤ _ := mul_le_mul_of_nonneg_left (exp_le_quartic hsmall) two_pos.le
    _ ≤ cubic (1 - z) := hpoly

theorem two_rpow_le_cubic (h0 : 0 ≤ x) (h1 : x ≤ 1) : (2 : ℝ) ^ x ≤ cubic x := by
  rcases le_total x (1 / 2) with h | h
  · exact two_rpow_le_cubic_of_le_half h0 h
  · exact two_rpow_le_cubic_of_half_le h h1

/-- The quotient of the two is greatest a little above one quarter. -/
theorem cubic_le_mul_two_rpow (h0 : 0 ≤ x) (h1 : x ≤ 1) : cubic x ≤ 1.0007 * (2 : ℝ) ^ x := by
  have hlog : 0.69314 * x ≤ log 2 * x := mul_le_mul_of_nonneg_right (by linarith [log_two_gt_d9]) h0
  have hquotient : 0 ≤ 0.00955 - 0.01908 * x + 0.0103 * x ^ 2 := by
    nlinarith [sq_nonneg (x - 0.923)]
  have hpoly : cubic x ≤ 1.0007 * (1 + 0.69314 * x + (0.69314 * x) ^ 2 / 2 + (0.69314 * x) ^ 3 / 6 +
      (0.69314 * x) ^ 4 / 24 + (0.69314 * x) ^ 5 / 120) := by
    have htouch := sq_nonneg (x - 0.265)
    rw [cubic]
    nlinarith [mul_nonneg htouch hquotient, mul_nonneg htouch (pow_nonneg h0 3)]
  calc cubic x ≤ _ := hpoly
    _ ≤ 1.0007 * exp (0.69314 * x) :=
      mul_le_mul_of_nonneg_left (quintic_le_exp (by linarith)) (by norm_num)
    _ ≤ 1.0007 * exp (log 2 * x) := mul_le_mul_of_nonneg_left (exp_le_exp.2 hlog) (by norm_num)
    _ = 1.0007 * (2 : ℝ) ^ x := by rw [two_rpow_eq_exp]

theorem cubicNum_eq (h0 : 0 < d) (r : Nat) : (cubicNum r d : ℝ) = cubic (r / d) * cubicDen d := by
  have hd : (d : ℝ) ≠ 0 := Nat.cast_ne_zero.2 h0.ne'
  simp only [cubicNum, cubicDen, cubic]
  push_cast
  field_simp

theorem cubicNum_bounds (h0 : 0 < d) (hr : r ≤ d) :
    (2 : ℝ) ^ (r / d : ℝ) * cubicDen d ≤ cubicNum r d ∧
      (cubicNum r d : ℝ) ≤ 1.0007 * ((2 : ℝ) ^ (r / d : ℝ) * cubicDen d) := by
  have hx : 0 ≤ (r / d : ℝ) := by positivity
  have hx1 : (r / d : ℝ) ≤ 1 := div_le_one_of_le₀ (Nat.cast_le.2 hr) (Nat.cast_nonneg d)
  have hden : 0 ≤ (cubicDen d : ℝ) := Nat.cast_nonneg _
  rw [cubicNum_eq h0, ← mul_assoc]
  exact ⟨mul_le_mul_of_nonneg_right (two_rpow_le_cubic hx hx1) hden,
    mul_le_mul_of_nonneg_right (cubic_le_mul_two_rpow hx hx1) hden⟩

theorem two_rpow_div_pow (h0 : 0 < d) (r : Nat) : ((2 : ℝ) ^ (r / d : ℝ)) ^ d = 2 ^ r := by
  have hd : (d : ℝ) ≠ 0 := Nat.cast_ne_zero.2 h0.ne'
  rw [← rpow_mul_natCast two_pos.le, div_mul_cancel₀ _ hd, rpow_natCast]

theorem two_pow_mul_le_cubicNum_pow (h0 : 0 < d) (hr : r ≤ d) :
    2 ^ r * cubicDen d ^ d ≤ cubicNum r d ^ d := by
  have hle := (cubicNum_bounds h0 hr).1
  have hpow : ((2 : ℝ) ^ (r / d : ℝ) * cubicDen d) ^ d ≤ (cubicNum r d : ℝ) ^ d :=
    pow_le_pow_left₀ (by positivity) hle d
  rw [mul_pow, two_rpow_div_pow h0] at hpow
  exact_mod_cast hpow

theorem cubicNum_pow_le (h0 : 0 < d) (hr : r ≤ d) :
    (10000 * cubicNum r d) ^ d ≤ 2 ^ r * (10007 * cubicDen d) ^ d := by
  have hle : (10000 * cubicNum r d : ℝ) ≤ (2 : ℝ) ^ (r / d : ℝ) * (10007 * cubicDen d) := by
    have h := (cubicNum_bounds h0 hr).2
    linarith
  have hpow : (10000 * cubicNum r d : ℝ) ^ d ≤ ((2 : ℝ) ^ (r / d : ℝ) * (10007 * cubicDen d)) ^ d :=
    pow_le_pow_left₀ (by positivity) hle d
  rw [mul_pow ((2 : ℝ) ^ (r / d : ℝ)), two_rpow_div_pow h0] at hpow
  exact_mod_cast hpow

theorem power_bounds (h0 : 0 < d) (n : Nat) :
    (2 : ℝ) ^ (n / d : ℝ) * cubicDen d ≤ power d n ∧
      (power d n : ℝ) ≤ 1.0007 * ((2 : ℝ) ^ (n / d : ℝ) * cubicDen d) := by
  have hd : (d : ℝ) ≠ 0 := Nat.cast_ne_zero.2 h0.ne'
  -- whole timespans are exact, so only the remainder goes through the cubic
  have hsplit : (n / d : ℝ) = (n / d : Nat) + (n % d : Nat) / (d : ℝ) := by
    have hn : (n : ℝ) = d * (n / d : Nat) + (n % d : Nat) := by
      exact_mod_cast (Nat.div_add_mod n d).symm
    rw [hn]
    field_simp
  have hpower : (2 : ℝ) ^ (n / d : ℝ) = 2 ^ (n / d) * (2 : ℝ) ^ ((n % d : Nat) / (d : ℝ)) := by
    rw [hsplit, rpow_add two_pos, rpow_natCast]
  obtain ⟨hlow, hhigh⟩ := cubicNum_bounds h0 (Nat.mod_lt n h0).le
  have hwhole : (0 : ℝ) ≤ 2 ^ (n / d) := by positivity
  have hlow' := mul_le_mul_of_nonneg_left hlow hwhole
  have hhigh' := mul_le_mul_of_nonneg_left hhigh hwhole
  rw [hpower, power]
  push_cast
  constructor
  · linarith
  · linarith

/-- The target that is so late on the exact schedule. -/
noncomputable def scheduled (target : Nat) (late : Int) (d : Nat) : ℝ :=
  target * (2 : ℝ) ^ (late / d : ℝ)

theorem exactScale_late (target n d : Nat) :
    exactScale target n d = target * power d n / cubicDen d := by
  simp only [exactScale, if_pos (Int.natCast_nonneg n), Int.natAbs_natCast,
    Int.toNat_natCast, power]

theorem exactScale_early (target n d : Nat) :
    exactScale target (.negSucc n) d = target * cubicDen d / power d (n + 1) := by
  simp only [exactScale, if_neg (Int.negSucc_not_nonneg n).1, Int.natAbs_negSucc, Int.toNat_natCast,
    power, Nat.succ_eq_add_one]

theorem scheduled_lt (h0 : 0 < d) (target : Nat) (hlate : 0 ≤ late) :
    scheduled target late d < exactScale target late d + 1 := by
  obtain ⟨n, rfl⟩ := Int.eq_ofNat_of_zero_le hlate
  have hden : (0 : ℝ) < cubicDen d := Nat.cast_pos.2 (cubicDen_pos h0)
  have hlow := mul_le_mul_of_nonneg_left (power_bounds h0 n).1 (Nat.cast_nonneg (α := ℝ) target)
  have hround :
      (target * power d n : ℝ) < cubicDen d * ((target * power d n / cubicDen d : Nat) + 1) := by
    exact_mod_cast Nat.lt_mul_div_succ (target * power d n) (cubicDen_pos h0)
  rw [exactScale_late, scheduled, Int.cast_natCast]
  refine lt_of_mul_lt_mul_right ?_ hden.le
  linarith

theorem exactScale_late_le (h0 : 0 < d) (target n : Nat) :
    (exactScale target n d : ℝ) ≤ 1.0007 * scheduled target n d := by
  have hden : (0 : ℝ) < cubicDen d := Nat.cast_pos.2 (cubicDen_pos h0)
  have hhigh := mul_le_mul_of_nonneg_left (power_bounds h0 n).2 (Nat.cast_nonneg (α := ℝ) target)
  rw [exactScale_late, scheduled, Int.cast_natCast]
  calc ((target * power d n / cubicDen d : Nat) : ℝ)
      ≤ (target * power d n : Nat) / (cubicDen d : ℝ) := Nat.cast_div_le
    _ ≤ 1.0007 * (target * (2 : ℝ) ^ (n / d : ℝ)) := by
      rw [div_le_iff₀ hden, Nat.cast_mul]
      linarith

theorem exactScale_early_le (h0 : 0 < d) (target n : Nat) :
    (exactScale target (.negSucc n) d : ℝ) ≤ scheduled target (.negSucc n) d := by
  -- here the power is the divisor, so a cubic above it makes the target harder
  have hlow := (power_bounds h0 (n + 1)).1
  have hpower : (0 : ℝ) < power d (n + 1) :=
    Nat.cast_pos.2 ((cubicDen_pos h0).trans_le (cubicDen_le_power d (n + 1)))
  have hinv : (2 : ℝ) ^ (Int.negSucc n / d : ℝ) * (2 : ℝ) ^ ((n + 1 : Nat) / d : ℝ) = 1 := by
    rw [← rpow_add two_pos, Int.cast_negSucc, neg_div, neg_add_cancel, rpow_zero]
  have hideal : (0 : ℝ) ≤ target * (2 : ℝ) ^ (Int.negSucc n / d : ℝ) := by positivity
  rw [exactScale_early, scheduled]
  calc ((target * cubicDen d / power d (n + 1) : Nat) : ℝ)
      ≤ (target * cubicDen d : Nat) / (power d (n + 1) : ℝ) := Nat.cast_div_le
    _ ≤ target * (2 : ℝ) ^ (Int.negSucc n / d : ℝ) := by
      rw [div_le_iff₀ hpower, Nat.cast_mul]
      calc (target * cubicDen d : ℝ)
          = target * (2 : ℝ) ^ (Int.negSucc n / d : ℝ) *
            ((2 : ℝ) ^ ((n + 1 : Nat) / d : ℝ) * cubicDen d) := by
            linear_combination (-target * cubicDen d : ℝ) * hinv
        _ ≤ target * (2 : ℝ) ^ (Int.negSucc n / d : ℝ) * power d (n + 1) :=
          mul_le_mul_of_nonneg_left hlow hideal

theorem exactScale_le (h0 : 0 < d) (target : Nat) (late : Int) :
    (exactScale target late d : ℝ) ≤ 1.0007 * scheduled target late d := by
  cases late with
  | ofNat n => exact exactScale_late_le h0 target n
  | negSucc n =>
    have hideal : 0 ≤ scheduled target (.negSucc n) d := by
      rw [scheduled]
      positivity
    have hle := exactScale_early_le h0 target n
    linarith

theorem val_of_scale? {v : UInt512} (h0 : 0 < d) (h64 : d < 2 ^ 64) (htarget : target < 2 ^ 256)
    (h : scale? target late d = some v) : v.val = exactScale target late d := by
  have htracks : UInt512.Tracks (exactScale target late d) (scale? target late d) :=
    scale?_tracks htarget (by omega) (by omega)
  rw [h] at htracks
  exact htracks

/-- What the cubic promises for a timespan of so many seconds. -/
structure CubicLaws (d : Nat) : Prop where
  /-- Checked arithmetic gives the cubic as it is. -/
  exact : d < 2 ^ 64 → ∀ r ≤ d,
    ∃ poly base, cubicRatio? r d = some (poly, base) ∧ poly.val = cubicNum r d ∧
      base.val = cubicDen d
  not_below : ∀ r ≤ d, 2 ^ r * cubicDen d ^ d ≤ cubicNum r d ^ d
  barely_above : ∀ r ≤ d, (10000 * cubicNum r d) ^ d ≤ 2 ^ r * (10007 * cubicDen d) ^ d
  not_eased : d < 2 ^ 64 → ∀ target < 2 ^ 256, ∀ late v, scale? target late d = some v →
    (v.val : ℝ) ≤ 1.0007 * scheduled target late d
  /-- The final rounding takes less than one. -/
  not_undershot : d < 2 ^ 64 → ∀ target < 2 ^ 256, ∀ late ≥ 0, ∀ v, scale? target late d = some v →
    scheduled target late d < v.val + 1

theorem cubicLaws (h0 : 0 < d) : CubicLaws d where
  exact h64 r hr := exists_cubicRatio? (hr.trans_lt h64) h64
  not_below r hr := two_pow_mul_le_cubicNum_pow h0 hr
  barely_above r hr := cubicNum_pow_le h0 hr
  not_eased h64 target htarget late v hv := by
    rw [val_of_scale? h0 h64 htarget hv]
    exact exactScale_le h0 target late
  not_undershot h64 target htarget late hlate v hv := by
    rw [val_of_scale? h0 h64 htarget hv]
    exact scheduled_lt h0 target hlate

/-- The timespan of the main network. -/
theorem cubicLaws_half_day : 0 < 43200 ∧ CubicLaws 43200 := ⟨by decide, cubicLaws (by decide)⟩

end HybridDifficulty.Exponential
