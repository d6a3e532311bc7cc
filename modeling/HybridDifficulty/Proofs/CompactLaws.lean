import HybridDifficulty.Proofs.CompactCodec
import Mathlib.Algebra.Order.Floor.Semifield
import Mathlib.Data.Rat.Floor

/-!
The laws of the compact format against the numbers that its fields stand for. A code decodes to the
whole part of its number as long as that has at most 256 bits, and a number is encoded as the
greatest target below it that any code has. The rounded code keeps the order of numbers too, and its
target is at most one unit further up.
-/

namespace HybridDifficulty.CompactForm

variable {v w : Nat} {bits : UInt32}

/-- The number that the fields of a code stand for, with a fraction where the size is below
three. -/
def exactValue (bits : UInt32) : ℚ := mantissa bits * 256 ^ ((size bits : ℤ) - 3)

theorem floor_exactValue (bits : UInt32) : ⌊exactValue bits⌋₊ = value bits := by
  rcases Nat.lt_or_ge (size bits) 3 with h | h
  · -- the power is a divisor, whose quotient loses the bytes shifted out
    have hsub : (size bits : ℤ) - 3 = -((3 - size bits : Nat) : ℤ) := by omega
    have hdiv : exactValue bits = (mantissa bits : ℚ) / ((256 ^ (3 - size bits) : Nat) : ℚ) := by
      rw [exactValue, hsub, zpow_neg, zpow_natCast, div_eq_mul_inv, Nat.cast_pow]
      rfl
    rw [hdiv, Nat.floor_div_natCast, Nat.floor_natCast, value, word, byteWeight_eq,
      Nat.sub_eq_zero_of_le h.le, Nat.pow_zero, Nat.mul_one]
  · have hsub : (size bits : ℤ) - 3 = ((size bits - 3 : Nat) : ℤ) := by omega
    have hmul : exactValue bits = ((mantissa bits * 256 ^ (size bits - 3) : Nat) : ℚ) := by
      rw [exactValue, hsub, zpow_natCast, Nat.cast_mul, Nat.cast_pow]
      rfl
    rw [hmul, Nat.floor_natCast, value, word, byteWeight_eq, Nat.sub_eq_zero_of_le h, Nat.pow_zero,
      Nat.div_one]

theorem overflow_iff_exactValue (bits : UInt32) :
    (decode bits).overflow = true ↔ 2 ^ 256 ≤ exactValue bits := by
  rw [overflow_iff, ← floor_exactValue, Nat.le_floor_iff' (by decide), Nat.cast_pow]
  rfl

theorem target_eq_value (h : (decode bits).overflow = false) : target bits = value bits := by
  have hlt : ¬ 2 ^ 256 ≤ value bits := by
    rw [← overflow_iff, h]
    exact Bool.false_ne_true
  rw [target, decode, byteWeight_32]
  exact Nat.mod_eq_of_lt (Nat.not_le.1 hlt)

/-- Each target is on the grid, also that of a code which has another of the same target. -/
theorem floor_target_of_not_overflow (h : (decode bits).overflow = false) :
    floor (target bits) = target bits := by
  have hlt : value bits < 2 ^ 23 * 256 ^ (size bits - 3) :=
    Nat.mul_lt_mul_of_pos_right (word_lt bits) (Nat.pow_pos (by decide))
  rw [target_eq_value h]
  exact floor_eq_of_dvd ((unit_dvd hlt).trans (Nat.dvd_mul_left _ _))

theorem isGreatest_target_encode (h : v < 2 ^ 256) :
    IsGreatest {t | t ≤ v ∧ ∃ bits, (decode bits).overflow = false ∧ target bits = t}
      (target (encode v)) := by
  constructor
  · refine ⟨?_, encode v, ?_, rfl⟩
    · rw [target_encode h]
      exact floor_le v
    · rw [decode_encode h]
  · rintro t ⟨hle, bits, hbits, rfl⟩
    rw [target_encode h, ← floor_target_of_not_overflow hbits]
    exact floor_mono hle

theorem leading_mono (hs : sizeFor v = sizeFor w) (h : v ≤ w) : leading v ≤ leading w := by
  rw [leading, leading, hs]
  exact Nat.div_le_div_right (Nat.mul_le_mul_right _ h)

/-- Codes are ordered as the numbers are: by size first and by mantissa within a size. -/
theorem encode_mono (h : v ≤ w) (hw : w < 2 ^ 256) : encode v ≤ encode w := by
  have hsv := sizeFor_le_33 (h.trans_lt hw)
  have hsw := sizeFor_le_33 hw
  have hlv := leading_lt v
  rw [UInt32.le_iff_toNat_le, encode_eq, encode_eq, toNat_pack (by omega) hlv,
    toNat_pack (by omega) (leading_lt w)]
  rcases (sizeFor_mono h).lt_or_eq with hs | hs
  · omega
  · have hl := leading_mono hs h
    omega

/-- What holds of all codes and of all numbers of 256 bits. -/
structure FormatLaws : Prop where
  overflow_iff : ∀ bits, (decode bits).overflow = true ↔ 2 ^ 256 ≤ exactValue bits
  target_eq : ∀ bits, (decode bits).overflow = false → target bits = ⌊exactValue bits⌋₊
  /-- Codes that were made by encoding carry no flag. -/
  unflagged : ∀ v < 2 ^ 256, (decode (encode v)).negative = false ∧
    (decode (encode v)).overflow = false
  greatest : ∀ v < 2 ^ 256,
    IsGreatest {t | t ≤ v ∧ ∃ bits, (decode bits).overflow = false ∧ target bits = t}
      (target (encode v))
  target_stable : ∀ bits, (decode bits).overflow = false →
    target (encode (target bits)) = target bits
  code_stable : ∀ v < 2 ^ 256, encode (target (encode v)) = encode v
  mono : ∀ v w, v ≤ w → w < 2 ^ 256 → target (encode v) ≤ target (encode w) ∧ encode v ≤ encode w

theorem formatLaws : FormatLaws where
  overflow_iff := overflow_iff_exactValue
  target_eq bits h := by rw [target_eq_value h, floor_exactValue]
  unflagged v h := by
    rw [decode_encode h]
    exact ⟨rfl, rfl⟩
  greatest v h := isGreatest_target_encode h
  target_stable bits h := by
    rw [target_encode (target_lt_two_pow bits)]
    exact floor_target_of_not_overflow h
  code_stable v h := by rw [target_encode h, encode_floor]
  mono v w h hw := by
    refine ⟨?_, encode_mono h hw⟩
    rw [target_encode (h.trans_lt hw), target_encode hw]
    exact floor_mono h

/-- Only the target of a code comes back: the code itself may waste its mantissa. -/
example : encode (target 0x04000012) = 0x02120000 := by decide

theorem nearest_le_add_pow (h : v < 2 ^ 256) :
    nearest v ≤ floor v + 256 ^ (size (encode v) - 3) := by
  rw [size_encode h]
  exact nearest_le_add v

theorem nearest_eq_floor_of_size (h : v < 2 ^ 256) (hs : size (encode v) ≤ 3) :
    nearest v = floor v := by
  rw [size_encode h] at hs
  have hlt : v < 2 ^ 23 := sizeFor_le_add_three_iff (k := 0).1 hs
  have hfloor := floor_eq_of_lt hlt
  rw [nearest_eq_of_floor_eq hfloor, hfloor]

theorem encodeRounded_of_code (h : (decode bits).overflow = false) :
    encodeRounded (target bits) = encode (target bits) := by
  have hgrid := floor_target_of_not_overflow h
  rw [encodeRounded_eq_encode_nearest (target_lt_two_pow bits), nearest_eq_of_floor_eq hgrid]

theorem nearest_pos (h : 0 < v) : 0 < nearest v := (floor_pos h).trans_le (floor_le_nearest v)

/-- What holds of the rounded codes of all numbers of 256 bits, in particular next to the truncated
ones. -/
structure RoundedLaws : Prop where
  mono : ∀ v w, v ≤ w → w < 2 ^ 256 → target (encodeRounded v) ≤ target (encodeRounded w)
  unflagged : ∀ v < 2 ^ 256, (decode (encodeRounded v)).negative = false ∧
    (decode (encodeRounded v)).overflow = false
  eq_zero : ∀ v < 2 ^ 256, target (encodeRounded v) = 0 → v = 0
  exact : ∀ v, (∃ bits, (decode bits).overflow = false ∧ target bits = v) →
    encodeRounded v = encode v
  le_rounded : ∀ v < 2 ^ 256, target (encode v) ≤ target (encodeRounded v)
  rounded_le : ∀ v < 2 ^ 256, target (encodeRounded v) ≤
    target (encode v) + 256 ^ (size (encode v) - 3)
  /-- Where the mantissa has room for every byte, nothing is rounded. -/
  rounded_eq : ∀ v < 2 ^ 256, size (encode v) ≤ 3 → target (encodeRounded v) = target (encode v)

theorem roundedLaws : RoundedLaws where
  mono v w h hw := by
    rw [target_encodeRounded (h.trans_lt hw), target_encodeRounded hw]
    exact nearest_mono h
  unflagged v h := by
    rw [decode_encodeRounded h]
    exact ⟨rfl, rfl⟩
  eq_zero v h h0 := by
    rw [target_encodeRounded h] at h0
    exact Nat.eq_zero_of_not_pos fun hv ↦ (nearest_pos hv).ne' h0
  exact v h := by
    obtain ⟨bits, hbits, rfl⟩ := h
    exact encodeRounded_of_code hbits
  le_rounded v h := by
    rw [target_encode h, target_encodeRounded h]
    exact floor_le_nearest v
  rounded_le v h := by
    rw [target_encode h, target_encodeRounded h]
    exact nearest_le_add_pow h
  rounded_eq v h hs := by
    rw [target_encode h, target_encodeRounded h]
    exact nearest_eq_floor_of_size h hs

end HybridDifficulty.CompactForm
