import HybridDifficulty.Proofs.CompactGrid

/-!
What the bits of a compact form decode to: truncated encoding gives the greatest target that is not
above the number, rounded encoding the nearest one, and neither is negative or overflows.
-/

namespace HybridDifficulty.CompactForm

variable {v w s m : Nat} {bits : UInt32}

theorem toNat_pack (hs : s < 256) (hm : m < 2 ^ 23) : (pack s m).toNat = s * 2 ^ 24 + m := by
  rw [pack, UInt32.toNat_ofNat']
  omega

theorem size_pack (hs : s < 256) (hm : m < 2 ^ 23) : size (pack s m) = s := by
  rw [size, toNat_pack hs hm]
  omega

theorem mantissa_pack (hs : s < 256) (hm : m < 2 ^ 23) : mantissa (pack s m) = m := by
  rw [mantissa, toNat_pack hs hm]
  omega

theorem signed_pack (hs : s < 256) (hm : m < 2 ^ 23) : signed (pack s m) = false := by
  rw [signed, toNat_pack hs hm, decide_eq_false_iff_not]
  omega

theorem word_lt (bits : UInt32) : word bits < 2 ^ 23 :=
  (Nat.div_le_self _ _).trans_lt (Nat.mod_lt _ (by decide))

/-- The number that the bits stand for, however large. -/
def value (bits : UInt32) : Nat := word bits * 256 ^ (size bits - 3)

theorem pow_256_32 : 256 ^ 32 = 2 ^ 256 := by decide

theorem byteWeight_eq (n : Nat) : byteWeight n = 256 ^ n := rfl

theorem byteWeight_32 : byteWeight 32 = 2 ^ 256 := pow_256_32

theorem two_pow_le_mul_pow {a i j : Nat} (ha : 256 ^ i ≤ a) (hij : 32 ≤ i + j) :
    2 ^ 256 ≤ a * 256 ^ j := by
  calc 2 ^ 256 ≤ 256 ^ (i + j) := by rw [← pow_256_32]; exact Nat.pow_le_pow_right (by decide) hij
    _ = 256 ^ i * 256 ^ j := Nat.pow_add 256 i j
    _ ≤ a * 256 ^ j := Nat.mul_le_mul_right _ ha

theorem mul_pow_lt_two_pow {a i j : Nat} (ha : a < 256 ^ i) (hij : i + j ≤ 32) :
    a * 256 ^ j < 2 ^ 256 := by
  calc a * 256 ^ j < 256 ^ i * 256 ^ j := Nat.mul_lt_mul_of_pos_right ha (Nat.pow_pos (by decide))
    _ = 256 ^ (i + j) := (Nat.pow_add 256 i j).symm
    _ ≤ 2 ^ 256 := by rw [← pow_256_32]; exact Nat.pow_le_pow_right (by decide) hij

/-- The thresholds on the size say exactly when the number has more than 256 bits. -/
theorem overflow_iff (bits : UInt32) : (decode bits).overflow = true ↔ 2 ^ 256 ≤ value bits := by
  have hw := word_lt bits
  simp only [decode, value, Bool.and_eq_true, Bool.or_eq_true, decide_eq_true_eq]
  by_cases h0 : word bits = 0
  · simp [h0]
  by_cases h1 : word bits ≤ 0xff
  · by_cases hs : 34 < size bits
    · exact iff_of_true (by omega) (two_pow_le_mul_pow (i := 0) (by omega) (by omega))
    · exact iff_of_false (by omega) (mul_pow_lt_two_pow (i := 1) (by omega) (by omega)).not_ge
  by_cases h2 : word bits ≤ 0xffff
  · by_cases hs : 33 < size bits
    · exact iff_of_true (by omega) (two_pow_le_mul_pow (i := 1) (by omega) (by omega))
    · exact iff_of_false (by omega) (mul_pow_lt_two_pow (i := 2) (by omega) (by omega)).not_ge
  · by_cases hs : 32 < size bits
    · exact iff_of_true (by omega) (two_pow_le_mul_pow (i := 2) (by omega) (by omega))
    · exact iff_of_false (by omega) (mul_pow_lt_two_pow (i := 3) (by omega) (by omega)).not_ge

theorem decode_eq (h : value bits < 2 ^ 256) (hs : signed bits = false) :
    decode bits = ⟨value bits, false, false⟩ := by
  have ho : (decode bits).overflow = false := by
    rw [← Bool.not_eq_true, overflow_iff]
    exact h.not_ge
  have ht : word bits * byteWeight (size bits - 3) % byteWeight 32 = value bits := by
    rw [byteWeight_32]
    exact Nat.mod_eq_of_lt h
  simp only [decode] at ho ⊢
  rw [ht, ho, hs, Bool.and_false]

theorem value_pack (hs : s < 256) (hm : m < 2 ^ 23) :
    value (pack s m) = m / 256 ^ (3 - s) * 256 ^ (s - 3) := by
  rw [value, word, size_pack hs hm, mantissa_pack hs hm, byteWeight_eq]

theorem decode_pack (hs : s < 256) (hm : m < 2 ^ 23)
    (h : m / 256 ^ (3 - s) * 256 ^ (s - 3) < 2 ^ 256) :
    decode (pack s m) = ⟨m / 256 ^ (3 - s) * 256 ^ (s - 3), false, false⟩ := by
  rw [← value_pack hs hm] at h ⊢
  exact decode_eq h (signed_pack hs hm)

theorem sizeFor_le_33 (h : v < 2 ^ 256) : sizeFor v ≤ 33 :=
  sizeFor_le_add_three_iff.2 (h.trans (by decide : 2 ^ 256 < 2 ^ 23 * 256 ^ 30))

theorem div_unit_lt (v : Nat) : v / unit v < 2 ^ 23 :=
  (Nat.div_lt_iff_lt_mul (unit_pos v)).2 (lt_mul_unit v)

/-- The mantissa of the truncated code. A number of few bytes fills it from the left. -/
def leading (v : Nat) : Nat := v * 256 ^ (3 - sizeFor v) / 256 ^ (sizeFor v - 3)

theorem encode_eq (v : Nat) : encode v = pack (sizeFor v) (leading v) := rfl

theorem leading_of_le (h : sizeFor v ≤ 3) : leading v = v * 256 ^ (3 - sizeFor v) := by
  rw [leading, Nat.sub_eq_zero_of_le h, Nat.pow_zero, Nat.div_one]

theorem leading_of_gt (h : 3 < sizeFor v) : leading v = v / unit v := by
  rw [leading, Nat.sub_eq_zero_of_le h.le, Nat.pow_zero, Nat.mul_one, unit]

theorem leading_lt (v : Nat) : leading v < 2 ^ 23 := by
  by_cases h : sizeFor v ≤ 3
  · rw [leading_of_le h]
    by_cases h0 : v = 0
    · simp [h0]
    · obtain ⟨k, hk⟩ : ∃ k, sizeFor v = k + 1 := ⟨_, if_neg h0⟩
      have hv : v < 2 ^ (8 * k + 7) := sizeFor_le_succ_iff.1 hk.le
      have hk2 : k = 0 ∨ k = 1 ∨ k = 2 := by omega
      rw [hk]
      rcases hk2 with rfl | rfl | rfl <;> omega
  · rw [leading_of_gt (Nat.lt_of_not_le h)]
    exact div_unit_lt v

theorem encode_mul (hs : 3 < s) (hm : 2 ^ 15 ≤ m) (hlt : m < 2 ^ 23) :
    encode (m * 256 ^ (s - 3)) = pack s m := by
  obtain ⟨k, rfl⟩ : ∃ k, s = k + 4 := ⟨s - 4, by omega⟩
  have hle : sizeFor (m * 256 ^ (k + 1)) ≤ k + 1 + 3 :=
    sizeFor_le_add_three_iff.2 (Nat.mul_lt_mul_of_pos_right hlt (Nat.pow_pos (by decide)))
  have hgt : ¬ sizeFor (m * 256 ^ (k + 1)) ≤ k + 3 := by
    rw [sizeFor_le_add_three_iff, Nat.not_lt]
    calc 2 ^ 23 * 256 ^ k = 2 ^ 15 * 256 ^ (k + 1) := by rw [Nat.pow_succ]; ring
      _ ≤ m * 256 ^ (k + 1) := Nat.mul_le_mul_right _ hm
  have hsize : sizeFor (m * 256 ^ (k + 1)) = k + 4 := by omega
  have hleading : leading (m * 256 ^ (k + 1)) = m := by
    rw [leading_of_gt (by omega), unit, hsize]
    exact Nat.mul_div_cancel m (Nat.pow_pos (by decide))
  rw [show k + 4 - 3 = k + 1 by omega, encode_eq, hsize, hleading]

/-- Encoding a number and encoding the target that it is cut down to are one thing. -/
theorem encode_floor (v : Nat) : encode (floor v) = encode v := by
  by_cases h : v < 2 ^ 23
  · rw [floor_eq_of_lt h]
  · have hle := Nat.not_lt.1 h
    have h3 := three_lt_sizeFor hle
    rw [encode_eq v, leading_of_gt h3]
    exact encode_mul h3 (le_div_unit hle) (div_unit_lt v)

theorem decode_encode (h : v < 2 ^ 256) : decode (encode v) = ⟨floor v, false, false⟩ := by
  have hs := sizeFor_le_33 h
  have hv : leading v / 256 ^ (3 - sizeFor v) * 256 ^ (sizeFor v - 3) = floor v := by
    by_cases h3 : sizeFor v ≤ 3
    · rw [leading_of_le h3, Nat.mul_div_cancel _ (Nat.pow_pos (by decide)),
        Nat.sub_eq_zero_of_le h3, Nat.pow_zero, Nat.mul_one,
        floor_eq_of_lt (sizeFor_le_add_three_iff.1 h3)]
    · have h3 := Nat.lt_of_not_le h3
      rw [leading_of_gt h3, Nat.sub_eq_zero_of_le h3.le, Nat.pow_zero, Nat.div_one, floor, unit]
  rw [encode_eq, decode_pack (by omega) (leading_lt v) (hv ▸ (floor_le v).trans_lt h), hv]

theorem leading_pos (h : 0 < v) : 0 < leading v := by
  by_cases h3 : sizeFor v ≤ 3
  · rw [leading_of_le h3]
    exact Nat.mul_pos h (Nat.pow_pos (by decide))
  · have hv : 2 ^ 23 ≤ v := Nat.not_lt.1 fun hv ↦ h3 (sizeFor_le_add_three_iff.2 hv)
    have hq := le_div_unit hv
    rw [leading_of_gt (Nat.lt_of_not_le h3)]
    omega

theorem marker_of_encode_ne_zero (h : encode v ≠ 0) : marker v = encode v - 1 := if_neg h

theorem marker_eq (h : v < 2 ^ 256) (h0 : 0 < v) : marker v = pack (sizeFor v) (leading v - 1) := by
  have hs := sizeFor_le_33 h
  have hl := leading_lt v
  have hp := leading_pos h0
  have ht : (encode v).toNat = sizeFor v * 2 ^ 24 + leading v := toNat_pack (by omega) hl
  have hne : encode v ≠ 0 := fun he ↦ by
    rw [he, UInt32.toNat_zero] at ht
    omega
  have hle : (1 : UInt32) ≤ encode v := by
    rw [UInt32.le_iff_toNat_le, ht, UInt32.toNat_one]
    omega
  rw [marker_of_encode_ne_zero hne, ← UInt32.toNat_inj, UInt32.toNat_sub_of_le _ _ hle, ht,
    toNat_pack (by omega) (by omega), UInt32.toNat_one]
  omega

/-- The bits just below a ceiling's own stand for the next target below the ceiling's. -/
theorem decode_marker (h : v < 2 ^ 256) (h0 : 0 < v) :
    decode (marker v) = ⟨floor v - unit v, false, false⟩ := by
  have hs := sizeFor_le_33 h
  have hl := leading_lt v
  have hp := leading_pos h0
  have hv : (leading v - 1) / 256 ^ (3 - sizeFor v) * 256 ^ (sizeFor v - 3) = floor v - unit v := by
    by_cases h3 : sizeFor v ≤ 3
    · have hlt := sizeFor_le_add_three_iff.1 h3
      have hdiv : (v * 256 ^ (3 - sizeFor v) - 1) / 256 ^ (3 - sizeFor v) = v - 1 := by
        have h :=
          Nat.mul_sub_div 0 (256 ^ (3 - sizeFor v)) v (Nat.mul_pos (Nat.pow_pos (by decide)) h0)
        rwa [Nat.zero_div, Nat.zero_add, Nat.mul_comm] at h
      rw [leading_of_le h3, hdiv, Nat.sub_eq_zero_of_le h3, Nat.pow_zero, Nat.mul_one,
        floor_eq_of_lt hlt, unit_eq_one hlt]
    · have h3 := Nat.lt_of_not_le h3
      rw [leading_of_gt h3, Nat.sub_eq_zero_of_le h3.le, Nat.pow_zero, Nat.div_one, Nat.sub_mul,
        Nat.one_mul, floor, unit]
  have hlt : floor v - unit v < 2 ^ 256 := (Nat.sub_le _ _).trans_lt ((floor_le v).trans_lt h)
  rw [marker_eq h h0, decode_pack (by omega) (by omega) (hv ▸ hlt), hv]

theorem add_half_div {u : Nat} (hu : 0 < u) (he : u % 2 = 0) :
    (v + u / 2) / u = v / u + if u ≤ 2 * (v % u) then 1 else 0 := by
  rw [Nat.add_div hu, Nat.div_eq_of_lt (by omega : u / 2 < u),
    Nat.mod_eq_of_lt (by omega : u / 2 < u), Nat.add_zero]
  congr 2
  rw [eq_iff_iff]
  omega

theorem unit_even (h : 2 ^ 23 ≤ v) : unit v % 2 = 0 := by
  obtain ⟨k, hk⟩ := Nat.exists_eq_add_of_lt (three_lt_sizeFor h)
  rw [unit, show sizeFor v - 3 = k + 1 by omega, Nat.pow_succ]
  omega

/-- A mantissa that reaches the sign bit goes on in the next size. -/
def packCarry (s m : Nat) : UInt32 := if m < 2 ^ 23 then pack s m else pack (s + 1) (m / 256)

theorem decode_packCarry (h : 2 ^ 23 ≤ v) (hv : v < 2 ^ 256) (hm : m ≤ 2 ^ 23) :
    value (packCarry (sizeFor v) m) = m * unit v ∧ signed (packCarry (sizeFor v) m) = false := by
  have hs := sizeFor_le_33 hv
  have h3 := three_lt_sizeFor h
  rw [packCarry, unit]
  split
  · next hlt =>
    refine ⟨?_, signed_pack (by omega) hlt⟩
    rw [value_pack (by omega) hlt, show 3 - sizeFor v = 0 by omega, Nat.pow_zero, Nat.div_one]
  · next hlt =>
    have hm' : m = 2 ^ 23 := by omega
    subst hm'
    refine ⟨?_, signed_pack (by omega) (by decide)⟩
    rw [value_pack (by omega) (by decide), show 3 - (sizeFor v + 1) = 0 by omega,
      show sizeFor v + 1 - 3 = sizeFor v - 3 + 1 by omega, Nat.pow_succ]
    ring

theorem packCarry_eq_encode (hs : 3 < s) (hm : 2 ^ 15 ≤ m) (hle : m ≤ 2 ^ 23) :
    packCarry s m = encode (m * 256 ^ (s - 3)) := by
  rw [packCarry]
  split
  · next hlt => exact (encode_mul hs hm hlt).symm
  · next hlt =>
    obtain rfl : m = 2 ^ 23 := Nat.le_antisymm hle (Nat.not_lt.1 hlt)
    have hcarry : encode (2 ^ 15 * 256 ^ (s + 1 - 3)) = pack (s + 1) (2 ^ 15) :=
      encode_mul (by omega) le_rfl (by decide)
    have hval : 2 ^ 23 * 256 ^ (s - 3) = 2 ^ 15 * 256 ^ (s + 1 - 3) := by
      rw [show s + 1 - 3 = s - 3 + 1 by omega, Nat.pow_succ]
      ring
    rw [hval, hcarry, show 2 ^ 23 / 256 = 2 ^ 15 by decide]

theorem encodeRounded_eq (h : ¬ v < 2 ^ 24) :
    encodeRounded v =
      if (decode (packCarry (sizeFor v) ((v + unit v / 2) / unit v))).overflow then encode v
      else packCarry (sizeFor v) ((v + unit v / 2) / unit v) := by
  rw [encodeRounded, if_neg (by omega)]
  rfl

/-- The rounded code of a number is the code of the nearest target. -/
theorem encodeRounded_eq_encode_nearest (h : v < 2 ^ 256) :
    encodeRounded v = encode (nearest v) := by
  by_cases hlt : v < 2 ^ 24
  · rw [encodeRounded, if_pos (by omega), nearest, if_neg (by omega), encode_floor]
  · have h23 : 2 ^ 23 ≤ v := by omega
    have hq := le_div_unit h23
    have hq' := div_unit_lt v
    have hm := add_half_div (v := v) (unit_pos v) (unit_even h23)
    rw [encodeRounded_eq hlt]
    generalize (v + unit v / 2) / unit v = m at hm
    have hle : m ≤ 2 ^ 23 := by
      rw [hm]
      split <;> omega
    have hval : m * unit v = if unit v ≤ 2 * (v % unit v) then floor v + unit v else floor v := by
      rw [hm, floor]
      split
      · exact Nat.succ_mul _ _
      · rfl
    have hcarry : packCarry (sizeFor v) m = encode (m * unit v) :=
      packCarry_eq_encode (three_lt_sizeFor h23) (by omega) hle
    have hoverflow : (decode (packCarry (sizeFor v) m)).overflow = true ↔ 2 ^ 256 ≤ m * unit v := by
      rw [overflow_iff, (decode_packCarry h23 h hle).1]
    have hfloor := floor_le v
    by_cases hup : unit v ≤ 2 * (v % unit v)
    · rw [if_pos hup] at hval
      by_cases hlast : 2 ^ 256 ≤ floor v + unit v
      · rw [if_pos (hoverflow.2 (hval ▸ hlast)), nearest, if_neg (by omega), encode_floor]
      · rw [if_neg (by rw [hoverflow, hval]; exact hlast), hcarry, hval, nearest, if_pos (by omega)]
    · rw [if_neg hup] at hval
      rw [if_neg (by rw [hoverflow, hval]; omega), hcarry, hval, nearest, if_neg (by omega)]

theorem decode_encodeRounded (h : v < 2 ^ 256) :
    decode (encodeRounded v) = ⟨nearest v, false, false⟩ := by
  rw [encodeRounded_eq_encode_nearest h, decode_encode (nearest_lt h), floor_nearest]

theorem target_encode (h : v < 2 ^ 256) : target (encode v) = floor v := by
  rw [target, decode_encode h]

theorem target_encodeRounded (h : v < 2 ^ 256) : target (encodeRounded v) = nearest v := by
  rw [target, decode_encodeRounded h]

theorem target_lt_two_pow (bits : UInt32) : target bits < 2 ^ 256 := byteWeight_32 ▸ target_lt bits

theorem size_encode (h : v < 2 ^ 256) : size (encode v) = sizeFor v := by
  have hs := sizeFor_le_33 h
  rw [encode_eq, size_pack (by omega) (leading_lt v)]

theorem floor_target (h : encode (target bits) = bits) : floor (target bits) = target bits := by
  rw [← target_encode (target_lt_two_pow bits), h]

theorem le_target (h : encode (target bits) = bits) (hsize : 6 ≤ size bits) :
    2 ^ 39 ≤ target bits := by
  rw [← h, size_encode (target_lt_two_pow bits)] at hsize
  refine Nat.not_lt.1 fun hlt ↦ ?_
  have hle : sizeFor (target bits) ≤ 4 + 1 := sizeFor_le_succ_iff.2 hlt
  omega

/-- Rounding restores canonical bits from all numbers that are a little below their target. -/
theorem encodeRounded_of_close (h : encode (target bits) = bits) (hsize : 6 ≤ size bits)
    (hle : v ≤ target bits) (hclose : target bits - v ≤ 2 ^ 15) : encodeRounded v = bits := by
  have htarget := le_target h hsize
  have hlt := target_lt_two_pow bits
  -- six bytes leave three below the mantissa, of which one is lost where the size shrinks
  have hunit : 256 ^ 2 ≤ unit v := pow_le_unit (by omega)
  have hnearest : nearest v = target bits :=
    nearest_eq_of_close (floor_target h) hlt hle (by omega) (by omega)
  rw [encodeRounded_eq_encode_nearest (hle.trans_lt hlt), hnearest, h]

/-- Rounding does not lead back to a target from a number that is lower by a seventy-second. -/
theorem encodeRounded_ne_of_le (hlt : v < 2 ^ 256) (hlarge : 2 ^ 39 ≤ target bits)
    (hlow : 72 * v ≤ 71 * target bits) : encodeRounded v ≠ bits := by
  intro heq
  have hnearest : target bits ≤ v + unit v := by
    rw [← heq, target_encodeRounded hlt]
    exact (nearest_le_add v).trans (Nat.add_le_add_right (floor_le v) _)
  by_cases hsmall : v < 2 ^ 23
  · rw [unit_eq_one hsmall] at hnearest
    omega
  · have hunit := mul_unit_le (Nat.not_lt.1 hsmall)
    omega

end HybridDifficulty.CompactForm
