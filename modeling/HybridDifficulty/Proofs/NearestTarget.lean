import HybridDifficulty.Proofs.CompactLaws

/-!
Rounding a number goes to the nearest of all targets, and up between two that are as near. The
exception are numbers of three bytes with the top bit set: their code has no room for the lowest
byte, and rounding leaves them to truncation.
-/

namespace HybridDifficulty.CompactForm

variable {v w t : Nat}

/-- No code has a target closer to the number, and none has a greater target as close. -/
structure IsNearest (v t : Nat) : Prop where
  closest : ∀ bits, (decode bits).overflow = false → |(t : ℤ) - v| ≤ |(target bits : ℤ) - v|
  half_up : ∀ bits, (decode bits).overflow = false → |(t : ℤ) - v| = |(target bits : ℤ) - v| →
    target bits ≤ t

theorem exists_code (hw : floor w = w) (hlt : w < 2 ^ 256) :
    ∃ bits, (decode bits).overflow = false ∧ target bits = w := by
  refine ⟨encode w, ?_, ?_⟩
  · rw [decode_encode hlt]
  · rw [target_encode hlt, hw]

theorem le_floor_or_floor_add_le (hw : floor w = w) (v : Nat) :
    w ≤ floor v ∨ floor v + unit v ≤ w := by
  rcases Nat.lt_or_ge v w with h | h
  · exact .inr (floor_add_le_of_lt h hw)
  · left
    calc w = floor w := hw.symm
      _ ≤ floor v := floor_mono h

theorem isNearest_of_floor (h : ∀ w < 2 ^ 256, w ≤ floor v ∨ floor v + unit v ≤ w →
    |(t : ℤ) - v| ≤ |(w : ℤ) - v| ∧ (|(t : ℤ) - v| = |(w : ℤ) - v| → w ≤ t)) : IsNearest v t := by
  have hcode : ∀ bits, (decode bits).overflow = false →
      |(t : ℤ) - v| ≤ |(target bits : ℤ) - v| ∧
      (|(t : ℤ) - v| = |(target bits : ℤ) - v| → target bits ≤ t) := by
    intro bits hbits
    have hgrid := floor_target_of_not_overflow hbits
    exact h _ (target_lt_two_pow bits) (le_floor_or_floor_add_le hgrid v)
  exact ⟨fun bits hbits ↦ (hcode bits hbits).1, fun bits hbits ↦ (hcode bits hbits).2⟩

/-- Below the middle of two neighbours the lower one is nearest, and also where the upper one has no
code. -/
theorem isNearest_floor (h : 2 * (v % unit v) < unit v ∨ 2 ^ 256 ≤ floor v + unit v) :
    IsNearest v (floor v) := by
  have hsplit := floor_add_mod v
  apply isNearest_of_floor
  intro w hlt hw
  simp only [Int.abs_eq_natAbs]
  omega

theorem isNearest_floor_add (h : unit v ≤ 2 * (v % unit v)) : IsNearest v (floor v + unit v) := by
  have hsplit := floor_add_mod v
  have hbetween := lt_floor_add v
  apply isNearest_of_floor
  intro w hlt hw
  simp only [Int.abs_eq_natAbs]
  omega

theorem unit_of_three_bytes (h : 2 ^ 23 ≤ v) (hlt : v < 2 ^ 24) : unit v = 256 := by
  have hle : 256 ^ 1 ≤ unit v := pow_le_unit (k := 0) h
  have hdvd : unit v ∣ 256 ^ 1 := unit_dvd (hlt.trans (by decide))
  exact Nat.le_antisymm (Nat.le_of_dvd (by decide) hdvd) hle

/-- Rounding is exact to half a unit everywhere but in the upper halves of the units of three
bytes. -/
theorem isNearest_encodeRounded_iff (h : v < 2 ^ 256) :
    IsNearest v (target (encodeRounded v)) ↔ ¬(2 ^ 23 ≤ v ∧ v < 2 ^ 24 ∧ 128 ≤ v % 256) := by
  have hsplit := floor_add_mod v
  rw [target_encodeRounded h]
  constructor
  · rintro hnearest ⟨h23, h24, hhalf⟩
    have hunit := unit_of_three_bytes h23 h24
    rw [nearest, if_neg (by omega)] at hnearest
    -- the next target above is as near or nearer
    obtain ⟨bits, hbits, htarget⟩ := exists_code (floor_floor_add v) (by omega)
    have hclosest := hnearest.closest bits hbits
    have htie := hnearest.half_up bits hbits
    rw [htarget] at hclosest htie
    rw [hunit] at hsplit hclosest htie
    simp only [Int.abs_eq_natAbs] at hclosest htie
    omega
  · intro hout
    rw [nearest]
    split
    · next hup => exact isNearest_floor_add hup.2.1
    · next hdown =>
      apply isNearest_floor
      rcases Nat.lt_or_ge v (2 ^ 23) with h23 | h23
      · rw [unit_eq_one h23]
        omega
      · rcases Nat.lt_or_ge v (2 ^ 24) with h24 | h24
        · rw [unit_of_three_bytes h23 h24]
          omega
        · omega

/-- The greatest number would go up to one that has no code. -/
theorem isNearest_encodeRounded_iff_at_top : 2 ^ 256 - 1 < 2 ^ 256 ∧
    IsNearest (2 ^ 256 - 1) (target (encodeRounded (2 ^ 256 - 1))) := by
  have hlt : 2 ^ 256 - 1 < 2 ^ 256 := by decide
  refine ⟨hlt, (isNearest_encodeRounded_iff hlt).2 ?_⟩
  rintro ⟨-, h, -⟩
  exact absurd h (by decide)

/-- One below a target that has a code, rounding goes down to the target before that. -/
theorem not_isNearest_encodeRounded :
    encodeRounded 0x8000ff = 0x04008000 ∧ target 0x04008000 = 0x800000 ∧
    (decode 0x04008001).overflow = false ∧ target 0x04008001 = 0x800100 ∧
    ¬IsNearest 0x8000ff (target (encodeRounded 0x8000ff)) := by
  have hbits : (decode 0x04008001).overflow = false := by decide
  refine ⟨by decide, by decide, hbits, by decide, fun h ↦ ?_⟩
  exact absurd (h.closest 0x04008001 hbits) (by decide)

end HybridDifficulty.CompactForm
