import HybridDifficulty.CompactForm
import Mathlib.Tactic.Ring

/-!
What the compact form can stand for. At each number the format has a unit, the distance of its
neighbours there; truncation goes down to a multiple of it, and rounding goes to the nearest one.
-/

namespace HybridDifficulty.CompactForm

variable {v w n k s m : Nat}

theorem sizeFor_le_succ_iff : sizeFor v ≤ k + 1 ↔ v < 2 ^ (8 * k + 7) := by
  unfold sizeFor
  split
  · next h => exact ⟨fun _ ↦ h ▸ Nat.two_pow_pos _, fun _ ↦ Nat.zero_le _⟩
  · next h =>
    rw [← Nat.log2_lt h]
    omega

theorem sizeFor_mono (h : v ≤ w) : sizeFor v ≤ sizeFor w := by
  by_cases hw : w = 0
  · subst hw
    rw [Nat.le_zero.1 h]
  · obtain ⟨k, hk⟩ : ∃ k, sizeFor w = k + 1 := ⟨_, if_neg hw⟩
    rw [hk, sizeFor_le_succ_iff]
    exact h.trans_lt (sizeFor_le_succ_iff.1 hk.le)

/-- The distance of neighbouring targets at a number. -/
def unit (v : Nat) : Nat := 256 ^ (sizeFor v - 3)

theorem unit_pos (v : Nat) : 0 < unit v := Nat.pow_pos (by decide)

theorem two_pow_mul_pow (k : Nat) : 2 ^ 23 * 256 ^ k = 2 ^ (8 * (k + 2) + 7) := by
  rw [show (256 : Nat) = 2 ^ 8 from rfl, ← Nat.pow_mul, ← Nat.pow_add]
  congr 1
  omega

theorem sizeFor_le_add_three_iff : sizeFor v ≤ k + 3 ↔ v < 2 ^ 23 * 256 ^ k := by
  rw [two_pow_mul_pow, ← sizeFor_le_succ_iff]

theorem unit_dvd (h : n < 2 ^ 23 * 256 ^ k) : unit n ∣ 256 ^ k :=
  pow_dvd_pow 256 (Nat.sub_le_of_le_add (sizeFor_le_add_three_iff.2 h))

theorem lt_mul_unit (v : Nat) : v < 2 ^ 23 * unit v := sizeFor_le_add_three_iff.1 (by omega)

theorem unit_eq_one (h : v < 2 ^ 23) : unit v = 1 := Nat.dvd_one.1 (unit_dvd (k := 0) h)

theorem mul_unit_le (h : 2 ^ 23 ≤ v) : 2 ^ 15 * unit v ≤ v := by
  have hs : ¬ sizeFor v ≤ 0 + 3 := fun hs ↦ (sizeFor_le_add_three_iff.1 hs).not_ge h
  obtain ⟨k, hk⟩ := Nat.exists_eq_add_of_lt (Nat.lt_of_not_le hs)
  have hv : 2 ^ 23 * 256 ^ k ≤ v := Nat.not_lt.1 fun hv ↦ by
    have := sizeFor_le_add_three_iff.2 hv
    omega
  calc 2 ^ 15 * unit v = 2 ^ 15 * 256 ^ (k + 1) := by rw [unit, hk]; congr 2; omega
    _ = 2 ^ 23 * 256 ^ k := by ring
    _ ≤ v := hv

theorem three_lt_sizeFor (h : 2 ^ 23 ≤ v) : 3 < sizeFor v :=
  Nat.lt_of_not_le fun hs ↦ (sizeFor_le_add_three_iff (k := 0).1 hs).not_ge h

theorem pow_le_unit (h : 2 ^ 23 * 256 ^ k ≤ v) : 256 ^ (k + 1) ≤ unit v := by
  have hs : ¬ sizeFor v ≤ k + 3 := fun hs ↦ (sizeFor_le_add_three_iff.1 hs).not_ge h
  exact Nat.pow_le_pow_right (by decide) (by omega)

/-- The greatest target that is not above a number. -/
def floor (v : Nat) : Nat := v / unit v * unit v

theorem floor_le (v : Nat) : floor v ≤ v := Nat.div_mul_le_self v _

theorem floor_add_mod (v : Nat) : floor v + v % unit v = v := Nat.div_add_mod' v (unit v)

theorem lt_floor_add (v : Nat) : v < floor v + unit v := by
  have h := Nat.lt_mul_div_succ v (unit_pos v)
  rwa [Nat.mul_succ, Nat.mul_comm] at h

theorem floor_add_le (v : Nat) : floor v + unit v ≤ 2 ^ 23 * unit v := by
  have h : v / unit v < 2 ^ 23 := (Nat.div_lt_iff_lt_mul (unit_pos v)).2 (lt_mul_unit v)
  calc floor v + unit v = (v / unit v + 1) * unit v := by rw [floor, Nat.succ_mul]
    _ ≤ 2 ^ 23 * unit v := Nat.mul_le_mul_right _ h

theorem floor_eq_of_dvd (h : unit v ∣ v) : floor v = v := Nat.div_mul_cancel h

theorem floor_eq_of_lt (h : v < 2 ^ 23) : floor v = v :=
  floor_eq_of_dvd (by rw [unit_eq_one h]; exact Nat.one_dvd v)

theorem le_div_unit (h : 2 ^ 23 ≤ v) : 2 ^ 15 ≤ v / unit v :=
  (Nat.le_div_iff_mul_le (unit_pos v)).2 (mul_unit_le h)

theorem floor_pos (h : 0 < v) : 0 < floor v := by
  by_cases hv : v < 2 ^ 23
  · rwa [floor_eq_of_lt hv]
  · have hq := le_div_unit (Nat.not_lt.1 hv)
    exact Nat.mul_pos (by omega) (unit_pos v)

theorem unit_dvd_unit (h : v ≤ w) : unit v ∣ unit w :=
  pow_dvd_pow 256 (by have := sizeFor_mono h; omega)

theorem floor_mono (h : v ≤ w) : floor v ≤ floor w := by
  by_cases hu : unit v = unit w
  · rw [floor, floor, hu]
    exact Nat.mul_le_mul_right _ (Nat.div_le_div_right h)
  · -- the multiples of the smaller unit all lie below those that the greater number can have
    obtain ⟨c, hc⟩ := unit_dvd_unit h
    have hw : ¬ w < 2 ^ 23 := fun hw ↦ hu (by rw [unit_eq_one hw, unit_eq_one (h.trans_lt hw)])
    have hlt : sizeFor v - 3 < sizeFor w - 3 := by
      have hs := sizeFor_mono h
      have hne : sizeFor v - 3 ≠ sizeFor w - 3 := fun he ↦ hu (by rw [unit, unit, he])
      omega
    calc floor v ≤ v := floor_le v
      _ ≤ 2 ^ 23 * unit v := (lt_mul_unit v).le
      _ = 2 ^ 15 * 256 ^ (sizeFor v - 3 + 1) := by rw [unit, Nat.pow_succ]; ring
      _ ≤ 2 ^ 15 * unit w := Nat.mul_le_mul_left _ (Nat.pow_le_pow_right (by decide) hlt)
      _ ≤ floor w := Nat.mul_le_mul_right _ (le_div_unit (Nat.not_lt.1 hw))

/-- The next target above truncation is one that the format has. -/
theorem floor_floor_add (v : Nat) : floor (floor v + unit v) = floor v + unit v := by
  apply floor_eq_of_dvd
  have hdvd : unit v ∣ floor v + unit v := Nat.dvd_add (Nat.dvd_mul_left _ _) (Nat.dvd_refl _)
  rcases (floor_add_le v).lt_or_eq with h | h
  · exact (unit_dvd h).trans hdvd
  · have hsucc : 256 ^ (sizeFor v - 3 + 1) = unit v * 256 := Nat.pow_succ _ _
    have hlt : 2 ^ 23 * unit v < 2 ^ 23 * 256 ^ (sizeFor v - 3 + 1) := by
      have := unit_pos v
      omega
    rw [h]
    exact (unit_dvd hlt).trans ⟨2 ^ 15, by rw [hsucc]; ring⟩

theorem unit_eq_of_lt (h : v ≤ w) (hw : w < floor v + unit v) : unit w = unit v :=
  Nat.dvd_antisymm (unit_dvd (hw.trans_le (floor_add_le v))) (unit_dvd_unit h)

theorem floor_eq_of_lt_add (h : v ≤ w) (hw : w < floor v + unit v) : floor w = floor v := by
  have hu := unit_eq_of_lt h hw
  have hq : w / unit v = v / unit v := by
    apply Nat.le_antisymm _ (Nat.div_le_div_right h)
    apply Nat.le_of_lt_succ
    rw [Nat.div_lt_iff_lt_mul (unit_pos v), Nat.succ_mul]
    exact hw
  rw [floor, floor, hu, hq]

theorem floor_floor (v : Nat) : floor (floor v) = floor v :=
  floor_eq_of_dvd ((unit_dvd_unit (floor_le v)).trans (Nat.dvd_mul_left _ _))

/-- No target lies strictly between neighbours. -/
theorem floor_add_le_of_lt (hv : v < w) (hw : floor w = w) : floor v + unit v ≤ w := by
  refine Nat.not_lt.1 fun h ↦ ?_
  have hfloor := floor_eq_of_lt_add hv.le h
  have hle := floor_le v
  omega

/-- The nearest target, half a unit going up. Below 2 ^ 24 nothing goes up, and nothing goes up to
2 ^ 256. -/
def nearest (v : Nat) : Nat :=
  if 2 ^ 24 ≤ v ∧ unit v ≤ 2 * (v % unit v) ∧ floor v + unit v < 2 ^ 256 then floor v + unit v
  else floor v

theorem floor_le_nearest (v : Nat) : floor v ≤ nearest v := by
  rw [nearest]
  split
  · exact Nat.le_add_right _ _
  · exact le_rfl

theorem nearest_le_add (v : Nat) : nearest v ≤ floor v + unit v := by
  rw [nearest]
  split
  · exact le_rfl
  · exact Nat.le_add_right _ _

theorem nearest_mono (h : v ≤ w) : nearest v ≤ nearest w := by
  by_cases hw : w < floor v + unit v
  · -- one pair of neighbours: the greater number goes up where the smaller one does
    have hu := unit_eq_of_lt h hw
    have hf := floor_eq_of_lt_add h hw
    have hmod : v % unit v ≤ w % unit v := by
      have hv := floor_add_mod v
      have hw' := floor_add_mod w
      rw [hu, hf] at hw'
      omega
    simp only [nearest, hu, hf]
    split
    · next hv => rw [if_pos ⟨hv.1.trans h, by omega, hv.2.2⟩]
    · split
      · exact Nat.le_add_right _ _
      · exact le_rfl
  · calc nearest v ≤ floor v + unit v := nearest_le_add v
      _ = floor (floor v + unit v) := (floor_floor_add v).symm
      _ ≤ floor w := floor_mono (Nat.not_lt.1 hw)
      _ ≤ nearest w := floor_le_nearest w

theorem le_of_lt_nearest (h : v < nearest v) : 2 ^ 24 ≤ v := by
  rw [nearest] at h
  split at h
  · next hv => exact hv.1
  · exact absurd h (floor_le v).not_gt

theorem nearest_eq_of_floor_eq (h : floor v = v) : nearest v = v := by
  have hmod : v % unit v = 0 := by
    have hv := floor_add_mod v
    omega
  have hu := unit_pos v
  rw [nearest, if_neg (by omega), h]

theorem floor_nearest (v : Nat) : floor (nearest v) = nearest v := by
  rw [nearest]
  split
  · exact floor_floor_add v
  · exact floor_floor v

theorem nearest_lt (h : v < 2 ^ 256) : nearest v < 2 ^ 256 := by
  rw [nearest]
  split
  · next hup => exact hup.2.2
  · exact (floor_le v).trans_lt h

/-- Rounding finds a target again from a number that is at most half a unit below it. -/
theorem nearest_eq_of_close (hw : floor w = w) (hlt : w < 2 ^ 256) (hv : v ≤ w) (h24 : 2 ^ 24 ≤ v)
    (hclose : 2 * (w - v) ≤ unit v) : nearest v = w := by
  rcases hv.eq_or_lt with rfl | hv
  · exact nearest_eq_of_floor_eq hw
  · have hpos := unit_pos v
    have hnext := floor_add_le_of_lt hv hw
    have hbetween := lt_floor_add v
    have hup : floor v + unit v = w := by
      refine le_antisymm hnext (Nat.not_lt.1 fun h ↦ ?_)
      -- the neighbour after the next is a whole unit further up
      have hafter := floor_add_le_of_lt h hw
      have hunit := Nat.le_of_dvd (unit_pos _) (unit_dvd_unit hbetween.le)
      rw [floor_floor_add] at hafter
      omega
    have hmod : unit v ≤ 2 * (v % unit v) := by
      have hsplit := floor_add_mod v
      omega
    rw [nearest, if_pos ⟨h24, hmod, hup ▸ hlt⟩, hup]

end HybridDifficulty.CompactForm
