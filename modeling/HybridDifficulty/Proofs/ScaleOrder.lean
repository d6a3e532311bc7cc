import HybridDifficulty.Proofs.CompactCodec
import HybridDifficulty.Proofs.ScheduledScale
import HybridDifficulty.Proofs.WindowedAverage

/-!
The scalings of the strategies rise with the time that they are given, across every change of
formula: the band of small errors of the moving average, the whole timespans and the sign of a
schedule's lateness. Capping and encoding keep the order of numbers that are not zero.
-/

namespace HybridDifficulty

variable {v v' limit a num den num' den' : Nat} {scaled scaled' : Option Nat}

theorem mul_div_le_mul_div (hden : 0 < den) (hden' : 0 < den') (h : num * den' ≤ num' * den) :
    a * num / den ≤ a * num' / den' := by
  rw [Nat.le_div_iff_mul_le hden']
  apply Nat.le_of_mul_le_mul_right _ hden
  calc a * num / den * den' * den = a * num / den * den * den' := by ring
    _ ≤ a * num * den' := Nat.mul_le_mul_right _ (Nat.div_mul_le_self _ _)
    _ = a * (num * den') := by ring
    _ ≤ a * (num' * den) := Nat.mul_le_mul_left _ h
    _ = a * num' * den := by ring

/-- The ceiling that stands in for a result that is too easy is not above any other one that is. -/
theorem capAt_mono (h : scaled.Rel (· ≤ ·) scaled') (h0 : scaled ≠ some 0) :
    capAt limit scaled ≤ capAt limit scaled' := by
  cases h with
  | none => exact le_rfl
  | @some v v' hle =>
    have hv : v ≠ 0 := fun hv ↦ h0 (congrArg some hv)
    simp only [capAt]
    split <;> split <;> omega

theorem target_encodeBy_mono (rounding : Bool) (h : v ≤ v') (hlt : v' < 2 ^ 256) :
    CompactForm.target (encodeBy rounding v) ≤ CompactForm.target (encodeBy rounding v') := by
  have hv : v < 2 ^ 256 := h.trans_lt hlt
  cases rounding with
  | false =>
    rw [encodeBy_false, encodeBy_false, CompactForm.target_encode hv, CompactForm.target_encode hlt]
    exact CompactForm.floor_mono h
  | true =>
    rw [encodeBy_true, encodeBy_true, CompactForm.target_encodeRounded hv,
      CompactForm.target_encodeRounded hlt]
    exact CompactForm.nearest_mono h

theorem rescale?_mono {target : Nat} {num num' den : Int} (h0 : 0 ≤ num) (h : num ≤ num') :
    (rescale? target num den).Rel (· ≤ ·) (rescale? target num' den) := by
  by_cases hden : 0 < den
  · rw [rescale?_of_pos h0 hden, rescale?_of_pos (h0.trans h) hden]
    exact .some (Nat.div_le_div_right (Nat.mul_le_mul_left _ (Int.toNat_le_toNat h)))
  · rw [rescale?, rescale?, if_pos (.inr (not_lt.1 hden)), if_pos (.inr (not_lt.1 hden))]
    exact .none

namespace MovingAverage.Plan

theorem scaledAverage_mono {plan : Plan} (hlength : 1 ≤ plan.length) (hspacing : 0 < plan.spacing)
    (limit : Nat) (samples : List Block) {elapsed elapsed' : Int} (h : elapsed ≤ elapsed') :
    plan.scaledAverage limit samples elapsed ≤ plan.scaledAverage limit samples elapsed' := by
  have hideal : 0 < plan.length * plan.spacing := Int.mul_pos (by omega) hspacing
  simp only [scaledAverage]
  generalize plan.length * plan.spacing = ideal at hideal
  have hfour : (4 * ideal).toNat = 4 * ideal.toNat := by omega
  by_cases hin : plan.isTagged ∧ ideal * 85 / 100 < elapsed ∧ elapsed < ideal * 115 / 100
  · rw [if_pos hin, if_pos hin]
    split
    · exact Nat.div_le_div_right (Nat.mul_le_mul_left _ (by omega))
    · next hout =>
      -- the band ends above the ideal time, where its own ratio is the smaller one
      have hupper : ideal * 115 / 100 ≤ elapsed' :=
        not_lt.1 fun hlt ↦ hout ⟨hin.1, hin.2.1.trans_le h, hlt⟩
      refine mul_div_le_mul_div (by omega) (by omega) ?_
      calc (max (elapsed + 3 * ideal) 1).toNat * ideal.toNat
          ≤ (max elapsed' 1).toNat * 4 * ideal.toNat := Nat.mul_le_mul_right _ (by omega)
        _ = (max elapsed' 1).toNat * (4 * ideal).toNat := by rw [hfour, Nat.mul_assoc]
  · rw [if_neg hin, if_neg hin]
    split
    · next hin' =>
      -- it begins below the ideal time, where its own ratio is the greater one
      have hlower : elapsed ≤ ideal * 85 / 100 :=
        not_lt.1 fun hlt ↦ hin ⟨hin'.1, hlt, h.trans_lt hin'.2.2⟩
      refine mul_div_le_mul_div (by omega) (by omega) ?_
      calc (max elapsed 1).toNat * (4 * ideal).toNat
          = (max elapsed 1).toNat * 4 * ideal.toNat := by rw [hfour, Nat.mul_assoc]
        _ ≤ (max (elapsed' + 3 * ideal) 1).toNat * ideal.toNat := Nat.mul_le_mul_right _ (by omega)
    · exact Nat.div_le_div_right (Nat.mul_le_mul_left _ (by omega))

end MovingAverage.Plan

namespace Exponential

variable {d r : Nat}

/-- `2 ^ (n / d)` in parts of the cubic's denominator. -/
def power (d n : Nat) : Nat := 2 ^ (n / d) * cubicNum (n % d) d

theorem cubicNum_mono {r r' : Nat} (h : r ≤ r') (d : Nat) : cubicNum r d ≤ cubicNum r' d := by
  simp only [cubicNum]
  gcongr

theorem cubicNum_self (d : Nat) : cubicNum d d = 2 * cubicNum 0 d := by
  simp only [cubicNum]
  ring

theorem power_le_succ (h0 : 0 < d) (n : Nat) : power d n ≤ power d (n + 1) := by
  have hsplit := Nat.mod_add_div n d
  have hlt := Nat.mod_lt n h0
  by_cases hwhole : n % d + 1 = d
  · -- the cubic reaches two where a whole timespan begins
    obtain ⟨hdiv, hmod⟩ : (n + 1) / d = n / d + 1 ∧ (n + 1) % d = 0 := by
      rw [Nat.div_mod_unique h0, Nat.mul_succ]
      omega
    calc power d n ≤ 2 ^ (n / d) * cubicNum d d :=
      Nat.mul_le_mul_left _ (cubicNum_mono (Nat.mod_lt n h0).le d)
      _ = 2 ^ (n / d + 1) * cubicNum 0 d := by rw [cubicNum_self, Nat.pow_succ]; ring
      _ = power d (n + 1) := by rw [power, hdiv, hmod]
  · obtain ⟨hdiv, hmod⟩ : (n + 1) / d = n / d ∧ (n + 1) % d = n % d + 1 := by
      rw [Nat.div_mod_unique h0]
      omega
    rw [power, power, hdiv, hmod]
    exact Nat.mul_le_mul_left _ (cubicNum_mono (Nat.le_succ _) d)

theorem power_mono (h0 : 0 < d) : Monotone (power d) := monotone_nat_of_le_succ (power_le_succ h0)

theorem cubicDen_le_power (d n : Nat) : cubicDen d ≤ power d n :=
  (cubicDen_le (n % d) d).trans (Nat.le_mul_of_pos_left _ (Nat.two_pow_pos _))

theorem exactScale_mono {target : Nat} {late late' timespan : Int} (h0 : 0 < timespan)
    (h : late ≤ late') :
    exactScale target late timespan ≤ exactScale target late' timespan := by
  have hd : 0 < timespan.toNat := Int.pos_iff_toNat_pos.1 h0
  have hden := cubicDen_pos hd
  change (if 0 ≤ late then target * power timespan.toNat late.natAbs / cubicDen timespan.toNat
      else target * cubicDen timespan.toNat / power timespan.toNat late.natAbs) ≤
    if 0 ≤ late' then target * power timespan.toNat late'.natAbs / cubicDen timespan.toNat
      else target * cubicDen timespan.toNat / power timespan.toNat late'.natAbs
  have hpower (n : Nat) : 0 < power timespan.toNat n := hden.trans_le (cubicDen_le_power _ n)
  rcases le_or_gt 0 late with hlate | hlate
  · rw [if_pos hlate, if_pos (hlate.trans h)]
    exact Nat.div_le_div_right (Nat.mul_le_mul_left _ (power_mono hd (by omega)))
  · rw [if_neg hlate.not_ge]
    split
    · -- from less than the target itself to more
      have hle := Nat.mul_le_mul (cubicDen_le_power timespan.toNat late'.natAbs)
        (cubicDen_le_power timespan.toNat late.natAbs)
      exact mul_div_le_mul_div (hpower _) hden hle
    · exact Nat.div_le_div_left (power_mono hd (by omega)) (hpower _)

end Exponential

end HybridDifficulty
