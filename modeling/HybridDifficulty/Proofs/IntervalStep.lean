import HybridDifficulty.Proofs.CeilingBound
import HybridDifficulty.Proofs.TreeGrowth
import HybridDifficulty.Rules.Presets
import HybridDifficulty.Strategy.Periodic

/-!
One step of periodic retargeting, as a function of the time at which the interval began. It never
goes up by more than a factor of four or above the ceiling, and keeps the order of the times. It has
no guard against zero: the step of a small target can round to zero, which no block can meet.
-/

namespace HybridDifficulty.Periodic

open CompactForm

variable {rules : Rules} {tip : Block} {span : Nat} {elapsed elapsed' start start' : Int}

/-- The time that counts for an interval, within a factor of four of the time planned. -/
def counted (span : Nat) (elapsed : Int) : Nat := max (span / 4) (min elapsed.toNat (4 * span))

theorem counted_mono (h : elapsed ≤ elapsed') : counted span elapsed ≤ counted span elapsed' := by
  have hnat := Int.toNat_le_toNat h
  simp only [counted]
  omega

theorem quarter_le_counted (span : Nat) (elapsed : Int) : span / 4 ≤ counted span elapsed :=
  Nat.le_max_left _ _

theorem counted_le (span : Nat) (elapsed : Int) : counted span elapsed ≤ 4 * span := by
  simp only [counted]
  omega

/-- The target after an interval that began at `start`, before the ceiling cuts it off. -/
def stepped (rules : Rules) (tip : Block) (start : Int) : Nat :=
  target tip.bits * counted rules.timespan.toNat (tip.time - start) / rules.timespan.toNat

theorem stepped_anti (h : start ≤ start') : stepped rules tip start' ≤ stepped rules tip start := by
  have hcounted : counted rules.timespan.toNat (tip.time - start') ≤
      counted rules.timespan.toNat (tip.time - start) :=
    counted_mono (Int.sub_le_sub_left h _)
  exact Nat.div_le_div_right (Nat.mul_le_mul_left _ hcounted)

theorem stepped_on_time (ht : 0 < rules.timespan) (h : tip.time - start = rules.timespan) :
    stepped rules tip start = target tip.bits := by
  have hcounted : counted rules.timespan.toNat (tip.time - start) = rules.timespan.toNat := by
    rw [h, counted]
    omega
  rw [stepped, hcounted]
  exact Nat.mul_div_cancel _ (Int.pos_iff_toNat_pos.1 ht)

theorem stepped_le (rules : Rules) (tip : Block) (start : Int) :
    stepped rules tip start ≤ 4 * target tip.bits := by
  apply Nat.div_le_of_le_mul
  calc target tip.bits * counted rules.timespan.toNat (tip.time - start)
      ≤ target tip.bits * (4 * rules.timespan.toNat) := Nat.mul_le_mul_left _ (counted_le _ _)
    _ = rules.timespan.toNat * (4 * target tip.bits) := by ring

theorem quarter_le_stepped (rules : Rules) (tip : Block) (start : Int) :
    target tip.bits * (rules.timespan.toNat / 4) / rules.timespan.toNat ≤ stepped rules tip start :=
  Nat.div_le_div_right (Nat.mul_le_mul_left _ (quarter_le_counted _ _))

theorem retarget_eq (ht : 0 < rules.timespan) (hc : rules.atCeiling = false) (tip : Block)
    (start : Int) :
    retarget rules tip start =
      encode (min (stepped rules tip start) (rules.ceiling (some .xevan))) := by
  have hguard : ¬(rules.atCeiling = true ∨ rules.timespan ≤ 0) := by
    rw [hc]
    simpa using ht
  have hquarter : rules.timespan.tdiv 4 = rules.timespan / 4 := Int.tdiv_eq_ediv_of_nonneg ht.le
  have hcounted :
      (max (rules.timespan.tdiv 4) (min (tip.time - start) (rules.timespan * 4))).toNat =
      counted rules.timespan.toNat (tip.time - start) := by
    rw [hquarter, counted]
    omega
  have hnonneg : 0 ≤ max (rules.timespan.tdiv 4) (min (tip.time - start) (rules.timespan * 4)) := by
    omega
  rw [retarget, if_neg hguard]
  simp only [rescale?_of_pos hnonneg ht, hcounted]
  rw [← stepped, ← min_def]

theorem decode_retarget (ht : 0 < rules.timespan) (hc : rules.atCeiling = false) (tip : Block)
    (start : Int) :
    decode (retarget rules tip start) =
      ⟨floor (min (stepped rules tip start) (rules.ceiling (some .xevan))), false, false⟩ := by
  rw [retarget_eq ht hc]
  exact decode_encode ((Nat.min_le_right _ _).trans_lt (rules.ceiling_lt _))

theorem target_retarget (ht : 0 < rules.timespan) (hc : rules.atCeiling = false) (tip : Block)
    (start : Int) :
    target (retarget rules tip start) =
      floor (min (stepped rules tip start) (rules.ceiling (some .xevan))) := by
  rw [target, decode_retarget ht hc]

/-- What holds of a step from a tip, whenever its interval began. -/
structure StepLaws (rules : Rules) (tip : Block) : Prop where
  unflagged : ∀ start, (decode (retarget rules tip start)).negative = false ∧
    (decode (retarget rules tip start)).overflow = false
  antitone : ∀ start start', start ≤ start' →
    target (retarget rules tip start') ≤ target (retarget rules tip start)
  on_time : ∀ start, tip.time - start = rules.timespan → retarget rules tip start = tip.bits
  at_most : ∀ start, target (retarget rules tip start) ≤
    min (4 * target tip.bits) (rules.ceiling (some .xevan))
  at_least :
    ∀ start, target (encode (target tip.bits * (rules.timespan.toNat / 4) / rules.timespan.toNat)) ≤
    target (retarget rules tip start)

theorem stepLaws (hf : rules.fault? = none) (hc : rules.atCeiling = false)
    (hbits : encode (target tip.bits) = tip.bits)
    (hle : target tip.bits ≤ rules.ceiling (some .xevan)) :
    StepLaws rules tip := by
  obtain ⟨-, ht, -⟩ := Rules.of_fault?_eq_none hf
  constructor
  case unflagged =>
    intro start
    rw [decode_retarget ht hc]
    exact ⟨rfl, rfl⟩
  case antitone =>
    intro start start' h
    rw [target_retarget ht hc, target_retarget ht hc]
    exact floor_mono (min_le_min_right _ (stepped_anti h))
  case on_time =>
    intro start h
    rw [retarget_eq ht hc, stepped_on_time ht h, Nat.min_eq_left hle, hbits]
  case at_most =>
    intro start
    rw [target_retarget ht hc]
    exact (floor_le _).trans (min_le_min_right _ (stepped_le rules tip start))
  case at_least =>
    intro start
    have hquarter : target tip.bits * (rules.timespan.toNat / 4) / rules.timespan.toNat ≤
        target tip.bits := by
      apply Nat.div_le_of_le_mul
      rw [Nat.mul_comm]
      exact Nat.mul_le_mul_right _ (Nat.div_le_self _ 4)
    rw [target_retarget ht hc, target_encode (hquarter.trans_lt (target_lt_two_pow _))]
    exact floor_mono (Nat.le_min.2 ⟨quarter_le_stepped rules tip start, hquarter.trans hle⟩)

/-- A tip from which four times the target is above the ceiling. -/
theorem stepLaws_on_main :
    let tip := BlockTree.numberedBlock (Algorithm.version .xevan) 0x1e080000 9
    Rules.main.fault? = none ∧ Rules.main.atCeiling = false ∧ encode (target tip.bits) = tip.bits ∧
      target tip.bits ≤ Rules.main.ceiling (some .xevan) ∧
      Rules.main.ceiling (some .xevan) < 4 * target tip.bits ∧
      StepLaws .main tip := by
  intro tip
  have hf : Rules.main.fault? = none := Rules.fault?_ofNetwork .main
  have hbits : encode (target tip.bits) = tip.bits := by decide
  have hle : target tip.bits ≤ Rules.main.ceiling (some .xevan) := by decide +kernel
  exact ⟨hf, rfl, hbits, hle, by decide +kernel, stepLaws hf rfl hbits hle⟩

theorem stepped_pos_iff (ht : 0 < rules.timespan) :
    0 < stepped rules tip start ↔
      rules.timespan.toNat ≤ target tip.bits * counted rules.timespan.toNat (tip.time - start) := by
  rw [stepped, Nat.div_pos_iff]
  exact and_iff_right (Int.pos_iff_toNat_pos.1 ht)

theorem counted_of_seven_le {n : Nat} (h4 : 4 ≤ span) (h7 : 7 ≤ n) (elapsed : Int) :
    span ≤ n * counted span elapsed := by
  have hquarter := quarter_le_counted span elapsed
  calc span ≤ 7 * (span / 4) := by omega
    _ ≤ n * counted span elapsed := Nat.mul_le_mul h7 hquarter

/-- A step leads to a target that can be met exactly where the target times the time that counts is
at least one timespan. From a target of seven or more every step does, as long as the timespan is
four seconds or more. -/
theorem within_retarget_iff (hf : rules.fault? = none) (hc : rules.atCeiling = false)
    (tip : Block) :
    (∀ start, Within (rules.ceiling (some .xevan)) (retarget rules tip start) ↔
      rules.timespan.toNat ≤ target tip.bits * counted rules.timespan.toNat (tip.time - start)) ∧
    (4 ≤ rules.timespan → 7 ≤ target tip.bits → ∀ start,
      Within (rules.ceiling (some .xevan)) (retarget rules tip start)) := by
  obtain ⟨-, ht, -, -, hopen⟩ := Rules.of_fault?_eq_none hf
  have hiff : ∀ start, Within (rules.ceiling (some .xevan)) (retarget rules tip start) ↔
      rules.timespan.toNat ≤ target tip.bits * counted rules.timespan.toNat (tip.time - start) := by
    intro start
    rw [← stepped_pos_iff ht, retarget_eq ht hc]
    constructor
    · intro h
      refine Nat.pos_of_ne_zero fun hzero ↦ ?_
      rw [hzero, Nat.zero_min] at h
      exact absurd h.1 (by decide)
    · intro h
      have hpos : 0 < min (stepped rules tip start) (rules.ceiling (some .xevan)) :=
        Nat.lt_min.2 ⟨h, Rules.ceiling_pos hopen⟩
      exact within_encode (rules.ceiling_lt _) hpos (Nat.min_le_right _ _)
  refine ⟨hiff, fun h4 h7 start ↦ (hiff start).2 ?_⟩
  exact counted_of_seven_le (by omega) h7 _

/-- From a target of six an interval without any duration leads to a target of one. -/
theorem within_retarget_iff_on_main :
    let tip := BlockTree.numberedBlock (Algorithm.version .xevan) 0x01060000 9
    Rules.main.fault? = none ∧ Rules.main.atCeiling = false ∧
      retarget .main tip tip.time = 0x01010000 ∧
      Within (Rules.main.ceiling (some .xevan)) (retarget .main tip tip.time) := by
  intro tip
  have hf : Rules.main.fault? = none := Rules.fault?_ofNetwork .main
  refine ⟨hf, rfl, by decide +kernel, ((within_retarget_iff hf rfl tip).1 tip.time).2 ?_⟩
  decide +kernel

/-- From a target of three it leads to zero. -/
theorem retarget_eq_zero :
    let tip := BlockTree.numberedBlock (Algorithm.version .xevan) 0x01030000 9
    Rules.main.fault? = none ∧ Rules.main.atCeiling = false ∧
      Within (Rules.main.ceiling (some .xevan)) tip.bits ∧
      retarget .main tip tip.time = 0 ∧
      ¬Within (Rules.main.ceiling (some .xevan)) (retarget .main tip tip.time) := by
  intro tip
  have hzero : retarget .main tip tip.time = 0 := by decide +kernel
  refine ⟨Rules.fault?_ofNetwork .main, rfl, by decide +kernel, hzero, fun h ↦ ?_⟩
  rw [hzero] at h
  exact absurd h.1 (by decide)

end HybridDifficulty.Periodic
