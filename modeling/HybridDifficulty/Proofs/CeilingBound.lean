import HybridDifficulty.Proofs.CompactCodec
import HybridDifficulty.Proofs.RequirementOutcome

/-!
When the bits of a requirement are valid and no easier than a ceiling: capping keeps the target
below, and encoding gives it back unless rounding takes the ceiling itself up.
-/

namespace HybridDifficulty

namespace CompactForm

variable {v limit : Nat} {bits : UInt32}

/-- The bits stand for a target that is valid and no easier than the limit. -/
def Within (limit : Nat) (bits : UInt32) : Prop :=
  (decode bits).isValid = true ∧ target bits ≤ limit

instance : Decidable (Within limit bits) := inferInstanceAs (Decidable (_ ∧ _))

theorem within_of_decode (h : decode bits = ⟨v, false, false⟩) (h0 : 0 < v) (hv : v ≤ limit) :
    Within limit bits := by
  refine ⟨?_, ?_⟩
  · rw [h]
    exact bne_iff_ne.2 (Nat.ne_of_gt h0)
  · rwa [target, h]

theorem within_encode (hl : limit < 2 ^ 256) (h0 : 0 < v) (hv : v ≤ limit) :
    Within limit (encode v) :=
  within_of_decode (decode_encode (hv.trans_lt hl)) (floor_pos h0) ((floor_le v).trans hv)

theorem within_encodeRounded (hl : limit < 2 ^ 256) (hn : nearest limit ≤ limit) (h0 : 0 < v)
    (hv : v ≤ limit) :
    Within limit (encodeRounded v) :=
  within_of_decode (decode_encodeRounded (hv.trans_lt hl))
    ((floor_pos h0).trans_le (floor_le_nearest v))
    ((nearest_mono hv).trans hn)

theorem encode_ne_zero (hv : v < 2 ^ 256) (h0 : 0 < v) : encode v ≠ 0 := by
  intro h
  have hvalid := (within_encode hv h0 le_rfl).1
  rw [h] at hvalid
  exact absurd hvalid (by decide)

theorem unit_lt_floor (h : 2 ≤ v) : unit v < floor v := by
  by_cases hv : v < 2 ^ 23
  · rw [unit_eq_one hv, floor_eq_of_lt hv]
    exact h
  · have hq := le_div_unit (Nat.not_lt.1 hv)
    have hu := unit_pos v
    calc unit v < 2 * unit v := by omega
      _ ≤ v / unit v * unit v := Nat.mul_le_mul_right _ (by omega)

theorem within_marker (hv : v < 2 ^ 256) (h : 2 ≤ v) : Within v (marker v) :=
  within_of_decode (decode_marker hv (by omega)) (Nat.sub_pos_of_lt (unit_lt_floor h))
    ((Nat.sub_le _ _).trans (floor_le v))

end CompactForm

open CompactForm

variable {rules : Rules} {s : Series} {bits : UInt32}

namespace Rules

theorem limit_lt (rules : Rules) (s : Series) : rules.limit s < 2 ^ 256 :=
  (rules.ceilings.get s.governor).2

theorem ceiling_lt (rules : Rules) (tag : Option Algorithm) : rules.ceiling tag < 2 ^ 256 :=
  (rules.ceilings.get (tag.getD .xevan)).2

theorem Capped.within (h : rules.Capped s bits) (hn : nearest (rules.limit s) ≤ rules.limit s)
    (h0 : 0 < rules.limit s) : Within (rules.limit s) bits := by
  obtain ⟨rounding, scaled, rfl⟩ := h
  have hpos := capAt_pos h0 scaled
  have hle := capAt_le (rules.limit s) scaled
  cases rounding with
  | false =>
    rw [encodeBy_false]
    exact within_encode (rules.limit_lt s) hpos hle
  | true =>
    rw [encodeBy_true]
    exact within_encodeRounded (rules.limit_lt s) hn hpos hle

end Rules

end HybridDifficulty
