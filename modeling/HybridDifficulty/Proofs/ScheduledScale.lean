import HybridDifficulty.Strategy.Exponential
import Mathlib.Tactic.Ring

/-!
Checked arithmetic never changes a scheduled target. Where a number on the way has more than 512
bits, the exact result has more than 256 or is zero, and capping gives the ceiling for both.
-/

namespace HybridDifficulty

namespace UInt512

variable {a b num den : UInt512} {i j n v exact limit : Nat}

theorem bound_eq : bound = 2 ^ 256 * 2 ^ 256 := by decide

theorem two_pow_le_bound (h : i ≤ 512) : 2 ^ i ≤ bound := by
  have hsplit : i = min i 256 + (i - 256) := by omega
  rw [hsplit, Nat.pow_add, bound_eq]
  apply Nat.mul_le_mul
  · exact Nat.pow_le_pow_right Nat.two_pos (Nat.min_le_right i 256)
  · exact Nat.pow_le_pow_right Nat.two_pos (by omega)

theorem bound_le_two_pow (h : 512 ≤ i) : bound ≤ 2 ^ i := by
  have hsplit : i = 256 + (i - 256) := by omega
  rw [hsplit, Nat.pow_add, bound_eq]
  exact Nat.mul_le_mul_left _ (Nat.pow_le_pow_right Nat.two_pos (by omega))

theorem two_pow_mul_le_bound (h : n ≤ 2 ^ 256) : 2 ^ 256 * n ≤ bound := by
  rw [bound_eq]
  exact Nat.mul_le_mul_left _ h

theorem mul_lt_bound {m n : Nat} (hm : m < 2 ^ 256) (hn : n ≤ 2 ^ 256) : m * n < bound := by
  rw [bound_eq]
  exact Nat.mul_lt_mul_of_lt_of_le hm hn (Nat.two_pow_pos 256)

theorem ofNat?_of_lt (h : n < bound) : ofNat? n = some ⟨n, h⟩ := dif_pos h

theorem ofNat?_cases (n : Nat) :
    (∃ a, ofNat? n = some a ∧ a.val = n) ∨ ofNat? n = none ∧ bound ≤ n := by
  by_cases h : n < bound
  · exact .inl ⟨⟨n, h⟩, ofNat?_of_lt h, rfl⟩
  · exact .inr ⟨dif_neg h, Nat.not_lt.1 h⟩

theorem exists_ofNat? (h : n < bound) : ∃ a, ofNat? n = some a ∧ a.val = n :=
  (ofNat?_cases n).resolve_right fun hn ↦ h.not_ge hn.2

theorem exists_add? (h : a.val + b.val < bound) : ∃ c, a.add? b = some c ∧ c.val = a.val + b.val :=
  exists_ofNat? h

theorem mul_lt_two_pow {m n i j : Nat} (hm : m < 2 ^ i) (hn : n < 2 ^ j) : m * n < 2 ^ (i + j) := by
  rw [Nat.pow_add]
  exact Nat.mul_lt_mul'' hm hn

theorem exists_mul? (ha : a.val < 2 ^ i) (hb : b.val < 2 ^ j) (h : i + j ≤ 512) :
    ∃ c, a.mul? b = some c ∧ c.val = a.val * b.val ∧ c.val < 2 ^ (i + j) := by
  have hlt := mul_lt_two_pow ha hb
  obtain ⟨c, hc, hval⟩ := exists_ofNat? (hlt.trans_le (two_pow_le_bound h))
  exact ⟨c, hc, hval, hval ▸ hlt⟩

theorem exists_times? (ha : a.val < 2 ^ i) (hn : n < 2 ^ j) (h : i + j ≤ 512) :
    ∃ c, a.times? n = some c ∧ c.val = a.val * n ∧ c.val < 2 ^ (i + j) := by
  obtain ⟨b, hb, rfl⟩ := exists_ofNat? (hn.trans_le (two_pow_le_bound (by omega : j ≤ 512)))
  obtain ⟨c, hc, hval⟩ := exists_mul? ha hn h
  refine ⟨c, ?_, hval⟩
  rw [times?, hb]
  exact hc

theorem pow2?_cases (e : Nat) :
    (∃ a, pow2? e = some a ∧ a.val = 2 ^ e) ∨ pow2? e = none ∧ 512 ≤ e := by
  by_cases h : e < 512
  · exact .inl ⟨_, dif_pos h, Nat.one_shiftLeft e⟩
  · exact .inr ⟨dif_neg h, Nat.not_lt.1 h⟩

/-- A checked result is the exact one, and where it is missing the exact one is zero or has more
than 256 bits. -/
def Tracks (exact : Nat) : Option UInt512 → Prop
  | some v => v.val = exact
  | none => exact = 0 ∨ 2 ^ 256 ≤ exact

theorem Tracks.capAt_eq {result : Option UInt512} (h : Tracks exact result) (hl : limit < 2 ^ 256) :
    capAt limit (result.map val) = if 0 < exact ∧ exact ≤ limit then exact else limit := by
  cases result with
  | some v =>
    obtain rfl : v.val = exact := h
    simp only [Option.map_some, capAt, Nat.pos_iff_ne_zero]
  | none =>
    have hout : ¬(0 < exact ∧ exact ≤ limit) := by
      have h : exact = 0 ∨ 2 ^ 256 ≤ exact := h
      omega
    rw [if_neg hout]
    rfl

theorem Tracks.capAt_eq_some {result : Option UInt512} (h : Tracks exact result)
    (hl : limit < 2 ^ 256) :
    capAt limit (result.map val) = capAt limit (some exact) := by
  rw [h.capAt_eq hl]
  simp only [capAt, Nat.pos_iff_ne_zero]

theorem exists_mulDiv? (hv : v * num.val < bound) (h0 : 0 < num.val) (hd : 0 < den.val) :
    ∃ w, mulDiv? v num den = some w ∧ w.val = v * num.val / den.val := by
  have hlt : v < bound := (Nat.le_mul_of_pos_right v h0).trans_lt hv
  obtain ⟨wide, hwide, rfl⟩ := exists_ofNat? hlt
  obtain ⟨product, hproduct, hval⟩ := exists_ofNat? hv
  have hmul : wide.mul? num = some product := hproduct
  have hquotient : product.val / den.val < bound := (Nat.div_le_self _ _).trans_lt product.val_lt
  refine ⟨⟨product.val / den.val, hquotient⟩, ?_, congrArg (· / den.val) hval⟩
  simp only [mulDiv?, hwide, hmul, div?, if_neg (Nat.ne_of_gt hd), Option.bind_eq_bind,
    Option.bind_some]

/-- A product that does not fit leaves more than 256 bits, since no divisor has more. -/
theorem mulDiv?_tracks (hv : v < 2 ^ 256) (h0 : 0 < num.val) (hd : 0 < den.val)
    (hden : den.val ≤ 2 ^ 256) :
    Tracks (v * num.val / den.val) (mulDiv? v num den) := by
  by_cases hfit : v * num.val < bound
  · obtain ⟨w, hw, hval⟩ := exists_mulDiv? hfit h0 hd
    rw [hw]
    exact hval
  · have hbig : 2 ^ 256 ≤ v * num.val / den.val := by
      rw [Nat.le_div_iff_mul_le hd]
      exact (two_pow_mul_le_bound hden).trans (Nat.not_lt.1 hfit)
    obtain ⟨wide, hwide, rfl⟩ := exists_ofNat? (hv.trans (by decide : 2 ^ 256 < bound))
    have hmul : wide.mul? num = none := dif_neg hfit
    have hnone : mulDiv? wide.val num den = none := by
      simp only [mulDiv?, hwide, hmul, Option.bind_eq_bind, Option.bind_some, Option.bind_none]
    rw [hnone]
    exact .inr hbig

end UInt512

namespace Exponential

open UInt512

variable {r d q target limit : Nat} {late timespan : Int}

def cubicNum (r d : Nat) : Nat := 4 * r ^ 3 + 11 * r ^ 2 * d + 35 * r * d ^ 2 + 50 * d ^ 3

def cubicDen (d : Nat) : Nat := 50 * d ^ 3

/-- The scaled target in numbers without bound, rounded down once. -/
def exactScale (target : Nat) (late timespan : Int) : Nat :=
  let d := timespan.toNat
  let q := late.natAbs / d
  let r := late.natAbs % d
  if 0 ≤ late then target * (2 ^ q * cubicNum r d) / cubicDen d
  else target * cubicDen d / (2 ^ q * cubicNum r d)

theorem cubicDen_pos (h : 0 < d) : 0 < cubicDen d := Nat.mul_pos (by decide) (Nat.pow_pos h)

theorem cubicDen_le (r d : Nat) : cubicDen d ≤ cubicNum r d := Nat.le_add_left _ _

theorem cubicNum_zero (d : Nat) : cubicNum 0 d = cubicDen d := by simp [cubicNum, cubicDen]

theorem cubicDen_le_two_pow (h : d < 2 ^ 64) : cubicDen d ≤ 2 ^ 256 :=
  calc cubicDen d ≤ 50 * (2 ^ 64) ^ 3 := Nat.mul_le_mul_left 50 (Nat.pow_le_pow_left h.le 3)
    _ ≤ 2 ^ 256 := by decide

/-- Sixty-four bits to the third power, with room for a coefficient, are far from 512. -/
theorem exists_term? {x y : UInt512} {factor : Nat} (hx : x.val < 2 ^ 64) (hy : y.val < 2 ^ 64)
    (hfactor : factor < 2 ^ 6) :
    ∃ t, term? factor x y = some t ∧ t.val = factor * x.val ^ 2 * y.val ∧ t.val < 2 ^ 198 := by
  obtain ⟨square, hsquare, hsquarev, hsquarelt⟩ := exists_mul? hx hx (by decide)
  obtain ⟨product, hproduct, hproductv, hproductlt⟩ := exists_mul? hsquarelt hy (by decide)
  obtain ⟨t, ht, htv, htlt⟩ := exists_times? hproductlt hfactor (by decide)
  refine ⟨t, ?_, ?_, htlt⟩
  · simp only [term?, hsquare, hproduct, ht, Option.bind_eq_bind, Option.bind_some]
  · rw [htv, hproductv, hsquarev]
    ring

theorem exists_cubicRatio? (hr : r < 2 ^ 64) (hd : d < 2 ^ 64) :
    ∃ poly base, cubicRatio? r d = some (poly, base) ∧ poly.val = cubicNum r d ∧
      base.val = cubicDen d := by
  obtain ⟨r, hr', rfl⟩ := exists_ofNat? (hr.trans (by decide : 2 ^ 64 < bound))
  obtain ⟨d, hd', rfl⟩ := exists_ofNat? (hd.trans (by decide : 2 ^ 64 < bound))
  obtain ⟨base, hbase, hbasev, hbaselt⟩ := exists_term? hd hd (by decide : 50 < 2 ^ 6)
  obtain ⟨cubic, hcubic, hcubicv, hcubiclt⟩ := exists_term? hr hr (by decide : 4 < 2 ^ 6)
  obtain ⟨square, hsquare, hsquarev, hsquarelt⟩ := exists_term? hr hd (by decide : 11 < 2 ^ 6)
  obtain ⟨linear, hlinear, hlinearv, hlinearlt⟩ := exists_term? hd hr (by decide : 35 < 2 ^ 6)
  have hroom : cubic.val + square.val + linear.val + base.val < bound := by
    have hbound := bound_eq
    omega
  obtain ⟨sum₁, hsum₁, hsum₁v⟩ := exists_add? (a := cubic) (b := square) (by omega)
  obtain ⟨sum₂, hsum₂, hsum₂v⟩ := exists_add? (a := sum₁) (b := linear) (by omega)
  obtain ⟨poly, hpoly, hpolyv⟩ := exists_add? (a := sum₂) (b := base) (by omega)
  refine ⟨poly, base, ?_, ?_, ?_⟩
  · simp only [cubicRatio?, hr', hd', hbase, hcubic, hsquare, hlinear, hsum₁, hsum₂, hpoly,
      Option.bind_eq_bind, Option.bind_some]
    rfl
  · rw [hpolyv, hsum₂v, hsum₁v, hcubicv, hsquarev, hlinearv, hbasev, cubicNum]
    ring
  · rw [hbasev, cubicDen]
    ring

/-- The power as a fraction, or no number of 512 bits holds its numerator over the cubic's
denominator. -/
theorem powerRatio?_cases {whole : UInt512} (hw : whole.val = 2 ^ q) (hr : r < 2 ^ 64) (h0 : 0 < d)
    (hd : d < 2 ^ 64) :
    (∃ num den, powerRatio? whole r d = some (num, den) ∧ 0 < den.val ∧ den.val ≤ 2 ^ 256 ∧
      num.val * cubicDen d = 2 ^ q * cubicNum r d * den.val) ∨
    powerRatio? whole r d = none ∧ bound ≤ 2 ^ q * cubicNum r d := by
  by_cases hzero : r = 0
  · subst hzero
    refine .inl ⟨whole, 1, rfl, Nat.one_pos, by decide, ?_⟩
    have hone : UInt512.val 1 = 1 := rfl
    rw [cubicNum_zero, hone, Nat.mul_one, hw]
  · obtain ⟨poly, base, hratio, hpoly, hbase⟩ := exists_cubicRatio? hr hd
    rw [powerRatio?, if_neg hzero, hratio, ← hw, ← hpoly, ← hbase]
    rcases ofNat?_cases (whole.val * poly.val) with ⟨num, hnum, hval⟩ | ⟨hnone, hbig⟩
    · have hmul : whole.mul? poly = some num := hnum
      refine .inl ⟨num, base, ?_, hbase ▸ cubicDen_pos h0, hbase ▸ cubicDen_le_two_pow hd,
        by rw [hval]⟩
      simp only [hmul, Option.bind_eq_bind, Option.bind_some]
      rfl
    · have hmul : whole.mul? poly = none := hnone
      refine .inr ⟨?_, hbig⟩
      simp only [hmul, Option.bind_eq_bind, Option.bind_some, Option.bind_none]

theorem div_eq_div_of_mul_eq {a b c e : Nat} (hb : 0 < b) (he : 0 < e) (h : a * e = c * b) :
    a / b = c / e :=
  calc a / b = a * e / (b * e) := (Nat.mul_div_mul_right a b he).symm
    _ = c * b / (e * b) := by rw [h, Nat.mul_comm b e]
    _ = c / e := Nat.mul_div_mul_right c e hb

theorem grown_out (h0 : 0 < d) (hd : d < 2 ^ 64) (h : bound ≤ 2 ^ q * cubicNum r d) :
    target * (2 ^ q * cubicNum r d) / cubicDen d = 0 ∨
    2 ^ 256 ≤ target * (2 ^ q * cubicNum r d) / cubicDen d := by
  rcases Nat.eq_zero_or_pos target with rfl | ht
  · exact .inl (by rw [Nat.zero_mul, Nat.zero_div])
  · right
    rw [Nat.le_div_iff_mul_le (cubicDen_pos h0)]
    calc 2 ^ 256 * cubicDen d ≤ bound := two_pow_mul_le_bound (cubicDen_le_two_pow hd)
      _ ≤ 2 ^ q * cubicNum r d := h
      _ ≤ target * (2 ^ q * cubicNum r d) := Nat.le_mul_of_pos_left _ ht

theorem shrunk_out (ht : target < 2 ^ 256) (hd : d < 2 ^ 64) (h : bound ≤ 2 ^ q * cubicNum r d) :
    target * cubicDen d / (2 ^ q * cubicNum r d) = 0 := by
  apply Nat.div_eq_of_lt
  exact (mul_lt_bound ht (cubicDen_le_two_pow hd)).trans_le h

/-- A fraction that stands for the power scales exactly, in both directions. -/
theorem mulDiv?_power_tracks {num den : UInt512} (ht : target < 2 ^ 256) (h0 : 0 < d)
    (hden0 : 0 < den.val) (hden : den.val ≤ 2 ^ 256)
    (h : num.val * cubicDen d = 2 ^ q * cubicNum r d * den.val) :
    Tracks (if 0 ≤ late then target * (2 ^ q * cubicNum r d) / cubicDen d
        else target * cubicDen d / (2 ^ q * cubicNum r d))
      (if 0 ≤ late then mulDiv? target num den else mulDiv? target den num) := by
  have hpower : 0 < 2 ^ q * cubicNum r d :=
    Nat.mul_pos (Nat.two_pow_pos q) ((cubicDen_pos h0).trans_le (cubicDen_le r d))
  have hnum : 0 < num.val := Nat.pos_of_mul_pos_right (h ▸ Nat.mul_pos hpower hden0)
  split
  · have hexact : target * num.val / den.val = target * (2 ^ q * cubicNum r d) / cubicDen d :=
      div_eq_div_of_mul_eq hden0 (cubicDen_pos h0) (by rw [Nat.mul_assoc, h, ← Nat.mul_assoc])
    rw [← hexact]
    exact mulDiv?_tracks ht hnum hden0 hden
  · have hexact : target * den.val / num.val = target * cubicDen d / (2 ^ q * cubicNum r d) := by
      apply div_eq_div_of_mul_eq hnum hpower
      rw [Nat.mul_assoc, Nat.mul_comm den.val, ← h, Nat.mul_comm num.val, Nat.mul_assoc]
    obtain ⟨w, hw, hval⟩ := exists_mulDiv? (mul_lt_bound ht hden) hden0 hnum
    rw [hw]
    exact hval.trans hexact

theorem scale?_tracks (ht : target < 2 ^ 256) (h0 : 0 < timespan) (h64 : timespan < 2 ^ 64) :
    Tracks (exactScale target late timespan) (scale? target late timespan) := by
  obtain ⟨d, rfl⟩ := Int.eq_ofNat_of_zero_le h0.le
  have hd0 : 0 < d := Int.natCast_pos.1 h0
  have hd : d < 2 ^ 64 := by omega
  have hr : late.natAbs % d < 2 ^ 64 := (Nat.mod_lt _ hd0).trans hd
  simp only [exactScale, scale?, if_neg h0.not_ge, Int.toNat_natCast]
  generalize late.natAbs % d = r at hr
  generalize late.natAbs / d = q
  have hout (h : bound ≤ 2 ^ q * cubicNum r d) : Tracks
      (if 0 ≤ late then target * (2 ^ q * cubicNum r d) / cubicDen d
        else target * cubicDen d / (2 ^ q * cubicNum r d)) none := by
    split
    · exact grown_out hd0 hd h
    · exact .inl (shrunk_out ht hd h)
  rcases pow2?_cases q with ⟨whole, hwhole, hval⟩ | ⟨hnone, hq⟩
  · rcases powerRatio?_cases hval hr hd0 hd with
      ⟨num, den, hratio, hden0, hden, hfraction⟩ | ⟨hnone, hbig⟩
    · simp only [hwhole, hratio, Option.bind_eq_bind, Option.bind_some]
      exact mulDiv?_power_tracks ht hd0 hden0 hden hfraction
    · simp only [hwhole, hnone, Option.bind_eq_bind, Option.bind_some, Option.bind_none]
      exact hout hbig
  · -- a power that is missing reaches the bound by itself
    have hbig : bound ≤ 2 ^ q * cubicNum r d := (bound_le_two_pow hq).trans
      (Nat.le_mul_of_pos_right _ ((cubicDen_pos hd0).trans_le (cubicDen_le r d)))
    simp only [hnone, Option.bind_eq_bind, Option.bind_none]
    exact hout hbig

theorem exactScale_zero (h0 : 0 < timespan) : exactScale target 0 timespan = target := by
  have hd : 0 < timespan.toNat := by omega
  simp only [exactScale, Int.natAbs_zero, Nat.zero_div, Nat.zero_mod, Nat.pow_zero, Nat.one_mul,
    cubicNum_zero, if_pos (le_refl (0 : Int))]
  exact Nat.mul_div_cancel target (cubicDen_pos hd)

theorem capAt_scale?_zero (ht : target < 2 ^ 256) (hl : limit < 2 ^ 256) (h0 : 0 < timespan)
    (h64 : timespan < 2 ^ 64) :
    capAt limit ((scale? target 0 timespan).map UInt512.val) = capAt limit (some target) := by
  have h : Tracks (exactScale target 0 timespan) (scale? target 0 timespan) :=
    scale?_tracks ht h0 h64
  rw [exactScale_zero h0] at h
  exact h.capAt_eq_some hl

/-- A checked result is missing only where the exact one is zero or above every ceiling, so that the
capped target is always the exact one. -/
theorem capAt_scale?_eq_exact (htarget : target < 2 ^ 256) (hlimit : limit < 2 ^ 256)
    (h0 : 0 < timespan) (h64 : timespan < 2 ^ 63) :
    (∀ v, scale? target late timespan = some v → v.val = exactScale target late timespan) ∧
    (scale? target late timespan = none →
      exactScale target late timespan = 0 ∨ 2 ^ 256 ≤ exactScale target late timespan) ∧
    capAt limit ((scale? target late timespan).map UInt512.val) =
      if 0 < exactScale target late timespan ∧ exactScale target late timespan ≤ limit
      then exactScale target late timespan else limit := by
  have h : Tracks (exactScale target late timespan) (scale? target late timespan) :=
    scale?_tracks htarget h0 (h64.trans (by decide))
  refine ⟨fun v hv ↦ ?_, fun hnone ↦ ?_, h.capAt_eq hlimit⟩
  · rw [hv] at h
    exact h
  · rw [hnone] at h
    exact h

/-- Half a timespan late, and so late that the power itself has no number. -/
theorem capAt_scale?_eq_exact_on_late :
    capAt (2 ^ 236) ((scale? (2 ^ 224) 21600 43200).map UInt512.val) = 2 ^ 224 * 283 / 200 ∧
    capAt (2 ^ 236) ((scale? (2 ^ 224) 25920001 43200).map UInt512.val) = 2 ^ 236 := by
  have hcapped (late : Int) : capAt (2 ^ 236) ((scale? (2 ^ 224) late 43200).map UInt512.val) =
      if 0 < exactScale (2 ^ 224) late 43200 ∧ exactScale (2 ^ 224) late 43200 ≤ 2 ^ 236
      then exactScale (2 ^ 224) late 43200 else 2 ^ 236 :=
    (capAt_scale?_eq_exact (by decide) (by decide) (by decide) (by decide)).2.2
  have hhalf : exactScale (2 ^ 224) 21600 43200 = 2 ^ 224 * 283 / 200 := by decide +kernel
  have hbig : ¬ exactScale (2 ^ 224) 25920001 43200 ≤ 2 ^ 236 := by decide +kernel
  constructor
  · rw [hcapped, hhalf, if_pos (by decide)]
  · rw [hcapped, if_neg fun h ↦ hbig h.2]

end Exponential

end HybridDifficulty
