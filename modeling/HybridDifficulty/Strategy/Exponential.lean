import HybridDifficulty.UInt512
import HybridDifficulty.Strategy.Basic

/-!
Scaling by a power of two with a fractional exponent. For `x` from zero to one, `2 ^ x` is taken as
`(4x³ + 11x² + 35x + 50) / 50`, which is exact at both ends.
-/

namespace HybridDifficulty.Exponential

/-- `factor * x² * y`. -/
def term? (factor : Nat) (x y : UInt512) : Option UInt512 := do
  (← (← x.mul? x).mul? y).times? factor

/-- The cubic at `r / d`, as a fraction. -/
def cubicRatio? (r d : Nat) : Option (UInt512 × UInt512) := do
  let r ← UInt512.ofNat? r
  let d ← UInt512.ofNat? d
  let base ← term? 50 d d
  let cubic ← term? 4 r r
  let square ← term? 11 r d
  let linear ← term? 35 d r
  let poly ← (← (← cubic.add? square).add? linear).add? base
  return (poly, base)

/-- `2 ^ (q + r / d)` as a fraction, where `whole` is `2 ^ q`. -/
def powerRatio? (whole : UInt512) (r d : Nat) : Option (UInt512 × UInt512) := do
  if r = 0 then return (whole, 1)
  else
    let (poly, base) ← cubicRatio? r d
    return (← whole.mul? poly, base)

/-- `target * 2 ^ (late / timespan)`, or nothing where a number on the way has more than 512
bits. -/
def scale? (target : Nat) (late timespan : Int) : Option UInt512 := do
  if timespan ≤ 0 then none
  else
    let d := timespan.toNat
    let whole ← UInt512.pow2? (late.natAbs / d)
    let (num, den) ← powerRatio? whole (late.natAbs % d) d
    if 0 ≤ late then UInt512.mulDiv? target num den else UInt512.mulDiv? target den num

end HybridDifficulty.Exponential
