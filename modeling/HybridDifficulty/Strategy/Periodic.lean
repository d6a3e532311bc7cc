import HybridDifficulty.Strategy.Basic

/-!
Periodic retargeting: the target changes once per interval, by at most a factor of four, and else
carries over.
-/

namespace HybridDifficulty.Periodic

variable (rules : Rules)

/-- The target after an interval that began at `start` and ended with `tip`. -/
def retarget (tip : Block) (start : Int) : UInt32 :=
  if rules.atCeiling ∨ rules.timespan ≤ 0 then tip.bits
  else
    let elapsed := max (rules.timespan.tdiv 4) (min (tip.time - start) (rules.timespan * 4))
    let limit := rules.ceiling (some .xevan)
    CompactForm.encode <|
      match rescale? (CompactForm.target tip.bits) elapsed rules.timespan with
      | some v => if v ≤ limit then v else limit
      | none => limit

/-- A block inside an interval: late ones may have the ceiling, and the others take the bits of the
newest block that starts an interval or is not at the ceiling. -/
def carryOver (c : Candidate) (tip : Branch) : Except Fault UInt32 := do
  let last ← tip.top
  let limitBits := CompactForm.encode (rules.ceiling (some .xevan))
  if !rules.relaxed then return last.bits
  else if c.time > last.time + rules.spacing * 2 then return limitBits
  else
    return (← (tip.seek fun b ↦
      (b.height : Int) % rules.interval = 0 || b.bits ≠ limitBits).top).bits

def startOf (tip : Branch) : Except Fault Block := do
  let last ← tip.top
  let height := last.height - (rules.interval - 1)
  if height < 0 then throw (.noIntervalStart last.id)
  else
    match ← tip.ancestor? height.toNat with
    | some b => return b
    | none => throw (.noIntervalStart last.id)

/-- Without a whole interval the tip's target stays. -/
def next (c : Candidate) (tip : Branch) : Except Fault UInt32 := do
  let last ← tip.top
  if rules.interval < 1 then return last.bits
  else if (last.height + 1) % rules.interval ≠ 0 then carryOver rules c tip
  else return retarget rules last (← startOf rules tip).time

end HybridDifficulty.Periodic
