import HybridDifficulty.Strategy.Ema

/-!
The average target of the newest blocks of a series, scaled by the time these took against the time
they should have taken. Untagged candidates average 24 blocks at one minute, the newest counted
twice; tagged ones a quarter of the blocks of a timespan, and small errors of the time are tempered
to a quarter.
-/

namespace HybridDifficulty.MovingAverage

structure Plan where
  spacing : Int
  length : Int
  isTagged : Bool

namespace Plan

variable (plan : Plan)

def ofCandidate (rules : Rules) (c : Candidate) : Except Fault Plan := do
  if c.isTagged then
    let spacing := rules.spacingOf c.series
    return { spacing, length := (← quotient rules.timespan spacing).tdiv 4, isTagged := true }
  else return { spacing := 60, length := 24, isTagged := false }

/-- The weight of the newest target. -/
def weight : Nat := if plan.isTagged then 1 else 2

def minHeight : Int := if plan.isTagged then plan.length + 2 else plan.length

/-- Each target is divided before the sum is formed, so that the sum stays below 2 ^ 256. -/
def share (weight : Nat) (b : Block) : Nat :=
  min (weight * CompactForm.target b.bits) (byteWeight 32 - 1) /
    (plan.length + plan.weight - 1).toNat

def average : List Block → Nat
  | [] => 0
  | b :: r => plan.share plan.weight b + (r.map (plan.share 1)).foldr (· + ·) 0

/-- The regular blocks among the newest of the series, up to the planned number, and the block at
which the measured time begins: tagged candidates go one block further than the last one averaged.
Neither reaches height zero, save for a block on which the walk has to start. -/
def sample (isRegular : Block → Bool) (bottom : Except Fault Unit) :
    Nat → Block → List Block → Except Fault (List Block × Block)
  | 0, b, _ => .ok ([], b)
  | n + 1, b, rest =>
    let counts := isRegular b
    let left := if counts then n else n + 1
    let taken := if counts then [b] else []
    match rest with
    | [] => do
      bottom
      return (taken, b)
    | next :: rest =>
      if next.height = 0 ∨ !plan.isTagged ∧ left = 0 then .ok (taken, b)
      else do
        let (more, last) ← sample isRegular bottom left next rest
        return (taken ++ more, last)

/-- The measured and the ideal time; an error below 15 percent counts a quarter. -/
def times (elapsed : Int) : Int × Int :=
  let ideal := plan.length * plan.spacing
  if plan.isTagged ∧ (ideal * 85).tdiv 100 < elapsed ∧ elapsed < (ideal * 115).tdiv 100 then
    (max (elapsed + 3 * ideal) 1, 4 * ideal)
  else (max elapsed 1, ideal)

/-- The target from the blocks averaged and from the time between the newest block and the one where
the measured time begins. -/
def bits (limit : Nat) (samples : List Block) (elapsed : Int) : UInt32 :=
  let average := plan.average samples
  let (actual, ideal) := plan.times elapsed
  encodeBy plan.isTagged
    (capAt limit (rescale? (if average = 0 then limit else average) actual ideal))

end Plan

/-- A chain too short for a whole average has the weighted target, or the ceiling before tags. -/
def next (rules : Rules) (c : Candidate) (tip? : Option Branch) : Except Fault UInt32 := do
  let s := c.series
  let plan ← Plan.ofCandidate rules c
  let some tip := tip? | return rules.limitBits s
  let some (newest, _) ← tip.newestTwo? s.contains | return rules.limitBits s
  if (← tip.top).height < plan.minHeight then
    if plan.isTagged then Ema.weighted rules c tip? else return rules.limitBits s
  else
    let n := plan.length.toNat
    let own := tip.filter s.contains
    let (samples, last) ←
      plan.sample (rules.isRegular s) own.root.bottom n newest (own.descent (n + 2)).tail
    return plan.bits (rules.limit s) samples (newest.time - last.time)

end HybridDifficulty.MovingAverage
