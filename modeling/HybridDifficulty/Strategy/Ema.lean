import HybridDifficulty.Strategy.Basic

/-!
Exponential moving averages: the newest target of the series times a ratio in which the newest solve
time has a small weight.
-/

namespace HybridDifficulty.Ema

variable (rules : Rules)

/-- `newest` is the newest block of the series and `before` the one below it. -/
def weightedStep (s : Series) (newest before : Block) : Except Fault UInt32 := do
  let spacing := rules.spacingOf s
  let interval ← quotient rules.timespan (spacing * 2)
  let num := max ((interval - 1) * spacing + (newest.time - before.time)) 1
  let scaled := rescale? (CompactForm.target newest.bits) num (interval * spacing)
  return CompactForm.encodeRounded (capAt (rules.limit s) scaled)

/-- Weighs the solve time double. Before tags it kept to blocks of a minute, counted a block that
seemed to be older than its parent as one second late, and cut off where the later rule rounds. -/
def doubledStep (s : Series) (isTagged : Bool) (newest before : Block) : Except Fault UInt32 := do
  let spacing := if isTagged then rules.spacingOf s else 60
  let interval ← if isTagged then quotient rules.timespan spacing else .ok 40
  let elapsed := newest.time - before.time
  let solve := if !isTagged && elapsed < 0 then 1 else elapsed
  let num := max ((interval - 1) * spacing + 2 * solve) 1
  let scaled := rescale? (CompactForm.target newest.bits) num ((interval + 1) * spacing)
  return encodeBy isTagged (capAt (rules.limit s) scaled)

def onNewestTwo (s : Series) (step : Block → Block → Except Fault UInt32) :
    Option Branch → Except Fault UInt32
  | none => .ok (rules.limitBits s)
  | some tip => do
    match ← tip.newestTwo? s.contains with
    | none => return rules.limitBits s
    | some (newest, before) => step newest before

def weighted (c : Candidate) (tip : Option Branch) : Except Fault UInt32 :=
  onNewestTwo rules c.series (weightedStep rules c.series) tip

def doubled (c : Candidate) (tip : Option Branch) : Except Fault UInt32 :=
  onNewestTwo rules c.series (doubledStep rules c.series c.isTagged) tip

end HybridDifficulty.Ema
