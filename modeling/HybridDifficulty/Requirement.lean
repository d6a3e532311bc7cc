import HybridDifficulty.MinDifficulty
import HybridDifficulty.Regime
import HybridDifficulty.Strategy.Absolute
import HybridDifficulty.Strategy.MovingAverage
import HybridDifficulty.Strategy.Periodic

/-!
Which strategy governs a candidate, the targets that are forced whatever it would say, and the
target that results.
-/

namespace HybridDifficulty

structure Choice where
  regime : Regime
  forced : Option (Forcing × UInt32) := none
  deriving DecidableEq

structure Requirement where
  bits : UInt32
  regime : Regime
  forced : Option Forcing := none
  lookup : Option Lookup := none
  deriving DecidableEq

def Rules.regimeAt (rules : Rules) (height : Nat) (stake : Bool) : Regime :=
  if rules.upgrade ≤ height then .scheduled else if stake then .weighted else .movingAverage

/-- Decides how the target is found, without computing it. -/
def choose (rules : Rules) (c : Candidate) (tip? : Option Branch) : Except Fault Choice := do
  let tag := c.algorithm?
  if !rules.admits tag then return { regime := .disabled }
  else
    match if rules.atCeiling then none else tip? with
    | none => return { regime := .ceiling }
    | some tip =>
      let last ← tip.top
      let height := last.height + 1
      let regime := rules.regimeAt height c.series.isStake
      let late ← match if rules.relaxed then tag else none with
        | some a => MinDifficulty.forced? a (rules.ceiling tag) c.time tip
        | none => pure none
      match late with
      | some bits => return { regime, forced := some (.minDifficulty, bits) }
      | none =>
        let fixed := if regime = .weighted then rules.fixedBits? height c last else none
        return { regime, forced := fixed.map fun bits ↦ (.historical, bits) }

def settle (rules : Rules) (c : Candidate) (m : AverageMemo) (tip? : Option Branch)
    (choice : Choice) :
    Except Fault (Requirement × AverageMemo) := do
  let regime := choice.regime
  match choice.forced with
  | some (kind, bits) => return ({ bits, regime, forced := some kind }, m)
  | none =>
    match regime with
    | .disabled => return ({ bits := 0, regime }, m)
    | .ceiling => return ({ bits := CompactForm.encode (rules.ceiling c.algorithm?), regime }, m)
    | .periodic =>
      match tip? with
      | some tip => return ({ bits := ← Periodic.next rules c tip, regime }, m)
      | none => return ({ bits := CompactForm.encode (rules.ceiling c.algorithm?), regime }, m)
    | .movingAverage => return ({ bits := ← MovingAverage.next rules c tip?, regime }, m)
    | .weighted => return ({ bits := ← Ema.doubled rules c tip?, regime }, m)
    | .scheduled =>
      let (bits, lookup, m) ← Absolute.next rules c m tip?
      return ({ bits, regime, lookup }, m)

def requirement (rules : Rules) (c : Candidate) (m : AverageMemo) (tip? : Option Branch) :
    Except Fault (Requirement × AverageMemo) := do
  settle rules c m tip? (← choose rules c tip?)

/-- The same on a network that retargets periodically. -/
def periodicRequirement (rules : Rules) (c : Candidate) (tip : Branch) :
    Except Fault Requirement := do
  return (← settle rules c .disabled (some tip) { regime := .periodic }).1

end HybridDifficulty
