import HybridDifficulty.Block
import HybridDifficulty.CompactForm

/-!
The consensus rules of a network, and which of them can be run with.
-/

namespace HybridDifficulty

inductive Network
  | main
  | testnet
  | signet
  | regtest
  deriving DecidableEq

def Network.name : Network → String
  | .main => "main"
  | .testnet => "testnet"
  | .signet => "signet"
  | .regtest => "regtest"

/-- A block whose target was fixed by hand. The parent is given by the display text of its hash. -/
structure FixedTarget where
  height : Nat
  time : Int
  version : Int32
  parent : String
  bits : UInt32
  deriving DecidableEq

/-- Only untagged stake candidates can be the block meant. -/
def FixedTarget.applies (o : FixedTarget) (height : Nat) (c : Candidate) (tip : Block) : Bool :=
  o.height = height && c.version = o.version && c.time = o.time && c.series = .untagged true &&
    Hash.ofDisplay? o.parent = some tip.hash

abbrev Word256 := {n : Nat // n < byteWeight 32}

/-- Seconds between work blocks of one algorithm once versions carry tags. -/
def workSpacing : Int := 600

structure Rules where
  network : Network
  /-- The easiest target of each algorithm; zero shuts it out. -/
  ceilings : PerAlgorithm Word256
  spacing : Int
  timespan : Int
  /-- Whether late blocks may be mined at minimum difficulty. -/
  relaxed : Bool
  /-- Whether every block has the ceiling as its target. -/
  atCeiling : Bool
  /-- The height from which all targets follow the absolute schedule. -/
  upgrade : Nat
  /-- Before and after the upgrade, as the age is. -/
  stakeMinDepth : Nat × Nat
  stakeMinAge : Int × Int
  stakeMaxAge : Int
  stakeTimeMask : Nat
  lastWorkHeight : Option Nat
  fixedTargets : List FixedTarget

inductive RulesFault
  | spacingNotPositive (spacing : Int)
  | timespanNotPositive (timespan : Int)
  | timespanTooShort (timespan spacing : Int)
  | zeroCeiling (a : Algorithm)
  | malformedParentHash
  deriving DecidableEq

def RulesFault.message : RulesFault → String
  | .spacingNotPositive s => "target spacing must be positive, got " ++ toString s
  | .timespanNotPositive t => "target timespan must be positive, got " ++ toString t
  | .timespanTooShort t s =>
    "timespan " ++ toString t ++ " is shorter than one block spacing " ++ toString s
  | .zeroCeiling a => a.name ++ " ceiling must be non-zero"
  | .malformedParentHash => "difficulty override with malformed parent hash"

namespace Rules

variable (rules : Rules)

/-- The ceiling that proofs are checked against; untagged blocks have that of xevan. -/
def ceiling (tag : Option Algorithm) : Nat := rules.ceilings.get (tag.getD .xevan)

/-- The ceiling that retargeting keeps to; untagged stake blocks have that of stake. -/
def limit (s : Series) : Nat := rules.ceilings.get s.governor

def withCeiling (a : Algorithm) (limit : Word256) : Rules :=
  { rules with ceilings := rules.ceilings.set a limit }

def admits (tag : Option Algorithm) : Bool := rules.ceiling tag ≠ 0

def spacingOf (s : Series) : Int := if s.isStake then rules.spacing else workSpacing

/-- Blocks between two periodic retargets. Zero where the quotient is no 64-bit number. -/
def interval : Int :=
  if rules.spacing = 0 ∨ rules.spacing = -1 ∧ rules.timespan = Int64.minValue.toInt then 0
  else rules.timespan.tdiv rules.spacing

/-- The schedule begins ten blocks after the upgrade, but no later than at the last 32-bit
height. -/
def scheduleStart : Nat := min (rules.upgrade + 10) (UInt32.size - 1)

/-- Picks from a pair of values before and after the upgrade. -/
def atHeight {α : Type} (height : Nat) (values : α × α) : α :=
  if rules.upgrade ≤ height then values.2 else values.1

def minStakeAge (height : Nat) : Int := rules.atHeight height rules.stakeMinAge

def minStakeDepth (height : Nat) : Nat := rules.atHeight height rules.stakeMinDepth

def allowsWork (height : Nat) : Bool := rules.lastWorkHeight.all (height ≤ ·)

/-- The bits of the first override that means the candidate on top of `tip`. -/
def fixedBits? (height : Nat) (c : Candidate) (tip : Block) : Option UInt32 :=
  (rules.fixedTargets.find? (·.applies height c tip)).map (·.bits)

def fault? : Option RulesFault :=
  if rules.spacing ≤ 0 then some (.spacingNotPositive rules.spacing)
  else if rules.timespan ≤ 0 then some (.timespanNotPositive rules.timespan)
  else if rules.interval < 1 then some (.timespanTooShort rules.timespan rules.spacing)
  else if !rules.admits (some .stake) then some (.zeroCeiling .stake)
  else if !rules.admits (some .xevan) then some (.zeroCeiling .xevan)
  else if rules.fixedTargets.any (fun o ↦ (Hash.ofDisplay? o.parent).isNone) then
    some .malformedParentHash
  else none

end Rules

end HybridDifficulty
