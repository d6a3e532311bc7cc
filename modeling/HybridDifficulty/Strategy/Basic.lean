import HybridDifficulty.Branch
import HybridDifficulty.Rules

/-!
What all retargeting strategies share. A strategy looks at the blocks of the candidate's own series
below the tip; where there are fewer than two above genesis, the target is the ceiling.
-/

namespace HybridDifficulty

def quotient (a b : Int) : Except Fault Int :=
  if b = 0 then .error .divisionByZero else .ok (a.tdiv b)

/-- `target * num / den` for a ratio that is not negative. -/
def rescale? (target : Nat) (num den : Int) : Option Nat :=
  if num < 0 ∨ den ≤ 0 then none else some (target * num.toNat / den.toNat)

/-- The ceiling stands in for a result that is missing, zero or too easy. -/
def capAt (limit : Nat) (scaled : Option Nat) : Nat :=
  match scaled with
  | some v => if v ≠ 0 ∧ v ≤ limit then v else limit
  | none => limit

def encodeBy (rounding : Bool) (v : Nat) : UInt32 :=
  if rounding then CompactForm.encodeRounded v else CompactForm.encode v

namespace Rules

variable (rules : Rules) (s : Series)

def limitBits : UInt32 := CompactForm.encode (rules.limit s)

/-- Whether the block counts for averages: blocks mined at minimum difficulty do not. -/
def isRegular (b : Block) : Bool := !rules.relaxed || b.bits ≠ CompactForm.marker (rules.limit s)

end Rules

end HybridDifficulty
