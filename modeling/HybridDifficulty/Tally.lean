import HybridDifficulty.Requirement

/-!
Counts of what an engine has answered, in words of 64 bits that start again at zero when they are
full.
-/

namespace HybridDifficulty

/-- A count is read as a number. -/
instance readCount : Coe UInt64 Nat := ⟨UInt64.toNat⟩

structure Tally where
  disabled : UInt64 := 0
  ceiling : UInt64 := 0
  periodic : UInt64 := 0
  movingAverage : UInt64 := 0
  weighted : UInt64 := 0
  scheduled : UInt64 := 0
  minDifficulty : UInt64 := 0
  historical : UInt64 := 0
  hits : UInt64 := 0
  /-- Averages that were computed, whether the memo was asked or not. -/
  misses : UInt64 := 0
  accepted : UInt64 := 0
  rejected : UInt64 := 0
  deriving DecidableEq

namespace Tally

def computed (m : Tally) : Regime → UInt64
  | .disabled => m.disabled
  | .ceiling => m.ceiling
  | .periodic => m.periodic
  | .movingAverage => m.movingAverage
  | .weighted => m.weighted
  | .scheduled => m.scheduled

def addComputed (m : Tally) : Regime → Tally
  | .disabled => { m with disabled := m.disabled + 1 }
  | .ceiling => { m with ceiling := m.ceiling + 1 }
  | .periodic => { m with periodic := m.periodic + 1 }
  | .movingAverage => { m with movingAverage := m.movingAverage + 1 }
  | .weighted => { m with weighted := m.weighted + 1 }
  | .scheduled => { m with scheduled := m.scheduled + 1 }

def addForced (m : Tally) : Forcing → Tally
  | .minDifficulty => { m with minDifficulty := m.minDifficulty + 1 }
  | .historical => { m with historical := m.historical + 1 }

def addLookup (m : Tally) : Lookup → Tally
  | .hit => { m with hits := m.hits + 1 }
  | .miss | .bypassed => { m with misses := m.misses + 1 }

/-- A forced target counts as such and not for its regime. -/
def addRequirement (m : Tally) (r : Requirement) : Tally :=
  let m := r.forced.elim (m.addComputed r.regime) m.addForced
  r.lookup.elim m m.addLookup

def addProof (m : Tally) (accepted : Bool) : Tally :=
  if accepted then { m with accepted := m.accepted + 1 } else { m with rejected := m.rejected + 1 }

/-- Zero before the first look-up. -/
def hitRatio (m : Tally) : Float :=
  if m.hits + m.misses = 0 then 0 else m.hits.toFloat / (m.hits + m.misses).toFloat

end Tally

end HybridDifficulty
