/-!
The ways in which a target can come about.
-/

namespace HybridDifficulty

inductive Regime
  /-- The candidate's algorithm is not accepted. -/
  | disabled
  | ceiling
  | periodic
  | movingAverage
  | weighted
  | scheduled
  deriving DecidableEq

namespace Regime

def all : List Regime := [disabled, ceiling, periodic, movingAverage, weighted, scheduled]

def name : Regime → String
  | disabled => "disabled"
  | ceiling => "ceiling"
  | periodic => "legacy"
  | movingAverage => "sma"
  | weighted => "wtema"
  | scheduled => "asert"

def isRefusal (r : Regime) : Bool := r = disabled

end Regime

/-- Why a target is forced, whatever the regime would say. -/
inductive Forcing
  | minDifficulty
  | historical
  deriving DecidableEq

def Forcing.name : Forcing → String
  | .minDifficulty => "min_difficulty"
  | .historical => "historical"

end HybridDifficulty
