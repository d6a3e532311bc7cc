import HybridDifficulty.Rules

/-!
How an engine is set up, and why it may refuse to start or to answer.
-/

namespace HybridDifficulty

structure Settings where
  network : Network := .main
  useMemo : Bool := true
  memoByFork : Bool := true
  deriving DecidableEq

inductive SettingsFault
  | networkMismatch (rules settings : Network)
  | unreadable
  deriving DecidableEq

inductive EngineError
  | badRules (fault : RulesFault)
  | unknownBlock (id : BlockId)
  | closedAlgorithm (tag : Option Algorithm)
  | badSettings (fault : SettingsFault)
  deriving DecidableEq

def SettingsFault.message : SettingsFault → String
  | .networkMismatch rules settings =>
    "parameters are for " ++ rules.name ++ " but the engine is configured for " ++ settings.name
  | .unreadable => "not a configuration"

namespace EngineError

def message : EngineError → String
  | badRules f => "Invalid consensus parameters: " ++ f.message
  | unknownBlock id => "Unknown chain index node: " ++ idText id
  | closedAlgorithm tag => "Algorithm disabled on this network: " ++ tagName tag
  | badSettings f => "Invalid configuration: " ++ f.message

/-- Whether another input may succeed. -/
def isRecoverable : EngineError → Bool
  | unknownBlock _ | closedAlgorithm _ => true
  | badRules _ | badSettings _ => false

/-- Whether the engine must not start. -/
def isCritical : EngineError → Bool
  | badRules _ | badSettings _ => true
  | unknownBlock _ | closedAlgorithm _ => false

end EngineError

end HybridDifficulty
