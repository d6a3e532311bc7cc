import HybridDifficulty.Settings
import HybridDifficulty.Tally
import HybridDifficulty.Rules.Presets
import HybridDifficulty.ProofCheck

/-!
An engine answers for one network. It remembers averages and counts its answers; a call that fails
leaves it as it was.
-/

namespace HybridDifficulty

def subsystem : String := "hc-retarget"

structure Engine where
  settings : Settings
  rules : Rules
  memo : AverageMemo
  tally : Tally := {}

namespace Engine

/-- The rules must be those of the network that the settings name. -/
def start (settings : Settings) (rules : Rules) : Except EngineError Engine :=
  if rules.network ≠ settings.network then
    .error (.badSettings (.networkMismatch rules.network settings.network))
  else
    match rules.fault? with
    | some f => .error (.badRules f)
    | none =>
      .ok {
        settings, rules
        memo := { enabled := settings.useMemo, byFork := settings.memoByFork } }

def ofSettings (settings : Settings) : Except EngineError Engine :=
  start settings (.ofNetwork settings.network)

variable (e : Engine)

def next (tip? : Option Branch) (c : Candidate) : Except Fault (Requirement × Engine) := do
  let (r, memo) ← requirement e.rules c e.memo tip?
  return (r, { e with memo, tally := e.tally.addRequirement r })

/-- Refuses candidates of a disabled algorithm, and tips that nobody holds. -/
def checkedNext (tip? : Option Branch) (c : Candidate) :
    Except Fault (Except EngineError (Requirement × Engine)) :=
  if !e.rules.admits c.algorithm? then .ok (.error (.closedAlgorithm c.algorithm?))
  else
    match tip?.map Branch.top with
    | some (.error (.lostBlock id)) => .ok (.error (.unknownBlock id))
    | _ => (e.next tip? c).map .ok

def nextPeriodic (tip : Branch) (c : Candidate) : Except Fault (UInt32 × Engine) := do
  let r ← periodicRequirement e.rules c tip
  return (r.bits, { e with tally := e.tally.addRequirement r })

def retargetPeriodic (tip : Block) (start : Int) : UInt32 := Periodic.retarget e.rules tip start

def checkWork (hash : Nat) (bits : UInt32) (tag : Option Algorithm) : Bool × Engine :=
  let accepted := meetsTarget e.rules hash bits tag
  (accepted, { e with tally := e.tally.addProof accepted })

/-- A header that the hasher cannot hash is rejected. -/
def checkHeader (hasher : Hasher) (header : List UInt8) (bits : UInt32) (tag : Option Algorithm) :
    Bool × Engine :=
  match hasher tag header with
  | some hash => e.checkWork hash bits tag
  | none => (false, { e with tally := e.tally.addProof false })

def forgetAverages : Engine := { e with memo := e.memo.forget }

end Engine

end HybridDifficulty
