import HybridDifficulty.Settings
import HybridDifficulty.Json.Value
import HybridDifficulty.Record

/-!
How records, candidates, tags and settings are stored as JSON. Numbers are integers of a fixed
range.
-/

namespace HybridDifficulty

namespace StoredForm

def int32? (j : Json) : Option Int32 :=
  (j.integerIn? Int32.minValue.toInt Int32.maxValue.toInt).map Int32.ofInt

def int64? (j : Json) : Option Int := j.integerIn? Int64.minValue.toInt Int64.maxValue.toInt

def uint32? (j : Json) : Option Nat := j.natBelow? UInt32.size

def hash? : Json → Option Hash
  | .array xs => do Hash.ofList? (← xs.mapM fun x ↦ (x.natBelow? 256).map UInt8.ofNat)
  | _ => none

def nodeId? : Json → Option (Option BlockId)
  | .null => some none
  | j => (uint32? j).map some

def quoted (s : String) : String := "\"" ++ s ++ "\""

def object (fields : List (String × String)) : String :=
  "\x7b" ++ ",".intercalate (fields.map fun (k, v) ↦ quoted k ++ ":" ++ v) ++ "\x7d"

def tagName : Option Algorithm → String
  | some .stake => "proof_of_stake"
  | some a => a.name
  | none => "legacy"

def tag? (j : Json) : Option (Option Algorithm) := do
  let name ← j.case?
  (none :: Algorithm.all.map some).find? fun t ↦ tagName t = name

def network? (j : Json) : Option Network := do
  let name ← j.case?
  [Network.main, .testnet, .signet, .regtest].find? fun n ↦ n.name = name

end StoredForm

open StoredForm

def Record.ofJson? (j : Json) : Option Record := do
  match ←
    j.fields? ["hash", "height", "time", "bits", "version", "proof_of_stake", "prev"] false with
  | [hash, height, time, bits, version, stake, prev] =>
    return {
      hash := ← hash? (← hash)
      height := ← uint32? (← height)
      time := ← int64? (← time)
      bits := UInt32.ofNat (← uint32? (← bits))
      version := ← int32? (← version)
      stake := ← (← stake).bool?
      prev := ← prev.elim (some none) nodeId? }
  | _ => none

def Record.toJson (r : Record) : String :=
  object
    [("hash", "[" ++ ",".intercalate (r.hash.toList.map toString) ++ "]"),
     ("height", toString r.height),
     ("time", toString r.time),
     ("bits", toString r.bits),
     ("version", toString r.version),
     ("proof_of_stake", toString r.stake),
     ("prev", r.prev.elim "null" toString)]

def Candidate.ofJson? (j : Json) : Option Candidate := do
  match ← j.fields? ["version", "time", "proof_of_stake"] false with
  | [version, time, stake] =>
    return {
      version := ← int32? (← version)
      time := ← int64? (← time)
      stake := ← (← stake).bool? }
  | _ => none

def Candidate.toJson (c : Candidate) : String :=
  object
    [("version", toString c.version), ("time", toString c.time),
      ("proof_of_stake", toString c.stake)]

/-- Fields that are missing keep their defaults. -/
def Settings.ofJson? (j : Json) : Option Settings := do
  match ← j.fields? ["network", "use_target_cache", "scope_cache_to_fork"] true with
  | [network, use, scope] =>
    return {
      network := ← network.elim (some .main) network?
      useMemo := ← use.elim (some true) Json.bool?
      memoByFork := ← scope.elim (some true) Json.bool? }
  | _ => none

def Settings.parse (text : String) : Except EngineError Settings :=
  match (Json.parse? text).bind Settings.ofJson? with
  | some c => .ok c
  | none => .error (.badSettings .unreadable)

namespace StoredForm

/-- The things that can be stored by themselves. -/
inductive Kind
  | record
  | candidate
  | nodeId
  | tag
  | network

/-- Reads a text and writes what it says in the one form that is written. -/
def normalize? (kind : Kind) (text : String) : Option String := do
  let j ← Json.parse? text
  match kind with
  | .record => (Record.ofJson? j).map Record.toJson
  | .candidate => (Candidate.ofJson? j).map Candidate.toJson
  | .nodeId => (uint32? j).map toString
  | .tag => (tag? j).map fun t ↦ quoted (tagName t)
  | .network => (network? j).map fun n ↦ quoted n.name

end StoredForm

end HybridDifficulty
