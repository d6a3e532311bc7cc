import HybridDifficulty.Rules

/-!
The rules of the four networks.
-/

namespace HybridDifficulty

/-- Only stake and xevan are open from the start. -/
def openingCeilings (stake xevan : UInt32) : PerAlgorithm Word256 where
  stake := ⟨CompactForm.target stake, CompactForm.target_lt stake⟩
  xevan := ⟨CompactForm.target xevan, CompactForm.target_lt xevan⟩
  sha256d := ⟨0, by decide⟩
  keccak256 := ⟨0, by decide⟩

/-- The first stake blocks of the main network were given targets by the rule for work blocks. -/
def mainFixedTargets : List FixedTarget :=
  [{ height := 43201
     time := 1525809739
     version := 4
     parent := "00000001697a06cf5e6f8a067770fa42f15218ca0d7637e4d3078c7857e3512a"
     bits := 0x1d044309 },
   { height := 43202
     time := 1525809751
     version := 4
     parent := "0fbe72517981d3fd9defebf0ba252ff744f44fdb0b73f1403d9a8de9325c7ae3"
     bits := 0x1d04369d }]

namespace Rules

def main : Rules where
  network := .main
  ceilings := openingCeilings 0x1e00ffff 0x1e0fffff
  spacing := 80
  timespan := 43200
  relaxed := true
  atCeiling := false
  upgrade := 1442800
  stakeMinDepth := (10, 600)
  stakeMinAge := (21600, 43200)
  stakeMaxAge := 2592000
  stakeTimeMask := 0xf
  lastWorkHeight := some 100000
  fixedTargets := mainFixedTargets

/-- What the three other networks start from. -/
def trial (network : Network) : Rules :=
  { main with network, upgrade := 0, lastWorkHeight := none, fixedTargets := [] }

def testnet : Rules :=
  { trial .testnet with stakeMinDepth := (100, 100), stakeMinAge := (7200, 7200) }

def signet : Rules := { trial .signet with ceilings := openingCeilings 0x1e00ffff 0x1e0377ae }

def regtest : Rules :=
  { trial .regtest with
    ceilings := openingCeilings 0x207fffff 0x207fffff
    timespan := 3600
    atCeiling := true
    stakeMinDepth := (0, 0)
    stakeMinAge := (60, 60)
    stakeTimeMask := 0x3 }

def ofNetwork : Network → Rules
  | .main => main
  | .testnet => testnet
  | .signet => signet
  | .regtest => regtest

theorem fault?_ofNetwork (n : Network) : (ofNetwork n).fault? = none := by
  cases n <;> decide +kernel

end Rules

end HybridDifficulty
