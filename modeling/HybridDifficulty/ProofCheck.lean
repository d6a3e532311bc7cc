import HybridDifficulty.Digest.Keccak
import HybridDifficulty.Digest.Sha256
import HybridDifficulty.Rules

/-!
Proof of work: the hash of a header read as a number, checked against the target that its bits
claim.
-/

namespace HybridDifficulty

inductive Rejection
  | malformed
  | notWork
  | closed
  | tooEasy
  | missesTarget
  deriving DecidableEq

def verifyWork (rules : Rules) (hash : Nat) (bits : UInt32) (tag : Option Algorithm) :
    Except Rejection Unit :=
  let d := CompactForm.decode bits
  if !d.isValid then .error .malformed
  else if tag = some .stake then .error .notWork
  else if !rules.admits tag then .error .closed
  else if rules.ceiling tag < d.target then .error .tooEasy
  else if d.target < hash then .error .missesTarget
  else .ok ()

def meetsTarget (rules : Rules) (hash : Nat) (bits : UInt32) (tag : Option Algorithm) : Bool :=
  (verifyWork rules hash bits tag).isOk

abbrev Hasher := Option Algorithm → List UInt8 → Option Nat

/-- Knows the two algorithms that are plain digests. -/
def Hasher.digests : Hasher
  | some .sha256d, header => some (Digest.littleEndian (Digest.Sha256.twice header))
  | some .keccak256, header => some (Digest.littleEndian (Digest.Keccak.hash header))
  | _, _ => none

end HybridDifficulty
