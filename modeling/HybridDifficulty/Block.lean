import HybridDifficulty.Algorithm
import HybridDifficulty.Hash

/-!
Blocks, the candidates for the next block, and the series that share a target.

Times and spans of time are exact integers, here and in the rules of a network. Nodes keep them in
signed 64-bit words, so what is said of them is said of inputs on which no such word overflows.
Heights and ids are natural numbers in the same sense, in place of 32-bit words.
-/

namespace HybridDifficulty

/-- The place of a block in its tree, counted in order of arrival. -/
abbrev BlockId := Nat

def idText (id : BlockId) : String := "#" ++ toString id

/-- What a block brings along when it joins a tree. -/
structure Entry where
  hash : Hash
  time : Int
  bits : UInt32
  version : Int32
  stake : Bool
  deriving DecidableEq

structure Block extends Entry where
  id : BlockId
  height : Nat
  deriving DecidableEq

def Entry.algorithm? (e : Entry) : Option Algorithm := Algorithm.ofVersion? e.version

/-- The header fields that decide which target a new block must meet. The stake flag counts only
where the version has no tag. -/
structure Candidate where
  version : Int32
  time : Int
  stake : Bool
  deriving DecidableEq

/-- The blocks retargeted together: those of one algorithm, or for untagged candidates those that
carry the same stake flag, whatever their tag. -/
inductive Series
  | tagged (a : Algorithm)
  | untagged (stake : Bool)
  deriving DecidableEq

namespace Series

def ofTag (tag : Option Algorithm) (stake : Bool) : Series := tag.elim (untagged stake) tagged

def contains : Series → Block → Bool
  | tagged a, b => b.algorithm? = some a
  | untagged stake, b => b.stake = stake

def isStake : Series → Bool
  | tagged a => a = .stake
  | untagged stake => stake

def governor : Series → Algorithm
  | tagged a => a
  | untagged stake => if stake then .stake else .xevan

def tag : Series → Option Algorithm
  | tagged a => some a
  | untagged _ => none

end Series

namespace Candidate

def algorithm? (c : Candidate) : Option Algorithm := Algorithm.ofVersion? c.version

def series (c : Candidate) : Series := .ofTag c.algorithm? c.stake

def isTagged (c : Candidate) : Bool := carriesTag c.version

def ofTag (tag : Option Algorithm) (time : Int) : Candidate where
  version := tag.elim untaggedVersion Algorithm.version
  time := time
  stake := tag = some .stake

end Candidate

end HybridDifficulty
