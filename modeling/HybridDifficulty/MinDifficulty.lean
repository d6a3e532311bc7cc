import HybridDifficulty.Branch
import HybridDifficulty.CompactForm

/-!
Minimum difficulty for tagged algorithms: a late block may have the bits just below the ceiling, and
the block after such a one goes back to a regular target.
-/

namespace HybridDifficulty

/-- Seconds without a block of an algorithm after which one may be mined at minimum difficulty. -/
def minDifficultyDelay : Int := 1800

/-- Rules on minimum difficulty look at blocks above this height only. -/
def minDifficultyHeight : Nat := 10

namespace MinDifficulty

/-- Down from a block at the marker, past the blocks of all other algorithms, a walk looks for the
first block of the algorithm that is not at the marker. The target reverts to that of the next block
of the algorithm below it, or where this one is at the marker itself, to that of the first. -/
def reverted? (a : Algorithm) (marker : UInt32) (newest : Branch) :
    Except Fault (Option UInt32) := do
  let regular := newest.seek fun b ↦ b.bits ≠ marker && (Series.tagged a).contains b
  let bits := (← regular.top).bits
  match regular.below? with
  | none => return none
  | some below =>
    let before ← (below.seek (Series.tagged a).contains).top
    if before.height ≤ minDifficultyHeight then return none
    else return some (if before.bits ≠ marker then before.bits else bits)

def forced? (a : Algorithm) (limit : Nat) (time : Int) (tip : Branch) :
    Except Fault (Option UInt32) := do
  if CompactForm.encode limit = 0 then return none
  else
    let marker := CompactForm.marker limit
    let newest := tip.seek (Series.tagged a).contains
    let last ← newest.top
    if minDifficultyHeight < last.height ∧ last.time + minDifficultyDelay < time then
      return some marker
    else if newest.parentId?.isNone ∨ last.bits ≠ marker then return none
    else reverted? a marker newest

end MinDifficulty

end HybridDifficulty
