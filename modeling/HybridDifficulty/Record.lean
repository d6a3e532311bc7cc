import HybridDifficulty.Branch

/-!
Blocks as they are stored: each one names its predecessor. A list of records need not be a tree that
grew block by block, so its heights and links can be anything.
-/

namespace HybridDifficulty

structure Record extends Entry where
  height : Nat
  prev : Option BlockId
  deriving DecidableEq

namespace Record

def toBlock (r : Record) (id : BlockId) : Block := { r with id }

/-- The blocks from `id` down to where the links come back to `start`, at most `n` of them. -/
def ring (records : Array Record) (start : BlockId) : Nat → BlockId → List Block
  | 0, _ => []
  | n + 1, id =>
    match records[id]? with
    | none => []
    | some r => r.toBlock id :: (r.prev.filter (· ≠ start)).elim [] (ring records start n)

/-- Follows at most `n` links. With more links than records, a path that is not at its end by then
repeats itself. -/
def trace (records : Array Record) : Nat → BlockId → Branch
  | 0, id => ⟨[], .circle (ring records id records.size id)⟩
  | n + 1, id =>
    match records[id]? with
    | none => .missing id
    | some r =>
      match r.prev with
      | none => ⟨[], .genesis (r.toBlock id)⟩
      | some p => (trace records n p).extend (r.toBlock id)

def branch (records : Array Record) (id : BlockId) : Branch := trace records (records.size + 1) id

end Record

end HybridDifficulty
