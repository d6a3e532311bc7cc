import HybridDifficulty.Block

/-!
A branch is a block together with the blocks below it. Walks go down a branch until a block matches;
genesis ends every walk, whether it matches or not. Where links were not made by growing a tree, a
branch may also end in a link to a block that nobody holds, which is a fault only for the walk that
gets there, or go round in a circle, which is one only for a walk that finds nothing in it.
-/

namespace HybridDifficulty

inductive Fault
  | lostBlock (id : BlockId)
  | divisionByZero
  | noIntervalStart (tip : BlockId)
  /-- A walk goes round a circle of links and never finds what it looks for. -/
  | endless
  deriving DecidableEq

def Fault.message : Fault → String
  | .lostBlock id => "chain index lost node " ++ idText id ++ " during traversal"
  | .divisionByZero => "attempt to divide by zero"
  | .noIntervalStart tip =>
    "retarget invariant violated at " ++ idText tip ++ ": interval start missing"
  | .endless => "walk without end"

/-- What the lowest blocks of a branch stand on. -/
inductive Root
  | genesis (block : Block)
  | lost (id : BlockId)
  /-- The blocks of `ring`, newest first, again and again. -/
  | circle (ring : List Block)
  deriving DecidableEq

namespace Root

def block : Root → Except Fault Block
  | genesis b => .ok b
  | lost id => .error (.lostBlock id)
  | circle (b :: _) => .ok b
  | circle [] => .error .endless

def genesis? : Root → Option Block
  | genesis b => some b
  | lost _ | circle _ => none

/-- What a walk meets that has passed everything: nothing under genesis, a fault under any other
root. -/
def bottom : Root → Except Fault Unit
  | genesis _ => .ok ()
  | lost id => .error (.lostBlock id)
  | circle _ => .error .endless

/-- The root without the blocks of its circle that do not match. -/
def filter (p : Block → Bool) : Root → Root
  | circle ring => circle (ring.filter p)
  | root => root

end Root

/-- The blocks above the root stand newest first. -/
structure Branch where
  blocks : List Block
  root : Root
  deriving DecidableEq

namespace Branch

/-- What a link to an unknown block leads to. -/
def missing (id : BlockId) : Branch := ⟨[], .lost id⟩

def extend (b : Branch) (x : Block) : Branch := ⟨x :: b.blocks, b.root⟩

def top (b : Branch) : Except Fault Block :=
  match b.blocks with
  | x :: _ => .ok x
  | [] => b.root.block

/-- The blocks above the root, followed by so many turns of the circle if the root is one. -/
def unroll (turns : Nat) (b : Branch) : List Block :=
  match b.root with
  | .circle ring => b.blocks ++ (List.replicate turns ring).flatten
  | _ => b.blocks

def below? (b : Branch) : Option Branch :=
  match b.unroll 1 with
  | _ :: r => some ⟨r, b.root⟩
  | [] => none

def parentId? (b : Branch) : Option BlockId :=
  match b.unroll 2, b.root with
  | _ :: y :: _, _ => some y.id
  | [_], .genesis g => some g.id
  | [_], .lost id => some id
  | _, _ => none

/-- The part of the branch from the newest match down. One turn of a circle shows whether there is
one. -/
def seek (p : Block → Bool) (b : Branch) : Branch :=
  match (b.unroll 1).dropWhile fun x ↦ !p x with
  | [] => ⟨[], b.root.filter p⟩
  | r => ⟨r, b.root⟩

def filter (p : Block → Bool) (b : Branch) : Branch := ⟨b.blocks.filter p, b.root.filter p⟩

def drop (n : Nat) (b : Branch) : Branch := ⟨(b.unroll n).drop n, b.root⟩

/-- The blocks from the top down, genesis last, with so many turns of a circle. -/
def descent (turns : Nat) (b : Branch) : List Block := b.unroll turns ++ b.root.genesis?.toList

/-- The two newest matches above genesis, by a walk from the top and one from below what that has
found. -/
def newestTwo? (p : Block → Bool) (b : Branch) : Except Fault (Option (Block × Block)) := do
  let newest := b.seek p
  let x ← newest.top
  match newest.below? with
  | none => return none
  | some below =>
    let before := below.seek p
    let y ← before.top
    return if before.parentId?.isSome then some (x, y) else none

/-- Heights fall along a branch, so the walk may stop at the first block that is low enough. -/
def ancestor? (b : Branch) (height : Nat) : Except Fault (Option Block) := do
  let x ← (b.seek fun x ↦ x.height ≤ height).top
  return if x.height = height then some x else none

end Branch

end HybridDifficulty
