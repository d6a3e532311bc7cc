import HybridDifficulty.AverageMemo
import HybridDifficulty.Strategy.Ema
import HybridDifficulty.Strategy.Exponential

/-!
Absolutely scheduled targets. The series has a schedule that starts at a reference block; the target
is that of the reference, scaled by how late the newest block is. Once enough blocks have passed, an
average over the last whole window takes the place of the reference's own target.
-/

namespace HybridDifficulty.Absolute

/-- How many targets an average takes in; zero where the number does not fit 32 bits. -/
def window (rules : Rules) (spacing : Int) : Except Fault Nat := do
  let n ← quotient (4 * rules.timespan) spacing
  return if 0 ≤ n ∧ n < UInt32.size then n.toNat else 0

/-- The part of the branch from the reference block down, and the number of blocks on the schedule:
the newest one, the ones of the tag between, and the reference. The reference is the first block
below the start height, or genesis. -/
def reference (start : Nat) (tag : Option Algorithm) (newest : Branch) : Branch × Nat :=
  match newest.blocks with
  | [] => (newest, 1)
  | b :: r =>
    if b.height < start then (newest, 1)
    else
      let early := fun x : Block ↦ x.algorithm? = tag && x.height < start
      let below : Branch := ⟨r, newest.root⟩
      let between := (below.unroll 1).takeWhile fun x ↦ !early x
      (below.seek early, 2 + between.countP (·.algorithm? = tag))

/-- The schedule starts at the time of the block before the reference. -/
def startTime (spacing : Int) (s : Series) (reference : Branch) : Except Fault Int := do
  match reference.below? with
  | none => return (← reference.top).time - spacing
  | some below => return (← (below.seek s.contains).top).time

/-- The first regular blocks of a list, at most `n` of them. The walk always looks for the next
block. -/
def regularBlocks (isRegular : Block → Bool) (bottom : Except Fault Unit) :
    Nat → List Block → Except Fault (List Block)
  | _, [] => do
    bottom
    return []
  | 0, _ :: _ => .ok []
  | n + 1, b :: r =>
    if isRegular b then do return b :: (← regularBlocks isRegular bottom n r)
    else regularBlocks isRegular bottom (n + 1) r

/-- Each target is divided before the sum is formed, so that the sum stays below 2 ^ 256. -/
def average (window : Nat) (blocks : List Block) : Nat :=
  (blocks.map fun b ↦ CompactForm.target b.bits / window).foldr (· + ·) 0

def averageFrom (rules : Rules) (s : Series) (window : Nat) (first : Branch) :
    Except Fault Nat := do
  let blocks := first.descent (window + 1)
  return average window (← regularBlocks (rules.isRegular s) first.root.bottom window blocks)

def bits (rules : Rules) (s : Series) (target : Nat) (late : Int) : UInt32 :=
  let scaled := Exponential.scale? target late rules.timespan
  CompactForm.encodeRounded (capAt (rules.limit s) (scaled.map UInt512.val))

/-- The target of the reference, and how the memo was used if an average was needed. -/
def referenceTarget (rules : Rules) (s : Series) (m : AverageMemo) (window height : Nat)
    (newest : Branch) (reference : Block) (passed : Nat) :
    Except Fault (Nat × Option Lookup × AverageMemo) := do
  if window ≠ 0 ∧ min (rules.scheduleStart + window) (UInt32.size - 1) ≤ height ∧
      window ≤ passed then
    let first := (newest.filter s.contains).drop (passed % window)
    let anchor := (← first.top).hash
    let (target, lookup, m) ←
      m.query s.tag (passed / window) anchor height fun _ ↦ averageFrom rules s window first
    return (target, some lookup, m)
  else return (CompactForm.target reference.bits, none, m)

def next (rules : Rules) (c : Candidate) (m : AverageMemo) (tip? : Option Branch) :
    Except Fault (UInt32 × Option Lookup × AverageMemo) := do
  let s := c.series
  let some tip := tip? | return (rules.limitBits s, none, m)
  let some (newest, _) ← tip.newestTwo? s.contains | return (rules.limitBits s, none, m)
  let spacing := rules.spacingOf s
  let window ← window rules spacing
  let height := (← tip.top).height + 1
  if height < rules.scheduleStart then return (← Ema.weighted rules c tip?, none, m)
  else
    let fromNewest := tip.seek s.contains
    let (below, passed) := reference rules.scheduleStart s.tag fromNewest
    let ref ← below.top
    let late := newest.time - (← startTime spacing s below) - spacing * passed
    let (target, lookup, m) ← referenceTarget rules s m window height fromNewest ref passed
    return (bits rules s target late, lookup, m)

end HybridDifficulty.Absolute
