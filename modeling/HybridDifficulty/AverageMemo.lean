import HybridDifficulty.Branch

/-!
A memo of averaged targets, one for each algorithm. An entry answers for its window and, unless
forks are told not to matter, for the newest block that was averaged.
-/

namespace HybridDifficulty

structure KnownAverage where
  window : Nat
  /-- The hash of the newest block averaged. -/
  anchor : Hash
  average : Nat
  /-- The height of the candidate that the average was computed for. -/
  height : Nat
  deriving DecidableEq

inductive Lookup
  | hit
  | miss
  | bypassed
  deriving DecidableEq

def Lookup.name : Lookup → String
  | .hit => "hit"
  | .miss => "miss"
  | .bypassed => "bypassed"

structure AverageMemo where
  enabled : Bool := true
  /-- Whether an entry is bound to its anchor. -/
  byFork : Bool := true
  slots : PerAlgorithm (Option KnownAverage) := .replicate none

namespace AverageMemo

def disabled : AverageMemo := { enabled := false }

def entry? (m : AverageMemo) (tag : Option Algorithm) : Option KnownAverage := tag.bind m.slots.get

def forget (m : AverageMemo) : AverageMemo := { m with slots := .replicate none }

/-- A stored average of zero is never served. -/
def answers (m : AverageMemo) (e : KnownAverage) (window : Nat) (anchor : Hash) : Bool :=
  e.window = window && e.average ≠ 0 && (!m.byFork || e.anchor = anchor)

/-- The stored average where there is one that answers, else what `compute` gives, which is then
stored. Untagged candidates are never served from memory. -/
def query (m : AverageMemo) (tag : Option Algorithm) (window : Nat) (anchor : Hash) (height : Nat)
    (compute : Unit → Except Fault Nat) : Except Fault (Nat × Lookup × AverageMemo) := do
  match if m.enabled then tag else none with
  | none => return (← compute (), .bypassed, m)
  | some a =>
    match (m.slots.get a).filter (m.answers · window anchor) with
    | some e => return (e.average, .hit, m)
    | none =>
      let average ← compute ()
      return (average, .miss,
        { m with slots := m.slots.set a (some { window, anchor, average, height }) })

end AverageMemo

end HybridDifficulty
