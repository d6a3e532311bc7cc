import HybridDifficulty.Proofs.CeilingBound
import HybridDifficulty.Proofs.MinDifficultyRule

/-!
What a tagged candidate sees of a branch: the blocks of its own series, genesis, and the height of
the tip. Walks go down the mixed branch, but what they return is found in the series alone.
-/

namespace HybridDifficulty

open Branch

variable {rules : Rules} {c : Candidate} {m : AverageMemo} {a : Algorithm} {g : Block}
  {l l' : List Block}

theorem filter_dropWhile_not (p : Block → Bool) (l : List Block) :
    (l.dropWhile fun x ↦ !p x).filter p = l.filter p := by
  have h := List.dropWhile_filter (p := p) (q := fun _ ↦ false) (l := l)
  have hall : ∀ r : List Block, (r.dropWhile fun _ ↦ false) = r := fun r ↦ by cases r <;> rfl
  simpa [hall] using h.symm

namespace Absolute

/-- The blocks of a series from the reference down. There are none where genesis is the
reference. -/
def fromReference (start : Nat) (own : List Block) : List Block :=
  own.dropWhile fun x ↦ !decide (x.height < start)

theorem takeWhile_append_fromReference (start : Nat) (own : List Block) :
    (own.takeWhile fun x ↦ !decide (x.height < start)) ++ fromReference start own = own :=
  List.takeWhile_append_dropWhile

/-- The blocks of a series on the schedule, with the reference. -/
def passed (start : Nat) (own : List Block) : Nat :=
  (own.takeWhile fun x ↦ !decide (x.height < start)).length + 1

/-- When the schedule starts, given the blocks from the reference down. -/
def startOf (spacing : Int) (g : Block) : List Block → Int
  | [] => g.time - spacing
  | _ :: r => (r.headD g).time

def isEarly (a : Algorithm) (start : Nat) (x : Block) : Bool :=
  (Series.tagged a).contains x && decide (x.height < start)

/-- The part of a branch that begins with the newest early block of an algorithm. -/
def lowerPart (a : Algorithm) (start : Nat) (l : List Block) : List Block :=
  l.dropWhile fun x ↦ !isEarly a start x

theorem ownBlocks_lowerPart (a : Algorithm) (start : Nat) (l : List Block) :
    ownBlocks a (lowerPart a start l) = fromReference start (ownBlocks a l) := by
  simp only [fromReference, List.dropWhile_filter, lowerPart, isEarly, Bool.not_and]

theorem countP_above_lowerPart (a : Algorithm) (start : Nat) (l : List Block) :
    (l.takeWhile fun x ↦ !isEarly a start x).countP (Series.tagged a).contains + 1 =
      passed start (ownBlocks a l) := by
  simp only [passed, List.takeWhile_filter, List.countP_eq_length_filter, isEarly, Bool.not_and]

/-- Where the lower part is not empty, its first block belongs to the algorithm. -/
theorem ownBlocks_lowerPart_cons {start : Nat} {x : Block} {r : List Block}
    (h : lowerPart a start l = x :: r) :
    fromReference start (ownBlocks a l) = x :: ownBlocks a r := by
  have hx : isEarly a start x = true := by
    have hx := List.head?_dropWhile_not (fun x ↦ !isEarly a start x) l
    rw [← lowerPart, h] at hx
    simpa using hx
  rw [isEarly, Bool.and_eq_true] at hx
  rw [← ownBlocks_lowerPart, h, ownBlocks, List.filter_cons_of_pos hx.1]

theorem headD_lowerPart (a : Algorithm) (start : Nat) (g : Block) (l : List Block) :
    (lowerPart a start l).headD g = (fromReference start (ownBlocks a l)).headD g := by
  cases h : lowerPart a start l with
  | nil => rw [← ownBlocks_lowerPart, h, ownBlocks, List.filter_nil]
  | cons x r => rw [ownBlocks_lowerPart_cons h, List.headD_cons, List.headD_cons]

theorem startTime_lowerPart (spacing : Int) (a : Algorithm) (start : Nat) (g : Block)
    (l : List Block) :
    startTime spacing (.tagged a) ⟨lowerPart a start l, .genesis g⟩ =
      .ok (startOf spacing g (fromReference start (ownBlocks a l))) := by
  cases h : lowerPart a start l with
  | nil =>
    rw [← ownBlocks_lowerPart, h]
    rfl
  | cons x r =>
    rw [ownBlocks_lowerPart_cons h, startTime, below?_genesis_cons]
    simp only [seek_genesis, top_genesis, ok_bind, headD_dropWhile_not]
    rfl

theorem reference_tagged (start : Nat) (a : Algorithm) (g : Block) (l : List Block) :
    reference start (some a) ⟨l.dropWhile fun x ↦ !(Series.tagged a).contains x, .genesis g⟩ =
      (⟨lowerPart a start l, .genesis g⟩, passed start (ownBlocks a l)) := by
  induction l with
  | nil => rfl
  | cons y l ih =>
    cases hy : (Series.tagged a).contains y with
    | false =>
      -- a block of another series is passed over on both sides
      simpa [lowerPart, isEarly, hy] using ih
    | true =>
      by_cases hlow : y.height < start
      · simp [reference, lowerPart, isEarly, passed, hy, hlow]
      · have hcount := countP_above_lowerPart a start l
        have hown : ownBlocks a (y :: l) = y :: ownBlocks a l := List.filter_cons_of_pos hy
        have hpassed : passed start (ownBlocks a (y :: l)) = passed start (ownBlocks a l) + 1 := by
          simp [hown, passed, hlow]
        have hlower : lowerPart a start (y :: l) = lowerPart a start l := by
          simp [lowerPart, isEarly, hlow]
        rw [hpassed, hlower, ← hcount, List.dropWhile_cons_of_neg (by simp [hy])]
        simp only [reference, if_neg hlow, seek_genesis, unroll_genesis]
        rw [Nat.add_comm 2]
        rfl

theorem referenceTarget_seek (s : Series) (w height : Nat) (x : Block) (n : Nat) :
    referenceTarget rules s m w height ⟨l.dropWhile fun x ↦ !s.contains x, .genesis g⟩ x n =
      referenceTarget rules s m w height ⟨l.filter s.contains, .genesis g⟩ x n := by
  simp only [referenceTarget, filter_genesis, filter_dropWhile_not, List.filter_filter,
    Bool.and_self]

/-- The scheduled target as a function of the candidate's height, of genesis and of the series. -/
def nextOf (rules : Rules) (a : Algorithm) (m : AverageMemo) (height : Nat) (g : Block)
    (own : List Block) :
    Except Fault (UInt32 × Option Lookup × AverageMemo) :=
  match firstTwo own with
  | none => .ok (rules.limitBits (.tagged a), none, m)
  | some (newest, before) => do
    let spacing := rules.spacingOf (.tagged a)
    let w ← window rules spacing
    if height < rules.scheduleStart then
      return (← Ema.weightedStep rules (.tagged a) newest before, none, m)
    else
      let lower := fromReference rules.scheduleStart own
      let n := passed rules.scheduleStart own
      let late := newest.time - startOf spacing g lower - spacing * n
      let (target, lookup, m) ←
        referenceTarget rules (.tagged a) m w height ⟨own, .genesis g⟩ (lower.headD g) n
      return (bits rules (.tagged a) target late, lookup, m)

theorem next_tagged (hc : c.algorithm? = some a) (m : AverageMemo) (g : Block) (l : List Block) :
    next rules c m (some ⟨l, .genesis g⟩) =
      nextOf rules a m ((l.headD g).height + 1) g (ownBlocks a l) := by
  have hs := c.series_of_tag hc
  simp only [next, nextOf, Ema.weighted, Ema.onNewestTwo, hs, newestTwo?_genesis, ok_bind]
  cases firstTwo (ownBlocks a l) with
  | none => rfl
  | some p =>
    simp only [top_genesis, ok_bind, seek_genesis, Series.tag, reference_tagged,
      startTime_lowerPart, headD_lowerPart, referenceTarget_seek]

end Absolute

theorem Rules.fixedBits?_tagged (rules : Rules) (hc : c.algorithm? = some a) (height : Nat)
    (x : Block) :
    rules.fixedBits? height c x = none := by
  cases h : rules.fixedBits? height c x with
  | none => rfl
  | some bits =>
    have hs := (exists_of_fixedBits? h).1
    rw [c.series_of_tag hc] at hs
    cases hs

/-- The bits that a series allows or demands at minimum difficulty. -/
def lateBits (rules : Rules) (a : Algorithm) (time : Int) (g : Block) (l : List Block) :
    Except Fault (Option UInt32) :=
  if rules.relaxed then MinDifficulty.forced? a (rules.ceiling (some a)) time ⟨l, .genesis g⟩
  else .ok none

theorem lateBits_congr (ha : rules.admits (some a)) (hg : g.height = 0)
    (hown : ownBlocks a l = ownBlocks a l') (time : Int) :
    lateBits rules a time g l = lateBits rules a time g l' := by
  have h0 : CompactForm.encode (rules.ceiling (some a)) ≠ 0 :=
    CompactForm.encode_ne_zero (rules.ceiling_lt _) (Rules.ceiling_pos ha)
  rw [lateBits, lateBits, MinDifficulty.forced?_congr hg h0 hown]

theorem choose_tagged (hc : c.algorithm? = some a) (ha : rules.admits (some a))
    (hr : rules.atCeiling = false) (g : Block) (l : List Block) :
    choose rules c (some ⟨l, .genesis g⟩) = (do
      let late ← lateBits rules a c.time g l
      return {
        regime := rules.regimeAt ((l.headD g).height + 1) (Series.tagged a).isStake
        forced := late.map fun bits ↦ (.minDifficulty, bits) }) := by
  have hs := c.series_of_tag hc
  simp only [choose, lateBits, hc, ha, hr, hs, top_genesis, ok_bind, Bool.not_true,
    Bool.false_eq_true, if_false, rules.fixedBits?_tagged hc, ite_self]
  cases rules.relaxed with
  | false => rfl
  | true =>
    simp only [if_true]
    cases MinDifficulty.forced? a (rules.ceiling (some a)) c.time ⟨l, .genesis g⟩ with
    | error => rfl
    | ok late => cases late <;> rfl

theorem requirement_tagged (hc : c.algorithm? = some a) (ha : rules.admits (some a))
    (hr : rules.atCeiling = false) (m : AverageMemo) (g : Block) (l : List Block) :
    requirement rules c m (some ⟨l, .genesis g⟩) = (do
      let late ← lateBits rules a c.time g l
      settle rules c m (some ⟨l, .genesis g⟩) {
        regime := rules.regimeAt ((l.headD g).height + 1) (Series.tagged a).isStake
        forced := late.map fun bits ↦ (.minDifficulty, bits) }) := by
  rw [requirement, choose_tagged hc ha hr]
  cases lateBits rules a c.time g l <;> rfl

theorem MovingAverage.next_congr {s : Series} (hs : c.series = s)
    (hown : l.filter s.contains = l'.filter s.contains)
    (hheight : (l.headD g).height = (l'.headD g).height) :
    next rules c (some ⟨l, .genesis g⟩) = next rules c (some ⟨l', .genesis g⟩) := by
  subst hs
  simp only [next, Ema.weighted, Ema.onNewestTwo, filter_genesis, newestTwo?_genesis,
    descent_genesis, top_genesis, ok_bind, hown, hheight]

theorem settle_congr (hc : c.algorithm? = some a) (hown : ownBlocks a l = ownBlocks a l')
    (hheight : (l.headD g).height = (l'.headD g).height) (m : AverageMemo) (height : Nat)
    (forced : Option (Forcing × UInt32)) :
    settle rules c m (some ⟨l, .genesis g⟩)
        { regime := rules.regimeAt height (Series.tagged a).isStake, forced } =
      settle rules c m (some ⟨l', .genesis g⟩)
        { regime := rules.regimeAt height (Series.tagged a).isStake, forced } := by
  have hs := c.series_of_tag hc
  cases forced with
  | some p => rfl
  | none =>
    rcases rules.regimeAt_cases height (Series.tagged a).isStake with h | h | h
    · simp only [h, settle, Absolute.next_tagged hc, hown, hheight]
    · simp only [h, settle, Ema.doubled, Ema.onNewestTwo, hs, newestTwo?_genesis, hown]
    · simp only [h, settle, MovingAverage.next_congr hs hown hheight]

/-- Blocks of other series have no say in what is required of a tagged candidate. -/
theorem requirement_congr (hc : c.algorithm? = some a) (hg : g.height = 0)
    (hown : ownBlocks a l = ownBlocks a l') (hheight : (l.headD g).height = (l'.headD g).height)
    (m : AverageMemo) :
    requirement rules c m (some ⟨l, .genesis g⟩) =
      requirement rules c m (some ⟨l', .genesis g⟩) := by
  cases ha : rules.admits (some a) with
  | false => rw [requirement_of_not_admits (hc ▸ ha), requirement_of_not_admits (hc ▸ ha)]
  | true =>
    cases hr : rules.atCeiling with
    | true =>
      simp only [requirement, choose, hc, ha, hr, if_true, Bool.not_true,
        Bool.false_eq_true, if_false]
      rfl
    | false =>
      rw [requirement_tagged hc ha hr, requirement_tagged hc ha hr, lateBits_congr ha hg hown,
        hheight]
      exact congrArg _ (funext fun late ↦ settle_congr hc hown hheight m _ _)

end HybridDifficulty
