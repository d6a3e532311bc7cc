import HybridDifficulty.Proofs.RequirementOutcome
import Mathlib.Data.List.TakeWhile

/-!
Minimum difficulty as a rule on the blocks of one algorithm. The walks go down all blocks of a
branch and test each for its tag and its bits; what they find can be read off the newest block of
the algorithm and off the first two below its newest run of markers.
-/

namespace HybridDifficulty

open Branch CompactForm

variable {a : Algorithm} {g x : Block} {l l' own r : List Block} {limit : Nat}
  {marker bits : UInt32} {time : Int}

/-- The blocks of an algorithm, newest first. -/
abbrev ownBlocks (a : Algorithm) (l : List Block) : List Block :=
  l.filter (Series.tagged a).contains

theorem headD_dropWhile_not (p : Block → Bool) (l : List Block) (g : Block) :
    (l.dropWhile fun x ↦ !p x).headD g = (l.filter p).headD g := by
  rw [List.headD_eq_head?_getD, List.headD_eq_head?_getD, ← List.find?_eq_head?_dropWhile_not,
    List.head?_filter]

namespace MinDifficulty

/-- The candidate is late after a block that is high enough. -/
def IsLate (time : Int) (x : Block) : Prop := 10 < x.height ∧ x.time + 1800 < time

instance : Decidable (IsLate time x) := inferInstanceAs (Decidable (_ ∧ _))

/-- The bits forced on top of the blocks of an algorithm, newest first. -/
inductive Forced (marker : UInt32) (time : Int) : List Block → UInt32 → Prop
  | late {x : Block} {r : List Block} : IsLate time x → Forced marker time (x :: r) marker
  | reverted {x first second : Block} {r lower : List Block} : ¬ IsLate time x → x.bits = marker →
      (x :: r).dropWhile (·.bits = marker) = first :: second :: lower → 10 < second.height →
      Forced marker time (x :: r) (if second.bits ≠ marker then second.bits else first.bits)

/-- Bits that are handed out again are no marker, and a block of the algorithm carries them. -/
theorem Forced.exists_regular (h : Forced marker time (x :: r) bits) (hx : ¬ IsLate time x) :
    bits ≠ marker ∧ ∃ y ∈ x :: r, y.bits = bits := by
  cases h with
  | late hlate => exact absurd hlate hx
  | @reverted _ first second _ lower _ _ hrest _ =>
    have hsuffix := List.dropWhile_suffix (l := x :: r) (·.bits = marker)
    rw [hrest] at hsuffix
    have hfirst : first.bits ≠ marker := by
      have h := List.head?_dropWhile_not (fun b : Block ↦ decide (b.bits = marker)) (x :: r)
      simpa [hrest] using h
    have hmem : ∀ y ∈ first :: second :: lower, y ∈ x :: r := fun y hy ↦ hsuffix.subset hy
    split
    · next hsecond => exact ⟨hsecond, second, hmem second (by simp), rfl⟩
    · exact ⟨hfirst, first, hmem first (by simp), rfl⟩

theorem Forced.marker_or_mem (h : Forced marker time own bits) :
    bits = marker ∨ ∃ x ∈ own, x.bits = bits := by
  cases h with
  | late => exact .inl rfl
  | reverted hlate hbits hrest hheight =>
    exact .inr ((Forced.reverted hlate hbits hrest hheight).exists_regular hlate).2

/-- Among all blocks the walk past the markers stops at the block at which it stops among those of
the algorithm, or it runs down to genesis on both. -/
theorem dropWhile_marker_own (a : Algorithm) (marker : UInt32) (l : List Block) :
    (ownBlocks a l).dropWhile (·.bits = marker) = ownBlocks a
      (l.dropWhile fun x ↦ !(decide (x.bits ≠ marker) && (Series.tagged a).contains x)) := by
  rw [ownBlocks, List.dropWhile_filter, ownBlocks]
  congr 2
  funext x
  cases (Series.tagged a).contains x <;> simp

theorem reverted?_eq_some_iff (hg : g.height = 0) :
    reverted? a marker ⟨l, .genesis g⟩ = .ok (some bits) ↔
      ∃ first second lower, (ownBlocks a l).dropWhile (·.bits = marker) = first :: second :: lower ∧
        10 < second.height ∧ bits = if second.bits ≠ marker then second.bits else first.bits := by
  rw [dropWhile_marker_own]
  simp only [reverted?, seek_genesis, top_genesis, ok_bind]
  rcases dropWhile_not_cases l fun x ↦
      decide (x.bits ≠ marker) && (Series.tagged a).contains x with
    ⟨hdrop, -⟩ | ⟨first, below, hdrop, hfirst, -⟩
  · -- the walk has run down to genesis, whatever tag and bits that has
    rw [hdrop]
    simp [below?, pure, Except.pure]
  · rw [Bool.and_eq_true] at hfirst
    rw [hdrop, ownBlocks, List.filter_cons_of_pos hfirst.2]
    simp only [below?_genesis_cons, seek_genesis, top_genesis, ok_bind, headD_dropWhile_not,
      List.headD_cons]
    generalize below.filter (Series.tagged a).contains = rest
    cases rest with
    | nil =>
      -- under a single block the second walk meets genesis, which is too low
      simp [hg, pure, Except.pure]
    | cons second lower =>
      rw [List.headD_cons]
      by_cases hlow : second.height ≤ minDifficultyHeight
      · rw [if_pos hlow]
        constructor
        · intro h
          cases h
        · rintro ⟨_, _, _, hrest, hheight, -⟩
          cases hrest
          exact absurd hheight (Nat.not_lt.2 hlow)
      · rw [if_neg hlow]
        constructor
        · intro h
          obtain rfl := Option.some.inj (Except.ok.inj h)
          exact ⟨first, second, lower, rfl, Nat.lt_of_not_le hlow, rfl⟩
        · rintro ⟨_, _, _, hrest, -, rfl⟩
          cases hrest
          rfl

/-- The walks over a branch force what the rule on the blocks of the algorithm says. -/
theorem forced?_eq_some_iff (hg : g.height = 0) (h0 : encode limit ≠ 0) :
    forced? a limit time ⟨l, .genesis g⟩ = .ok (some bits) ↔
      Forced (CompactForm.marker limit) time (ownBlocks a l) bits := by
  simp only [forced?, if_neg h0, seek_genesis, top_genesis, ok_bind]
  generalize CompactForm.marker limit = marker
  rcases dropWhile_not_cases l (Series.tagged a).contains with
    ⟨hdrop, hown⟩ | ⟨x, r, hdrop, hx, hown⟩
  · rw [hdrop, ownBlocks, hown]
    constructor
    · intro h
      simp [hg, parentId?, pure, Except.pure] at h
    · intro h
      cases h
  · have hlast : ownBlocks a (x :: r) = x :: ownBlocks a r := List.filter_cons_of_pos hx
    rw [hdrop, ownBlocks, hown, List.headD_cons, parentId?_genesis_cons]
    by_cases hlate : IsLate time x
    · have hlate' : minDifficultyHeight < x.height ∧ x.time + minDifficultyDelay < time := hlate
      constructor
      · intro h
        rw [if_pos hlate'] at h
        obtain rfl := Option.some.inj (Except.ok.inj h)
        exact .late hlate
      · intro h
        cases h with
        | late => rw [if_pos hlate']; rfl
        | reverted hnot => exact absurd hlate hnot
    · have hlate' : ¬(minDifficultyHeight < x.height ∧ x.time + minDifficultyDelay < time) := hlate
      by_cases hbits : x.bits = marker
      · simp only [if_neg hlate', Option.isNone_some, hbits, ne_eq, not_true_eq_false,
          Bool.false_eq_true, or_self, if_false, reverted?_eq_some_iff hg, hlast]
        constructor
        · rintro ⟨first, second, lower, hrest, hheight, rfl⟩
          exact .reverted hlate hbits hrest hheight
        · intro h
          cases h with
          | late hx => exact absurd hx hlate
          | reverted _ _ hrest hheight => exact ⟨_, _, _, hrest, hheight, rfl⟩
      · constructor
        · intro h
          simp [hlate', hbits, pure, Except.pure] at h
        · intro h
          cases h with
          | late hx => exact absurd hx hlate
          | reverted _ hx => exact absurd hx hbits

/-- Blocks of other algorithms have no say in what is forced. -/
theorem forced?_congr (hg : g.height = 0) (h0 : encode limit ≠ 0)
    (hown : ownBlocks a l = ownBlocks a l') (time : Int) :
    forced? a limit time ⟨l, .genesis g⟩ = forced? a limit time ⟨l', .genesis g⟩ := by
  obtain ⟨late, hlate⟩ := forced?_ok a limit time g l
  obtain ⟨late', hlate'⟩ := forced?_ok a limit time g l'
  rw [hlate, hlate']
  congr 1
  ext bits
  calc late = some bits
    _ ↔ forced? a limit time ⟨l, .genesis g⟩ = .ok (some bits) := by rw [hlate, Except.ok.injEq]
    _ ↔ forced? a limit time ⟨l', .genesis g⟩ = .ok (some bits) := by
      rw [forced?_eq_some_iff hg h0, hown, forced?_eq_some_iff hg h0]
    _ ↔ late' = some bits := by rw [hlate', Except.ok.injEq]

end MinDifficulty

end HybridDifficulty
