import HybridDifficulty.Proofs.MemoTransparency
import Mathlib.Algebra.BigOperators.Ring.List
import Mathlib.Algebra.Order.BigOperators.Group.List
import Mathlib.Algebra.Order.Ring.Nat
import Mathlib.Tactic.Ring

/-!
An average against the targets that it adds. Each target is divided by the whole window, so a sum
over fewer blocks is an average only for the part of the window that they fill: it never exceeds
their targets, and it comes close to them from below where the window is full.
-/

namespace HybridDifficulty.Absolute

open Branch AverageMemo

variable {rules : Rules} {t : BlockTree} {c : Candidate} {id : BlockId} {m m' : AverageMemo}
  {lookup : Lookup} {bits : UInt32} {added : List Block} {w average : Nat}

/-- What holds of an average over a window and of the targets of the blocks that it adds. -/
structure Bounds (w : Nat) (added : List Block) (average : Nat) : Prop where
  /-- The blocks' share of the window bounds the average from above. -/
  share_le : ∃ y ∈ added, w * average ≤ added.length * CompactForm.target y.bits
  /-- Each division loses less than one. -/
  lt_share : ∃ x ∈ added, added.length * CompactForm.target x.bits < w * (average + added.length)
  le_target : ∃ y ∈ added, average ≤ CompactForm.target y.bits
  target_lt : added.length = w → ∃ x ∈ added, CompactForm.target x.bits < average + w

theorem average_eq_sum (w : Nat) (added : List Block) :
    Absolute.average w added = (added.map fun x ↦ CompactForm.target x.bits / w).sum :=
  List.sum_eq_foldr.symm

theorem sum_const (added : List Block) (n : Nat) :
    (added.map fun _ ↦ n).sum = added.length * n := by
  rw [List.map_const', List.sum_replicate, Nat.nsmul_eq_mul]

/-- Some part of a sum is no less than the mean of all parts. -/
theorem exists_average_le (h : added ≠ []) :
    ∃ y ∈ added, Absolute.average w added ≤ added.length * (CompactForm.target y.bits / w) := by
  apply List.exists_le_of_sum_le h
  rw [sum_const, List.sum_map_mul_left, average_eq_sum]

theorem exists_le_average (h : added ≠ []) :
    ∃ x ∈ added, added.length * (CompactForm.target x.bits / w) ≤ Absolute.average w added := by
  apply List.exists_le_of_sum_le h
  rw [sum_const, List.sum_map_mul_left, average_eq_sum]

theorem bounds_average (hw : 0 < w) (hlen : added.length ≤ w) (h : added ≠ []) :
    Bounds w added (Absolute.average w added) := by
  obtain ⟨y, hy, hmax⟩ := exists_average_le (w := w) h
  obtain ⟨x, hx, hmin⟩ := exists_le_average (w := w) h
  have hpos : 0 < added.length := List.length_pos_iff.2 h
  have hshare : w * Absolute.average w added ≤ added.length * CompactForm.target y.bits :=
    calc w * Absolute.average w added
        ≤ w * (added.length * (CompactForm.target y.bits / w)) := Nat.mul_le_mul_left w hmax
      _ = added.length * (w * (CompactForm.target y.bits / w)) := Nat.mul_left_comm _ _ _
      _ ≤ added.length * CompactForm.target y.bits := Nat.mul_le_mul_left _ (Nat.mul_div_le _ w)
  have hloss : added.length * CompactForm.target x.bits <
      w * (Absolute.average w added + added.length) :=
    calc added.length * CompactForm.target x.bits
        < added.length * (w * (CompactForm.target x.bits / w + 1)) :=
          Nat.mul_lt_mul_of_pos_left (Nat.lt_mul_div_succ _ hw) hpos
      _ = w * (added.length * (CompactForm.target x.bits / w) + added.length) := by ring
      _ ≤ w * (Absolute.average w added + added.length) :=
        Nat.mul_le_mul_left w (Nat.add_le_add_right hmin _)
  refine ⟨⟨y, hy, hshare⟩, ⟨x, hx, hloss⟩, ⟨y, hy, ?_⟩, fun hfull ↦ ⟨x, hx, ?_⟩⟩
  · exact Nat.le_of_mul_le_mul_left (hshare.trans (Nat.mul_le_mul_right _ hlen)) hw
  · rw [hfull] at hloss
    exact Nat.lt_of_mul_lt_mul_left hloss

/-- Where a lookup is reported, the bits come from the true average below the begun window, even if
a memo served it. -/
theorem exists_average_of_lookup (hf : rules.fault? = none) (ht : t.Grown) (hid : id < t.size)
    (hm : m.Sound rules t)
    (hnext : next rules c m (some (t.branch id)) = .ok (bits, some lookup, m')) :
    ∃ w average, ∃ late : Int,
      let tip := t.branch id
      let passed := (reference rules.scheduleStart c.series.tag (tip.seek c.series.contains)).2
      0 < w ∧ window rules (rules.spacingOf c.series) = .ok w ∧
      averageFrom rules c.series w ((tip.filter c.series.contains).drop (passed % w)) =
      .ok average ∧
      bits = Absolute.bits rules c.series average late := by
  obtain ⟨g, l, hbranch, hb, -⟩ := ht.sound.exists_path hid
  have hgrounded : ∀ b ∈ some (t.branch id), b.Grounded := fun b hb ↦
    Option.some.inj hb ▸ ht.sound.grounded (BlockTree.branches_of_lt hid)
  rcases next_cases (c := c) (Rules.spacing_pos hf) hgrounded with
    ⟨bits', -, h⟩ | ⟨tip, w, y, x, n, late, htip, hw, hy, -, hn, h⟩
  · rw [h m] at hnext
    cases hnext
  obtain rfl := Option.some.inj htip
  rw [hbranch] at hn h hnext ⊢
  rw [h m, seek_genesis] at hnext
  rcases referenceTarget_asks rules c.series w (y.height + 1) g
      (l.dropWhile fun x ↦ !c.series.contains x) x n with
    ⟨target, htarget⟩ | ⟨average, haverage, hpos, -, hserve⟩
  · rw [htarget m] at hnext
    cases hnext
  rw [filter_dropWhile_not] at haverage hserve
  let own := (l.filter c.series.contains).drop (n % w)
  have htrue : ∀ a ∈ c.series.tag, IsAverage rules t a (own.headD g).hash average := by
    intro a ha
    cases hs : c.series with
    | untagged =>
      rw [hs] at ha
      cases ha
    | tagged b =>
      rw [hs] at ha hw haverage
      obtain rfl : b = a := Option.some.inj ha
      simp only [own, hs]
      exact isAverage_drop ht.sound hw hb _ haverage
  -- so what the memo serves is the average itself
  have hserved := ((sound_iff_holds.1 hm).serve c.series.tag
    (e := ⟨n / w, (own.headD g).hash, average, y.height + 1⟩) htrue).2 (decisive_isAverage ht.sound)
  rw [hserve m, hserved] at hnext
  cases hnext
  subst hn
  exact ⟨w, average, late, hpos, hw, haverage, rfl⟩

/-- On every grown tree with a sound memo, an average that stands for the reference takes in the
regular blocks from the block under the begun window down, genesis included, up to a whole window,
and keeps to the bounds. -/
theorem next_average_bounds (hf : rules.fault? = none) (ht : t.Grown) (hid : id < t.size)
    (hm : m.Sound rules t)
    (hnext : next rules c m (some (t.branch id)) = .ok (bits, some lookup, m')) :
    ∃ w average added, ∃ late : Int,
      let tip := t.branch id
      let passed := (reference rules.scheduleStart c.series.tag (tip.seek c.series.contains)).2
      let first := (tip.filter c.series.contains).drop (passed % w)
      window rules (rules.spacingOf c.series) = .ok w ∧
      averageFrom rules c.series w first = .ok average ∧
      bits = Absolute.bits rules c.series average late ∧
      regularBlocks (rules.isRegular c.series) first.root.bottom w (first.descent (w + 1)) =
      .ok added ∧
      added.length = min w ((first.descent (w + 1)).countP (rules.isRegular c.series)) ∧
      (added ≠ [] → Bounds w added average) := by
  obtain ⟨w, average, late, hpos, hw, haverage, hbits⟩ :=
    exists_average_of_lookup hf ht hid hm hnext
  obtain ⟨g, l, hbranch, -, -⟩ := ht.sound.exists_path hid
  rw [hbranch] at haverage ⊢
  rw [filter_genesis, drop_genesis, averageFrom_genesis, Except.ok.injEq] at haverage
  subst haverage
  refine ⟨w, _, _, late, hw, averageFrom_genesis .., hbits, regularBlocks_genesis .., ?_,
    fun hne ↦ ?_⟩
  · exact List.length_take.trans (congrArg _ List.countP_eq_length_filter.symm)
  · exact bounds_average hpos (List.length_take_le _ _) hne

/-- Windows of four blocks. -/
def fourBlocks : Rules := { Rules.testnet with timespan := 600 }

/-- Thirteen xevan blocks at minimum difficulty but for the twelfth, and genesis with the bits of
that one. -/
def relaxedLine : List Entry :=
  let block := BlockTree.numbered (Algorithm.version .xevan)
  block 0x1e0ffffe 13 :: block 0x1d0f0000 12 ::
    BlockTree.numberedLine (Algorithm.version .xevan) 0x1e0ffffe 11

def relaxedTree : BlockTree :=
  BlockTree.lineTree (BlockTree.numbered untaggedVersion 0x1d0f0000 0) relaxedLine

theorem hashes_relaxedLine :
    ((relaxedLine ++ [BlockTree.numbered untaggedVersion 0x1d0f0000 0]).map Entry.hash).Nodup := by
  decide +kernel

theorem grown_relaxedTree : relaxedTree.Grown :=
  (BlockTree.line_lineTree _ _ hashes_relaxedLine).grown

theorem lt_size_relaxedTree : 13 < relaxedTree.size :=
  (BlockTree.size_lineTree hashes_relaxedLine).symm ▸ (by decide)

theorem branch_relaxedTree :
    relaxedTree.branch 13 =
      BlockTree.lineBranch (BlockTree.numbered untaggedVersion 0x1d0f0000 0) relaxedLine :=
  BlockTree.branch_of_branches (BlockTree.branch_lineTree hashes_relaxedLine 0)

/-- The average is asked for, and no memo has it yet. -/
theorem next_relaxedTree : ∃ bits m',
    next fourBlocks (.ofTag (some .xevan) 8400) {} (some (relaxedTree.branch 13)) =
      .ok (bits, some .miss, m') := by
  have hlookup :
      (·.2.1) <$> next fourBlocks (.ofTag (some .xevan) 8400) {} (some (relaxedTree.branch 13)) =
      .ok (some .miss) := by
    rw [branch_relaxedTree]
    decide +kernel
  cases hnext : next fourBlocks (.ofTag (some .xevan) 8400) {} (some (relaxedTree.branch 13)) with
  | error => rw [hnext] at hlookup; cases hlookup
  | ok r =>
    rw [hnext] at hlookup
    obtain ⟨bits, lookup, m'⟩ := r
    obtain rfl : lookup = some .miss := Except.ok.inj hlookup
    exact ⟨bits, m', rfl⟩

theorem next_average_bounds_on_relaxedTree :
    let c : Candidate := .ofTag (some .xevan) 8400
    let tip := relaxedTree.branch 13
    let passed := (reference fourBlocks.scheduleStart c.series.tag (tip.seek c.series.contains)).2
    let first := (tip.filter c.series.contains).drop (passed % 4)
    relaxedTree.Grown ∧ ∃ bits m' average added, next fourBlocks c {} (some tip) =
      .ok (bits, some .miss, m') ∧
      averageFrom fourBlocks c.series 4 first = .ok average ∧ added.length = 2 ∧
      Bounds 4 added average := by
  intro c tip passed first
  have hvalid : fourBlocks.fault? = none := by decide +kernel
  have hmemo : ({} : AverageMemo).Sound fourBlocks relaxedTree := sound_of_empty rfl rfl
  obtain ⟨bits, m', hnext⟩ := next_relaxedTree
  obtain ⟨w, average, added, late, hw, haverage, -, -, hlen, hbounds⟩ :=
    next_average_bounds hvalid grown_relaxedTree lt_size_relaxedTree hmemo hnext
  have hfour : window fourBlocks (fourBlocks.spacingOf c.series) = .ok 4 := by decide +kernel
  obtain rfl : w = 4 := Except.ok.inj (hw.symm.trans hfour)
  have hcount : (first.descent 5).countP (fourBlocks.isRegular c.series) = 2 := by
    simp only [first, passed, tip, branch_relaxedTree]
    decide +kernel
  have hlen : added.length = 2 := hlen.trans (congrArg (min 4) hcount)
  have hne : added ≠ [] := List.ne_nil_of_length_pos (by omega)
  exact ⟨grown_relaxedTree, bits, m', average, added, hnext, haverage, hlen, hbounds hne⟩

/-- Two blocks fill half a window, and half their target stands for the reference. -/
theorem average_add_window_lt :
    let c : Candidate := .ofTag (some .xevan) 8400
    let tip := relaxedTree.branch 13
    let passed := (reference fourBlocks.scheduleStart c.series.tag (tip.seek c.series.contains)).2
    let first := (tip.filter c.series.contains).drop (passed % 4)
    fourBlocks.fault? = none ∧ relaxedTree.Grown ∧ 13 < relaxedTree.size ∧
      window fourBlocks (fourBlocks.spacingOf c.series) = .ok 4 ∧
      (∃ bits m', next fourBlocks c {} (some tip) = .ok (bits, some .miss, m')) ∧
      ∃ added average,
        regularBlocks (fourBlocks.isRegular c.series) first.root.bottom 4 (first.descent 5) =
          .ok added ∧
        averageFrom fourBlocks c.series 4 first = .ok average ∧ added ≠ [] ∧
        ∀ x ∈ added, average + 4 < CompactForm.target x.bits := by
  intro c tip passed first
  let block : Block := BlockTree.numberedBlock (Algorithm.version .xevan) 0x1d0f0000 12
  let genesis : Block := BlockTree.numberedBlock untaggedVersion 0x1d0f0000 0
  refine ⟨by decide +kernel, grown_relaxedTree, lt_size_relaxedTree, by decide +kernel,
    next_relaxedTree, [block, genesis], CompactForm.target 0x1d0f0000 / 2, ?_, ?_,
    List.cons_ne_nil _ _, by decide +kernel⟩
  all_goals
    simp only [first, passed, tip, branch_relaxedTree]
    decide +kernel

end HybridDifficulty.Absolute
