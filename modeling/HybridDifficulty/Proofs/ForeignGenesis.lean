import HybridDifficulty.Proofs.MemoTransparency
import HybridDifficulty.Proofs.SteadyTarget

/-!
What a scheduled target takes from genesis. Walks that run out of blocks of the series end at
genesis, whose bits and time then count as those of a block of the series. They do not enter where
two blocks of the series lie below the start height and an average finds a whole window of regular
ones.
-/

namespace HybridDifficulty

open Branch

def Root.regenesis (bits : UInt32) (time : Int) : Root → Root
  | .genesis g => .genesis { g with bits, time }
  | .lost id => .lost id
  | .circle ring => .circle ring

/-- The branch over a genesis with other bits and another time. -/
def Branch.regenesis (bits : UInt32) (time : Int) (b : Branch) : Branch :=
  ⟨b.blocks, b.root.regenesis bits time⟩

variable {rules : Rules} {c : Candidate} {a : Algorithm} {t t' : BlockTree} {id : BlockId}
  {l own : List Block} {bits : UInt32} {time : Int} {w n height : Nat}

/-- Other bits and another time of genesis change a line in genesis alone. -/
theorem BlockTree.branch_lineTree_regenesis {g : Entry} {es : List Entry}
    (h : ((es ++ [g]).map Entry.hash).Nodup) (bits : UInt32) (time : Int) (i : BlockId) :
    (lineTree { g with bits, time } es).branch i =
      ((lineTree g es).branch i).regenesis bits time := by
  have h' : ((es ++ [{ g with bits, time }]).map Entry.hash).Nodup := by
    rw [List.map_append] at h ⊢
    exact h
  exact branch_lineTree_map (f := Branch.regenesis bits time) h h' rfl (fun _ ↦ rfl) (fun _ ↦ rfl) i

namespace Absolute

/-- A series that can do without genesis for the candidate at the height: two of its blocks lie
below the schedule, and an average finds as many regular blocks as it takes in. -/
structure Sufficient (rules : Rules) (a : Algorithm) (height : Nat) (own : List Block) : Prop where
  two_le_early : rules.scheduleStart ≤ height →
    2 ≤ own.countP fun x ↦ x.height < rules.scheduleStart
  window_le : ∀ w, window rules (rules.spacingOf (.tagged a)) = .ok w →
    min (rules.scheduleStart + w) (UInt32.size - 1) ≤ height → w ≤ passed rules.scheduleStart own →
    w ≤ (wholeWindows rules.scheduleStart w own).countP (rules.isRegular (.tagged a))

theorem averageFrom_congr_genesis {s : Series} (h : w ≤ own.countP (rules.isRegular s))
    (g g' : Block) :
    averageFrom rules s w ⟨own, .genesis g⟩ = averageFrom rules s w ⟨own, .genesis g'⟩ := by
  have htake (g : Block) : ((own ++ [g]).filter (rules.isRegular s)).take w =
      (own.filter (rules.isRegular s)).take w := by
    rw [List.filter_append]
    exact List.take_append_of_le_length (List.countP_eq_length_filter ▸ h)
  rw [averageFrom_genesis, averageFrom_genesis, htake, htake]

theorem referenceTarget_congr_genesis (hown : own.filter (Series.tagged a).contains = own)
    (h : min (rules.scheduleStart + w) (UInt32.size - 1) ≤ height → w ≤ n →
      w ≤ (own.drop (n % w)).countP (rules.isRegular (.tagged a)))
    (m : AverageMemo) (g g' x : Block) :
    referenceTarget rules (.tagged a) m w height ⟨own, .genesis g⟩ x n =
      referenceTarget rules (.tagged a) m w height ⟨own, .genesis g'⟩ x n := by
  simp only [referenceTarget]
  split
  · next huse =>
    have hfull := h huse.2.1 huse.2.2
    -- a whole window begins with a block of the series, so the anchor is not genesis either
    obtain ⟨y, r, hdrop⟩ : ∃ y r, own.drop (n % w) = y :: r :=
      List.exists_cons_of_length_pos
        ((Nat.pos_of_ne_zero huse.1).trans_le (hfull.trans List.countP_le_length))
    simp only [filter_genesis, hown, drop_genesis, top_genesis, ok_bind,
      averageFrom_congr_genesis hfull g g']
    rw [hdrop]
    rfl
  · rfl

/-- A series that can do without genesis has one target over any genesis. -/
theorem Sufficient.nextOf_congr (hr : 0 < rules.spacing)
    (h : Sufficient rules a height (ownBlocks a l)) (m : AverageMemo) (g g' : Block) :
    nextOf rules a m height g (ownBlocks a l) = nextOf rules a m height g' (ownBlocks a l) := by
  have hown : (ownBlocks a l).filter (Series.tagged a).contains = ownBlocks a l := by
    simp only [ownBlocks, List.filter_filter, Bool.and_self]
  generalize ownBlocks a l = own at *
  obtain ⟨w, hw⟩ := window_ok rules (rules.spacingOf_pos hr (.tagged a))
  rw [nextOf, nextOf]
  cases firstTwo own with
  | none => rfl
  | some p =>
    simp only [hw, ok_bind]
    split
    · rfl
    · next hheight =>
      -- the reference and the block before it are blocks of the series
      have hearly :=
        (h.two_le_early (Nat.not_lt.1 hheight)).trans (countP_le_length_fromReference _ _)
      obtain ⟨x, y, r, hlower⟩ := exists_cons_cons hearly
      have hstart (g : Block) : startOf (rules.spacingOf (.tagged a)) g (x :: y :: r) =
          y.time := rfl
      have htarget := referenceTarget_congr_genesis hown (h.window_le w hw) m g g' x
      simp only [hlower, List.headD_cons, hstart, htarget]

/-- Where two trees differ only in the bits and the time of genesis, a series that can do without
genesis has the same scheduled target in both, whatever the memo holds. -/
theorem next_eq_of_regenesis (hf : rules.fault? = none) (ht : t.Grown) (hid : id < t.size)
    (hdiff : ∀ i, t'.branch i = (t.branch i).regenesis bits time) (hc : c.algorithm? = some a)
    {tip : Block} (htip : (t.branch id).top = .ok tip)
    (h : Sufficient rules a (tip.height + 1) (ownBlocks a (t.branch id).blocks)) (m : AverageMemo) :
    ∃ r, next rules c m (some (t.branch id)) = .ok r ∧
      next rules c m (some (t'.branch id)) = .ok r := by
  obtain ⟨g, l, hbranch, -, -⟩ := ht.sound.exists_path hid
  have hgrounded : ∀ b ∈ some (t.branch id), b.Grounded := fun b hb ↦
    Option.some.inj hb ▸ ht.sound.grounded (BlockTree.branches_of_lt hid)
  obtain ⟨bits', lookup, m', hnext, -⟩ := next_capped (c := c) (Rules.spacing_pos hf) m hgrounded
  have hafter : t'.branch id = ⟨l, .genesis { g with bits, time }⟩ := by
    rw [hdiff, hbranch]
    rfl
  have hheight : (l.headD { g with bits, time }).height = (l.headD g).height := by cases l <;> rfl
  refine ⟨_, hnext, ?_⟩
  rw [hbranch] at htip h hnext
  rw [top_genesis, Except.ok.injEq] at htip
  subst htip
  rw [hafter, next_tagged hc, hheight, h.nextOf_congr (Rules.spacing_pos hf) m _ g,
    ← next_tagged hc]
  exact hnext

theorem next_eq_of_regenesis_on_line :
    let c : Candidate := .ofTag (some .xevan) 7800
    let genesis := BlockTree.numberedGenesis
    let line := BlockTree.numberedLine (Algorithm.version .xevan) 0x1d0f0000 12
    let t := BlockTree.lineTree genesis line
    let t' := BlockTree.lineTree { genesis with bits := 0x1d0f0000, time := -600 } line
    t.Grown ∧ ∃ r, next .testnet c .disabled (some (t.branch 12)) = .ok r ∧
      next .testnet c .disabled (some (t'.branch 12)) = .ok r := by
  intro c genesis line t t'
  have hhash : ((line ++ [genesis]).map Entry.hash).Nodup := by decide +kernel
  have hgrown : t.Grown := (BlockTree.line_lineTree _ _ hhash).grown
  have hid : 12 < t.size := (BlockTree.size_lineTree hhash).symm ▸ (by decide)
  have hb : t.branch 12 = _ := BlockTree.branch_of_branches (BlockTree.branch_lineTree hhash 0)
  have hwindow : window .testnet (Rules.testnet.spacingOf (.tagged .xevan)) = .ok 288 := by
    decide +kernel
  have hsufficient : Sufficient .testnet .xevan 13 (ownBlocks .xevan (t.branch 12).blocks) := by
    rw [hb]
    refine ⟨fun _ ↦ by decide +kernel, fun w hw huse _ ↦ ?_⟩
    -- the average starts a whole window above the schedule
    obtain rfl : w = 288 := Except.ok.inj (hw.symm.trans hwindow)
    exact absurd huse (by decide +kernel)
  have hc : c.algorithm? = some .xevan := Algorithm.ofVersion?_version .xevan
  have hvalid : Rules.testnet.fault? = none := by decide +kernel
  exact ⟨hgrown, next_eq_of_regenesis hvalid hgrown hid
    (BlockTree.branch_lineTree_regenesis hhash 0x1d0f0000 (-600)) hc
    (by rw [hb]; rfl) hsufficient .disabled⟩

/-- Ten stake blocks under two xevan blocks, so that xevan joins when the schedule of testnet has
begun. -/
def joinedLine : List Entry :=
  (BlockTree.numberedLine (Algorithm.version .xevan) 0x1d0f0000 12).take 2 ++
    BlockTree.numberedLine (Algorithm.version .stake) 0x1e00ffff 10

/-- With another genesis the first blocks of a series that joins late lead to another target. -/
theorem next_ne_of_regenesis :
    let c : Candidate := .ofTag (some .xevan) 7800
    let genesis := BlockTree.numbered untaggedVersion 0x1d0e0000 0
    let t := BlockTree.lineTree genesis joinedLine
    let t' := BlockTree.lineTree { genesis with bits := 0x1d0f0000, time := 0 } joinedLine
    Rules.testnet.fault? = none ∧ t.Grown ∧ t'.Grown ∧ 12 < t.size ∧
      (∀ i, t'.branch i = (t.branch i).regenesis 0x1d0f0000 0) ∧ c.algorithm? = some .xevan ∧
      Algorithm.ofVersion? genesis.version ≠ some .xevan ∧
      (∃ tip, (t.branch 12).top = .ok tip ∧ Rules.testnet.scheduleStart ≤ tip.height) ∧
      (ownBlocks .xevan (t.branch 12).blocks).length = 2 ∧
      ∃ bits bits', (·.1) <$> next .testnet c .disabled (some (t.branch 12)) = .ok bits ∧
        (·.1) <$> next .testnet c .disabled (some (t'.branch 12)) = .ok bits' ∧ bits ≠ bits' := by
  intro c genesis t t'
  have hhash : ((joinedLine ++ [genesis]).map Entry.hash).Nodup := by decide +kernel
  have hhash' :
      ((joinedLine ++ [{ genesis with bits := 0x1d0f0000, time := 0 }]).map Entry.hash).Nodup := by
    decide +kernel
  have hgrown : t.Grown := (BlockTree.line_lineTree _ _ hhash).grown
  have hgrown' : t'.Grown := (BlockTree.line_lineTree _ _ hhash').grown
  have hid : 12 < t.size := (BlockTree.size_lineTree hhash).symm ▸ (by decide)
  have hb : t.branch 12 = _ := BlockTree.branch_of_branches (BlockTree.branch_lineTree hhash 0)
  have hb' : t'.branch 12 = _ := BlockTree.branch_of_branches (BlockTree.branch_lineTree hhash' 0)
  have hdiff : ∀ i, t'.branch i = (t.branch i).regenesis 0x1d0f0000 0 :=
    BlockTree.branch_lineTree_regenesis hhash 0x1d0f0000 0
  have hc : c.algorithm? = some .xevan := Algorithm.ofVersion?_version .xevan
  refine ⟨by decide +kernel, hgrown, hgrown', hid, hdiff, hc, by decide +kernel,
    ⟨_, by rw [hb]; rfl, by decide +kernel⟩, ?_, 487550060, 487622260, ?_, ?_, by decide⟩
  · rw [hb]
    decide +kernel
  · rw [hb]
    decide +kernel
  · rw [hb']
    decide +kernel

end Absolute

end HybridDifficulty
