import HybridDifficulty.Proofs.LateTarget

/-!
The moving average that weighs the solve time double, after a newest block that came later. What it
caps rises with the solve time that it counts. With tags that is the time between the newest two
blocks; before tags a block that seems to be older than the one before it counts as one second late,
which puts it above a block of that one's second and above no other.
-/

namespace HybridDifficulty

open Branch

variable {rules : Rules} {t t' : BlockTree} {c : Candidate} {id : BlockId} {g x y : Block}
  {l r : List Block} {bits : UInt32} {time u v : Int}

namespace BlockTree

theorem lineBlocks_retime {es : List Entry} (h : es.length < id) (time : Int) :
    (lineBlocks es).map (Block.retime id time) = lineBlocks es := by
  induction es with
  | nil => rfl
  | cons e es ih =>
    rw [List.length_cons] at h
    rw [lineBlocks, List.map_cons, ih (by omega), Block.retime_of_ne (Nat.ne_of_lt h)]

/-- Another time of the newest block of a line changes the tree in that block alone. -/
theorem branch_lineTree_retime {g e : Entry} {es : List Entry}
    (h : ((e :: es ++ [g]).map Entry.hash).Nodup) (time : Int) (i : BlockId) :
    (lineTree g ({ e with time } :: es)).branch i =
      ((lineTree g (e :: es)).branch i).retime (es.length + 1) time := by
  have h' : (({ e with time } :: es ++ [g]).map Entry.hash).Nodup := h
  refine branch_lineTree_map (f := Branch.retime (es.length + 1) time) h h' rfl (fun _ ↦ rfl)
    (fun n ↦ ?_) i
  cases n with
  | zero =>
    simp only [List.drop_zero, lineBranch, lineBlocks, Branch.retime, List.map_cons, Root.retime]
    rw [lineBlocks_retime (Nat.lt_succ_self _), Block.retime, if_pos rfl,
      Block.retime_of_ne (Nat.zero_ne_add_one _)]
  | succ n =>
    have hlt : (es.drop n).length < es.length + 1 := by rw [List.length_drop]; omega
    simp only [List.drop_succ_cons, lineBranch, Branch.retime, Root.retime, lineBlocks_retime hlt]
    rw [Block.retime_of_ne (Nat.zero_ne_add_one _)]

/-- Another time of the newest block of a series is the only change among its newest two blocks. -/
theorem Sound.firstTwo_retime (hs : t.Sound) (hb : t.branches[id]? = some ⟨l, .genesis g⟩)
    (hl : Climbs g l) {s : Series} (h : firstTwo (l.filter s.contains) = some (x, y)) (time : Int) :
    firstTwo ((l.map (Block.retime x.id time)).filter s.contains) = some ({ x with time }, y) := by
  obtain ⟨r, hown⟩ := firstTwo_eq_some_iff.1 h
  have hmem : ∀ z ∈ x :: y :: r, z ∈ l ++ [g] := fun z hz ↦
    List.mem_append_left _ (List.mem_filter.1 (hown ▸ hz)).1
  -- the block below is another one of the path, so it has another id
  have hy : y.id ≠ x.id := by
    intro heq
    have hyx := hs.eq_of_id hb (hmem y (by simp)) (hmem x (by simp)) heq
    have hpair : (x :: y :: r).Pairwise fun x y ↦ y.height < x.height :=
      hown ▸ hl.pairwise.sublist List.filter_sublist
    exact absurd (hyx ▸ List.rel_of_pairwise_cons hpair List.mem_cons_self) (Nat.lt_irrefl _)
  rw [filter_map_retime, firstTwo_map, h, Option.map_some, Prod.map_apply, Block.retime_of_ne hy,
    Block.retime, if_pos rfl]

end BlockTree

namespace Ema

/-- The seconds that the time between the newest two blocks counts as. -/
def solveTime (isTagged : Bool) (elapsed : Int) : Int :=
  if !isTagged && elapsed < 0 then 1 else elapsed

/-- The target of the bits, scaled by a solve time in which the time between the blocks has twice
its weight. -/
def doubledRatio? (rules : Rules) (c : Candidate) (bits : UInt32) (elapsed : Int) : Option Nat :=
  let spacing := if c.isTagged then rules.spacingOf c.series else 60
  let interval := if c.isTagged then rules.timespan / spacing else 40
  rescale? (CompactForm.target bits)
    (max ((interval - 1) * spacing + 2 * solveTime c.isTagged elapsed) 1)
    ((interval + 1) * spacing)

/-- What the average that weighs the solve time double caps. -/
def doubledScaled? (rules : Rules) (c : Candidate) (tip : Branch) : Option Nat := do
  let (newest, before) ← firstTwo (tip.blocks.filter c.series.contains)
  doubledRatio? rules c newest.bits (newest.time - before.time)

/-- The one later time that counts less: before tags, the very second of a block that the newest one
seemed older than. -/
def CountsLess (isTagged : Bool) (u v : Int) : Prop := isTagged = false ∧ u < 0 ∧ v = 0

theorem solveTime_le_iff {isTagged : Bool} (h : u ≤ v) :
    solveTime isTagged u ≤ solveTime isTagged v ↔ ¬ CountsLess isTagged u v := by
  cases isTagged with
  | true => simpa [solveTime, CountsLess] using h
  | false =>
    simp only [solveTime, CountsLess, Bool.not_false, Bool.true_and, decide_eq_true_eq, true_and]
    split <;> split <;> omega

theorem doubledRatio?_mono (rules : Rules) (c : Candidate) (bits : UInt32)
    (h : solveTime c.isTagged u ≤ solveTime c.isTagged v) :
    (doubledRatio? rules c bits u).Rel (· ≤ ·) (doubledRatio? rules c bits v) :=
  rescale?_mono (by omega) (by omega)

theorem doubledStep_eq (hf : rules.fault? = none) (c : Candidate) (x y : Block) :
    doubledStep rules c.series c.isTagged x y =
      .ok (encodeBy c.isTagged
        (capAt (rules.limit c.series) (doubledRatio? rules c x.bits (x.time - y.time)))) := by
  obtain ⟨hspacing, htimespan, -⟩ := Rules.of_fault?_eq_none hf
  have hs := rules.spacingOf_pos hspacing c.series
  cases htagged : c.isTagged with
  | false =>
    simp only [doubledStep, doubledRatio?, solveTime, htagged]
    rfl
  | true =>
    simp only [doubledStep, doubledRatio?, solveTime, htagged, if_true, quotient_of_pos hs,
      Int.tdiv_eq_ediv_of_nonneg htimespan.le, ok_bind]
    rfl

theorem doubled_of_firstTwo_none (rules : Rules)
    (h : firstTwo (l.filter c.series.contains) = none) :
    doubledScaled? rules c ⟨l, .genesis g⟩ = none ∧
      doubled rules c (some ⟨l, .genesis g⟩) =
        .ok (encodeBy false (capAt (rules.limit c.series) none)) := by
  refine ⟨?_, onNewestTwo_of_firstTwo _ h⟩
  simp only [doubledScaled?, h]
  rfl

theorem doubled_of_firstTwo_some (hf : rules.fault? = none)
    (h : firstTwo (l.filter c.series.contains) = some (x, y)) :
    doubledScaled? rules c ⟨l, .genesis g⟩ = doubledRatio? rules c x.bits (x.time - y.time) ∧
      doubled rules c (some ⟨l, .genesis g⟩) =
        .ok (encodeBy c.isTagged
          (capAt (rules.limit c.series) (doubledRatio? rules c x.bits (x.time - y.time)))) := by
  simp only [doubledScaled?, doubled, onNewestTwo, newestTwo?_genesis, h, ok_bind]
  exact ⟨rfl, doubledStep_eq hf c x y⟩

/-- Where two grown trees differ only in the time of the newest block of the candidate's series,
which is later in the second, the average that weighs the solve time double sets no harder target on
the second, unless the later time is the one that counts less. -/
theorem doubled_notHarder_of_later (hf : rules.fault? = none) (ht : t.Grown) (hid : id < t.size)
    (hx : ((t.branch id).seek c.series.contains).top = .ok x) (hlater : x.time < time)
    (hdiff : ∀ i, t'.branch i = (t.branch i).retime x.id time)
    (hcounts : ∀ y, firstTwo ((t.branch id).blocks.filter c.series.contains) = some (x, y) →
      ¬ CountsLess c.isTagged (x.time - y.time) (time - y.time)) :
    NotHarder (rules.limit c.series) (doubledScaled? rules c (t.branch id))
      (doubled rules c (some (t.branch id))) (doubled rules c (some (t'.branch id))) := by
  obtain ⟨g, l, hbranch, hb, hl⟩ := ht.sound.exists_path hid
  have hafter : t'.branch id = ⟨l.map (Block.retime x.id time), .genesis (g.retime x.id time)⟩ := by
    rw [hdiff, hbranch]
    rfl
  rw [hbranch] at hx hcounts ⊢
  rw [hafter]
  rw [seek_genesis, top_genesis, headD_dropWhile_not, Except.ok.injEq] at hx
  cases hfirst : firstTwo (l.filter c.series.contains) with
  | none =>
    have hnone : firstTwo ((l.map (Block.retime x.id time)).filter c.series.contains) = none := by
      rw [filter_map_retime, firstTwo_map, hfirst]
      rfl
    obtain ⟨hvalue, hresult⟩ := doubled_of_firstTwo_none rules (g := g) hfirst
    exact notHarder_of_constant hvalue hresult (doubled_of_firstTwo_none rules hnone).2
  | some p =>
    obtain ⟨x', y⟩ := p
    obtain ⟨r, hown⟩ := firstTwo_eq_some_iff.1 hfirst
    rw [hown, List.headD_cons] at hx
    subst hx
    obtain ⟨hvalue, hbefore⟩ := doubled_of_firstTwo_some (g := g) hf hfirst
    obtain ⟨-, hafter⟩ := doubled_of_firstTwo_some (g := g.retime x'.id time) hf
      (ht.sound.firstTwo_retime hb hl hfirst time)
    have hsolve : solveTime c.isTagged (x'.time - y.time) ≤ solveTime c.isTagged (time - y.time) :=
      (solveTime_le_iff (by omega)).2 (hcounts y hfirst)
    refine ⟨_, _, hbefore, hafter, ⟨c.isTagged, by rw [hvalue]⟩, fun h0 ↦ ?_⟩
    rw [hvalue] at h0
    exact target_encodeBy_mono _ (capAt_mono (doubledRatio?_mono rules c x'.bits hsolve) h0)
      ((capAt_le _ _).trans_lt (rules.limit_lt _))

/-- A stake block of the time before tags. -/
def oldStake (time : Int) (n : UInt8) : Entry :=
  { BlockTree.numbered untaggedVersion 0x1d0f0000 n with time, stake := true }

/-- Two stake blocks, of which the first comes at 600 seconds and the second at the given time. -/
def oldStakeTree (time : Int) : BlockTree :=
  BlockTree.lineTree BlockTree.numberedGenesis [oldStake time 2, oldStake 600 1]

def oldStakeCandidate : Candidate := ⟨untaggedVersion, 660, true⟩

theorem hashes_oldStakeTree (time : Int) :
    (([oldStake time 2, oldStake 600 1] ++ [BlockTree.numberedGenesis]).map Entry.hash).Nodup := by
  change (([oldStake 0 2, oldStake 600 1] ++ [BlockTree.numberedGenesis]).map Entry.hash).Nodup
  decide

theorem branch_oldStakeTree (time : Int) :
    (oldStakeTree time).branch 2 =
      BlockTree.lineBranch BlockTree.numberedGenesis [oldStake time 2, oldStake 600 1] :=
  BlockTree.branch_of_branches (BlockTree.branch_lineTree (hashes_oldStakeTree time) 0)

/-- One second after its parent the block is no longer behind one that seemed older. -/
theorem doubled_notHarder_of_later_after_backdated :
    let c := oldStakeCandidate
    let before := (oldStakeTree 570).branch 2
    let after := (oldStakeTree 601).branch 2
    (oldStakeTree 570).Grown ∧ doubledScaled? .main c before ≠ some 0 ∧ ∃ bits bits',
      doubled .main c (some before) = .ok bits ∧ doubled .main c (some after) = .ok bits' ∧
        CompactForm.target bits ≤ CompactForm.target bits' := by
  intro c before after
  have hgrown : (oldStakeTree 570).Grown :=
    (BlockTree.line_lineTree _ _ (hashes_oldStakeTree 570)).grown
  have hsize : 2 < (oldStakeTree 570).size := by
    rw [oldStakeTree, BlockTree.size_lineTree (hashes_oldStakeTree 570)]
    decide
  have hbranch := branch_oldStakeTree 570
  let x : Block := { oldStake 570 2 with id := 2, height := 2 }
  let y : Block := { oldStake 600 1 with id := 1, height := 1 }
  have hx : (((oldStakeTree 570).branch 2).seek c.series.contains).top = .ok x := by
    rw [hbranch]
    decide
  have hcounts : ∀ z, firstTwo (((oldStakeTree 570).branch 2).blocks.filter c.series.contains) =
      some (x, z) →
      ¬ CountsLess c.isTagged (x.time - z.time) (601 - z.time) := by
    have hown : firstTwo (((oldStakeTree 570).branch 2).blocks.filter c.series.contains) =
        some (x, y) := by
      rw [hbranch]
      decide
    rintro z hz ⟨-, -, hlevel⟩
    rw [hown] at hz
    cases hz
    exact absurd hlevel (by decide)
  have hvalue : doubledScaled? .main c before ≠ some 0 := by
    simp only [before, hbranch]
    decide +kernel
  have hvalid : Rules.main.fault? = none := by decide +kernel
  obtain ⟨bits, bits', hbits, hbits', -, hle⟩ :=
    doubled_notHarder_of_later hvalid hgrown hsize hx (by decide)
    (BlockTree.branch_lineTree_retime (hashes_oldStakeTree 570) 601) hcounts
  exact ⟨hgrown, hvalue, bits, bits', hbits, hbits', hle hvalue⟩

/-- Half a minute before its parent a block counts as one second late, in its parent's second as not
late at all. -/
theorem doubled_harder_after_later :
    let c := oldStakeCandidate
    let before := (oldStakeTree 570).branch 2
    let after := (oldStakeTree 600).branch 2
    Rules.main.fault? = none ∧ c.series = .untagged true ∧ (oldStakeTree 570).Grown ∧
      (oldStakeTree 600).Grown ∧ 2 < (oldStakeTree 570).size ∧
      (∃ x, (before.seek c.series.contains).top = .ok x ∧ x.time < 600 ∧
        ∀ i, (oldStakeTree 600).branch i = ((oldStakeTree 570).branch i).retime x.id 600) ∧
      doubledScaled? .main c before ≠ some 0 ∧
      ∃ bits bits', doubled .main c (some before) = .ok bits ∧
        doubled .main c (some after) = .ok bits' ∧
        CompactForm.target bits' < CompactForm.target bits := by
  intro c before after
  have hgrown (time : Int) : (oldStakeTree time).Grown :=
    (BlockTree.line_lineTree _ _ (hashes_oldStakeTree time)).grown
  have hsize : 2 < (oldStakeTree 570).size := by
    rw [oldStakeTree, BlockTree.size_lineTree (hashes_oldStakeTree 570)]
    decide
  have hbefore : before = _ := branch_oldStakeTree 570
  have hafter : after = _ := branch_oldStakeTree 600
  refine ⟨by decide +kernel, by decide, hgrown 570, hgrown 600, hsize, ?_, ?_, 0x1d0e47ce,
    0x1d0e44ae, ?_, ?_, ?_⟩
  · refine ⟨{ oldStake 570 2 with id := 2, height := 2 }, ?_, by decide,
      BlockTree.branch_lineTree_retime (hashes_oldStakeTree 570) 600⟩
    rw [hbefore]
    decide
  · rw [hbefore]
    decide +kernel
  · rw [hbefore]
    decide +kernel
  · rw [hafter]
    decide +kernel
  · decide +kernel

end Ema

end HybridDifficulty
