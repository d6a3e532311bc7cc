import HybridDifficulty.Proofs.MemoTransparency
import HybridDifficulty.Proofs.SeriesView

/-!
The schedule of a series is absolute. A branch that grows keeps its reference and counts each new
block once, and two tips that are equally far on one schedule have one target, whatever lies between
the reference and their newest blocks.
-/

namespace HybridDifficulty

open Branch

variable {rules : Rules} {c : Candidate} {a : Algorithm} {t : BlockTree} {g : Block}
  {l l' pre own : List Block}

theorem top_seek_tagged (a : Algorithm) (g : Block) (l : List Block) :
    (seek (Series.tagged a).contains ⟨l, .genesis g⟩).top = .ok ((ownBlocks a l).headD g) := by
  rw [seek_genesis, top_genesis, headD_dropWhile_not]

theorem Climbs.height_newest_le (hl : Climbs g l) (a : Algorithm) :
    ((ownBlocks a l).headD g).height ≤ l.length := by
  cases hown : ownBlocks a l with
  | nil => exact hl.root_height ▸ Nat.zero_le _
  | cons y r =>
    have hy : y ∈ ownBlocks a l := hown ▸ List.mem_cons_self
    exact hl.height_le_of_mem y (List.mem_filter.1 hy).1

theorem Climbs.height_le_newest (hl : Climbs g l) {x : Block} (hx : x ∈ ownBlocks a l) :
    x.height ≤ ((ownBlocks a l).headD g).height := by
  have hpair := hl.pairwise.sublist (List.filter_sublist (p := (Series.tagged a).contains))
  change (ownBlocks a l).Pairwise _ at hpair
  cases hown : ownBlocks a l with
  | nil => simp [hown] at hx
  | cons y r =>
    rw [hown] at hx hpair
    rcases List.mem_cons.1 hx with rfl | hx
    · exact le_rfl
    · exact (List.rel_of_pairwise_cons hpair hx).le

namespace Absolute

/-- The reference of a tip's schedule with what lies below it, and the number of blocks on the
schedule. -/
def scheduleOf (rules : Rules) (a : Algorithm) (tip : Branch) : Branch × Nat :=
  reference rules.scheduleStart (some a) (tip.seek (Series.tagged a).contains)

/-- Whether an average takes the place of the reference's own target. -/
def UsesAverage (rules : Rules) (a : Algorithm) (height passed : Nat) : Prop :=
  ∃ w, window rules (rules.spacingOf (.tagged a)) = .ok w ∧ w ≠ 0 ∧
    min (rules.scheduleStart + w) (UInt32.size - 1) ≤ height ∧ w ≤ passed

theorem scheduleOf_genesis (rules : Rules) (a : Algorithm) (g : Block) (l : List Block) :
    scheduleOf rules a ⟨l, .genesis g⟩ = (⟨lowerPart a rules.scheduleStart l, .genesis g⟩,
      passed rules.scheduleStart (ownBlocks a l)) := by
  rw [scheduleOf, seek_genesis, reference_tagged]

theorem lowerPart_append {start : Nat} (h : ∀ x ∈ pre, start ≤ x.height) :
    lowerPart a start (pre ++ l) = lowerPart a start l := by
  apply List.dropWhile_append_of_pos
  intro x hx
  simp [isEarly, h x hx]

theorem passed_append {start : Nat} (h : ∀ x ∈ pre, start ≤ x.height) :
    passed start (pre ++ own) = passed start own + pre.length := by
  have hpre : ∀ x ∈ pre, (!decide (x.height < start)) = true := fun x hx ↦ by simp [h x hx]
  rw [passed, passed, List.takeWhile_append_of_pos hpre, List.length_append]
  omega

/-- Since heights climb, the blocks between the newest ones of two tips on one path can be counted
by height. -/
theorem countP_between (hl : Climbs g (pre ++ l)) :
    (pre ++ l).countP (fun x ↦ x.algorithm? = some a ∧ ((ownBlocks a l).headD g).height < x.height ∧
      x.height ≤ ((ownBlocks a (pre ++ l)).headD g).height) = (ownBlocks a pre).length := by
  have hlow := hl.suffix (List.suffix_append pre l)
  have hbelow :
      l.countP (fun x ↦ x.algorithm? = some a ∧ ((ownBlocks a l).headD g).height < x.height ∧
      x.height ≤ ((ownBlocks a (pre ++ l)).headD g).height) = 0 := by
    rw [List.countP_eq_zero]
    intro x hx h
    obtain ⟨htag, hlt, -⟩ := of_decide_eq_true h
    exact absurd hlt (hlow.height_le_newest (List.mem_filter.2 ⟨hx, decide_eq_true htag⟩)).not_gt
  rw [List.countP_append, hbelow, Nat.add_zero, ownBlocks, ← List.countP_eq_length_filter]
  apply List.countP_congr
  intro x hx
  simp only [decide_eq_true_eq, Series.contains]
  refine ⟨fun h ↦ h.1, fun htag ↦ ⟨htag, ?_, ?_⟩⟩
  · exact (hlow.height_newest_le a).trans_lt (hl.length_lt_height hx)
  · exact hl.height_le_newest (List.mem_filter.2 ⟨List.mem_append_left l hx, decide_eq_true htag⟩)

/-- Above a newest block that is not early nothing moves the reference, and each block of the
algorithm counts. -/
theorem scheduleOf_append (hl : Climbs g (pre ++ l))
    (h : rules.scheduleStart ≤ ((ownBlocks a l).headD g).height) :
    scheduleOf rules a ⟨pre ++ l, .genesis g⟩ = ((scheduleOf rules a ⟨l, .genesis g⟩).1,
      (scheduleOf rules a ⟨l, .genesis g⟩).2 + (ownBlocks a pre).length) := by
  have hle := (hl.suffix (List.suffix_append pre l)).height_newest_le a
  have hpre : ∀ x ∈ pre, rules.scheduleStart ≤ x.height := fun x hx ↦
    (h.trans hle).trans (hl.length_lt_height hx).le
  simp only [scheduleOf_genesis, lowerPart_append hpre, ownBlocks, List.filter_append]
  rw [passed_append fun x hx ↦ hpre x (List.mem_filter.1 hx).1]

/-- Without an average the target follows from the reference, the count and the time of the newest
block. -/
theorem nextOf_of_not_usesAverage (hr : 0 < rules.spacing) {height : Nat}
    (hheight : rules.scheduleStart ≤ height)
    (h : ¬ UsesAverage rules a height (passed rules.scheduleStart own)) (m : AverageMemo) :
    nextOf rules a m height g own = .ok
      (if own.length < 2 then rules.limitBits (.tagged a)
       else
        let lower := fromReference rules.scheduleStart own
        let spacing := rules.spacingOf (.tagged a)
        bits rules (.tagged a) (CompactForm.target (lower.headD g).bits)
          ((own.headD g).time - startOf spacing g lower - spacing * passed rules.scheduleStart own),
       none, m) := by
  obtain ⟨w, hw⟩ := window_ok rules (rules.spacingOf_pos hr (.tagged a))
  have htarget (x : Block) (b : Branch) :
      referenceTarget rules (.tagged a) m w height b x (passed rules.scheduleStart own) =
        .ok (CompactForm.target x.bits, none, m) := by
    rw [referenceTarget]
    split
    · next hav => exact absurd ⟨w, hw, hav⟩ h
    · rfl
  rcases own with _ | ⟨x, _ | ⟨y, r⟩⟩
  · rfl
  · rfl
  · have hlen : ¬ (x :: y :: r).length < 2 := by simp
    simp only [nextOf, firstTwo, hw, ok_bind, if_neg hheight.not_gt, htarget, if_neg hlen,
      List.headD_cons]
    rfl

theorem length_eq_passed (start : Nat) (own : List Block) :
    own.length + 1 = passed start own + (fromReference start own).length := by
  have h := congrArg List.length (takeWhile_append_fromReference start own)
  rw [List.length_append] at h
  rw [passed]
  omega

/-- What a tip says about the schedule of an algorithm: its candidate's height, the newest block of
the algorithm on its path, the reference, and the number of blocks on the schedule. -/
structure Standing (rules : Rules) (a : Algorithm) (tip : Branch) (height : Nat)
    (newest reference : Block) (passed : Nat) : Prop where
  height_eq : ∃ x, tip.top = .ok x ∧ x.height + 1 = height
  newest_eq : (tip.seek (Series.tagged a).contains).top = .ok newest
  reference_eq : (scheduleOf rules a tip).1.top = .ok reference
  passed_eq : (scheduleOf rules a tip).2 = passed

/-- The schedules of an algorithm on a tree. -/
structure FixedSchedule (rules : Rules) (t : BlockTree) (c : Candidate) (a : Algorithm) : Prop where
  /-- From the start height on, a branch that grows keeps its reference and counts each new block
  once. -/
  grows : ∀ {id id' h h' p p' r r' n n'}, id' < t.size → t.Ancestor id id' →
    Standing rules a (t.branch id) h p r n → Standing rules a (t.branch id') h' p' r' n' →
    rules.scheduleStart ≤ p.height → rules.scheduleStart ≤ p'.height →
    r' = r ∧ n' = n + (t.branch id').blocks.countP fun x ↦
      x.algorithm? = some a ∧ p.height < x.height ∧ x.height ≤ p'.height
  /-- Where no average is in use, reference, count and newest time decide the target. -/
  decides : ∀ {id id' h h' p p' r n}, id < t.size → id' < t.size →
    Standing rules a (t.branch id) h p r n → Standing rules a (t.branch id') h' p' r n →
    p.time = p'.time → rules.scheduleStart ≤ h → rules.scheduleStart ≤ h' →
    ¬ UsesAverage rules a h n → ¬ UsesAverage rules a h' n →
    ∃ bits, ∀ m, next rules c m (some (t.branch id)) = .ok (bits, none, m) ∧
      next rules c m (some (t.branch id')) = .ok (bits, none, m)

theorem standing_genesis {height n : Nat} {newest reference : Block}
    (h : Standing rules a ⟨l, .genesis g⟩ height newest reference n) :
    height = (l.headD g).height + 1 ∧ newest = (ownBlocks a l).headD g ∧
      reference = (lowerPart a rules.scheduleStart l).headD g ∧
      n = passed rules.scheduleStart (ownBlocks a l) := by
  obtain ⟨⟨x, hx, hheight⟩, hnewest, hreference, hpassed⟩ := h
  rw [top_genesis, Except.ok.injEq] at hx
  rw [top_seek_tagged, Except.ok.injEq] at hnewest
  rw [scheduleOf_genesis] at hreference hpassed
  rw [top_genesis, Except.ok.injEq] at hreference
  exact ⟨by rw [hx, hheight], hnewest.symm, hreference.symm, hpassed.symm⟩

/-- One reference block stands for one lower part. -/
theorem lowerPart_eq_of_headD_eq (hs : t.Sound) {id id' : BlockId} {g' : Block} {start : Nat}
    (hb : t.branches[id]? = some ⟨l, .genesis g⟩) (hb' : t.branches[id']? = some ⟨l', .genesis g'⟩)
    (h : (lowerPart a start l).headD g = (lowerPart a start l').headD g') :
    g = g' ∧ lowerPart a start l = lowerPart a start l' := by
  have hlow := hs.branches_suffix hb (List.dropWhile_suffix fun x ↦ !isEarly a start x)
  have hlow' := hs.branches_suffix hb' (List.dropWhile_suffix fun x ↦ !isEarly a start x)
  change t.branches[((lowerPart a start l).headD g).id]? =
    some ⟨lowerPart a start l, .genesis g⟩ at hlow
  change t.branches[((lowerPart a start l').headD g').id]? =
    some ⟨lowerPart a start l', .genesis g'⟩ at hlow'
  rw [h, hlow', Option.some.injEq, Branch.mk.injEq, Root.genesis.injEq] at hlow
  exact ⟨hlow.2.symm, hlow.1.symm⟩

/-- On every grown tree the schedule of an algorithm is fixed by its reference. -/
theorem fixedSchedule_of_grown (hf : rules.fault? = none) (ht : t.Grown)
    (hc : c.algorithm? = some a) :
    FixedSchedule rules t c a := by
  have hs := ht.sound
  constructor
  · intro id id' h h' p p' r r' n n' hid' hanc hst hst' hp hp'
    obtain ⟨g, l', hbranch', hb', hl'⟩ := hs.exists_path hid'
    rw [hbranch'] at hst' ⊢
    obtain ⟨l, ⟨pre, rfl⟩, hb⟩ := hanc.exists_suffix hs hb'
    rw [BlockTree.branch_of_branches hb] at hst
    obtain ⟨-, hnewest, hreference, hpassed⟩ := standing_genesis hst
    obtain ⟨-, hnewest', hreference', hpassed'⟩ := standing_genesis hst'
    rw [hnewest] at hp
    have happend := scheduleOf_append hl' hp
    rw [scheduleOf_genesis, scheduleOf_genesis, Prod.mk.injEq, Branch.mk.injEq] at happend
    obtain ⟨⟨hlower, -⟩, hcount⟩ := happend
    refine ⟨by rw [hreference, hreference', hlower], ?_⟩
    rw [hnewest, hnewest', hpassed, hpassed', countP_between hl']
    exact hcount
  · intro id id' h h' p p' r n hid hid' hst hst' htime hh hh' hav hav'
    obtain ⟨g, l, hbranch, hb, -⟩ := hs.exists_path hid
    obtain ⟨g', l', hbranch', hb', -⟩ := hs.exists_path hid'
    rw [hbranch] at hst ⊢
    rw [hbranch'] at hst' ⊢
    obtain ⟨hheight, hnewest, hreference, hpassed⟩ := standing_genesis hst
    obtain ⟨hheight', hnewest', hreference', hpassed'⟩ := standing_genesis hst'
    obtain ⟨rfl, hlower⟩ := lowerPart_eq_of_headD_eq hs hb hb' (hreference ▸ hreference')
    -- one lower part and one count leave the two series equally long
    have hfrom : fromReference rules.scheduleStart (ownBlocks a l) =
        fromReference rules.scheduleStart (ownBlocks a l') := by
      rw [← ownBlocks_lowerPart, ← ownBlocks_lowerPart, hlower]
    have hlen : (ownBlocks a l).length = (ownBlocks a l').length := by
      have h₁ := length_eq_passed rules.scheduleStart (ownBlocks a l)
      have h₂ := length_eq_passed rules.scheduleStart (ownBlocks a l')
      rw [hfrom, ← hpassed] at h₁
      rw [← hpassed'] at h₂
      omega
    subst hheight hheight'
    rw [hpassed] at hav
    rw [hpassed'] at hav'
    have hnext m := nextOf_of_not_usesAverage (g := g) (Rules.spacing_pos hf) hh hav m
    have hnext' m := nextOf_of_not_usesAverage (g := g) (Rules.spacing_pos hf) hh' hav' m
    refine ⟨_, fun m ↦
      ⟨(next_tagged hc m g l).trans (hnext m), (next_tagged hc m g l').trans ((hnext' m).trans ?_)⟩⟩
    rw [hlen, hfrom, ← hpassed, ← hpassed', ← hnewest, ← hnewest', htime]

def sampleBlocks : List Entry := BlockTree.numberedLine (Algorithm.version .xevan) 0x1d0f0000 11

/-- Two blocks that fork a line, with one time and different bits. -/
def leftEntry : Entry := BlockTree.numbered (Algorithm.version .xevan) 0x1d0e0000 12

def rightEntry : Entry :=
  { BlockTree.numbered (Algorithm.version .xevan) 0x1d00ffff 13 with time := leftEntry.time }

def sampleFork : BlockTree :=
  BlockTree.forkTree BlockTree.numberedGenesis (leftEntry :: sampleBlocks) 1 rightEntry

theorem fixedSchedule_of_grown_on_fork :
    let c : Candidate := .ofTag (some .xevan) 7800
    let t := sampleFork
    t.Grown ∧ (t.branch 12).top ≠ (t.branch 13).top ∧
      (scheduleOf .testnet .xevan (t.branch 12)).2 = (scheduleOf .testnet .xevan (t.branch 11)).2 +
        (t.branch 12).blocks.countP
          (fun x ↦ x.algorithm? = some .xevan ∧ 11 < x.height ∧ x.height ≤ 12) ∧
      ∃ bits, ∀ m, next .testnet c m (some (t.branch 12)) = .ok (bits, none, m) ∧
        next .testnet c m (some (t.branch 13)) = .ok (bits, none, m) := by
  intro c t
  have hhash :
      ((rightEntry :: (leftEntry :: sampleBlocks) ++
        [BlockTree.numberedGenesis]).map Entry.hash).Nodup := by
    decide +kernel
  have hgrown : t.Grown := BlockTree.grown_forkTree 1 hhash
  obtain ⟨hright, hline⟩ := BlockTree.branches_forkTree 1 hhash
  have hb₁₁ : t.branch 11 = _ := BlockTree.branch_of_branches (hline 1)
  have hb₁₂ : t.branch 12 = _ := BlockTree.branch_of_branches (hline 0)
  have hb₁₃ : t.branch 13 = _ := BlockTree.branch_of_branches hright
  have hlt₁₂ : 12 < t.size := BlockTree.lt_of_branches (hline 0)
  have hlt₁₃ : 13 < t.size := BlockTree.lt_of_branches hright
  have hf : Rules.testnet.fault? = none := by decide +kernel
  have hfixed : FixedSchedule .testnet t c .xevan :=
    fixedSchedule_of_grown hf hgrown (Algorithm.ofVersion?_version .xevan)
  -- every schedule begins with block 9, the last one below height 10
  let block (n : UInt8) : Block := BlockTree.numberedBlock (Algorithm.version .xevan) 0x1d0f0000 n
  have h₁₁ : Standing .testnet .xevan (t.branch 11) 12 (block 11) (block 9) 3 := by
    rw [hb₁₁]
    exact ⟨⟨_, rfl, rfl⟩, rfl, rfl, rfl⟩
  have h₁₂ : Standing .testnet .xevan (t.branch 12) 13 { leftEntry with id := 12, height := 12 }
      (block 9) 4 := by
    rw [hb₁₂]
    exact ⟨⟨_, rfl, rfl⟩, rfl, rfl, rfl⟩
  have h₁₃ : Standing .testnet .xevan (t.branch 13) 13 { rightEntry with id := 13, height := 12 }
      (block 9) 4 := by
    rw [hb₁₃]
    exact ⟨⟨_, rfl, rfl⟩, rfl, rfl, rfl⟩
  have hanc : t.Ancestor 11 12 := .step (by rw [hb₁₂]; rfl) .refl
  have haverage : ¬ UsesAverage .testnet .xevan 13 4 := by
    rintro ⟨w, hw, -, -, hle⟩
    obtain rfl : 288 = w := Except.ok.inj hw
    omega
  refine ⟨hgrown, ?_, ?_, ?_⟩
  · rw [hb₁₂, hb₁₃]
    decide
  · rw [h₁₁.passed_eq, h₁₂.passed_eq]
    exact (hfixed.grows hlt₁₂ hanc h₁₁ h₁₂ (by decide) (by decide)).2
  · exact hfixed.decides hlt₁₂ hlt₁₃ h₁₂ h₁₃ rfl (by decide) (by decide) haverage haverage

end Absolute

end HybridDifficulty
