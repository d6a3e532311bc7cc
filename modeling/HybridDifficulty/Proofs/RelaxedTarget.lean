import HybridDifficulty.Proofs.SeriesView
import HybridDifficulty.Proofs.TreeGrowth
import HybridDifficulty.Rules.Presets

/-!
What minimum difficulty forces on the tip of a grown tree. It is the rule on the blocks of the
candidate's algorithm, whatever other blocks stand between them.
-/

namespace HybridDifficulty

open Branch CompactForm MinDifficulty

variable {rules : Rules} {c : Candidate} {a : Algorithm} {t : BlockTree} {id : BlockId}

/-- On every grown tree the forced bits of a tagged candidate are those that the blocks of its
algorithm give. -/
theorem choose_forced_iff (hrelaxed : rules.relaxed = true) (hr : rules.atCeiling = false)
    (ht : t.Grown) (hid : id < t.size) (hc : c.algorithm? = some a) (ha : rules.admits (some a)) :
    let own := (t.branch id).blocks.filter (·.algorithm? = some a)
    let marker := encode (rules.ceiling (some a)) - 1
    ∃ choice, choose rules c (some (t.branch id)) = .ok choice ∧
      (∀ bits, choice.forced = some (.minDifficulty, bits) ↔ Forced marker c.time own bits) ∧
      (∀ bits, choice.forced = some (.minDifficulty, bits) → (∀ x ∈ own.head?, ¬ IsLate c.time x) →
        bits ≠ marker ∧ ∃ y ∈ own, y.bits = bits) := by
  intro own marker
  obtain ⟨g, l, hbranch, -, hl⟩ := ht.sound.exists_path hid
  have hown : own = ownBlocks a l := by simp only [own, hbranch]; rfl
  obtain ⟨late, hlate⟩ := forced?_ok a (rules.ceiling (some a)) c.time g l
  have h0 : encode (rules.ceiling (some a)) ≠ 0 :=
    encode_ne_zero (rules.ceiling_lt _) (Rules.ceiling_pos ha)
  have hforced : ∀ bits, late.map (Forcing.minDifficulty, ·) = some (.minDifficulty, bits) ↔
      Forced marker c.time own bits := by
    intro bits
    calc late.map (Forcing.minDifficulty, ·) = some (.minDifficulty, bits)
      _ ↔ forced? a (rules.ceiling (some a)) c.time ⟨l, .genesis g⟩ = .ok (some bits) := by
        simp [hlate]
      _ ↔ Forced marker c.time own bits := by
        rw [forced?_eq_some_iff hl.root_height h0, marker_of_encode_ne_zero h0, ← hown]
  have hchoose : choose rules c (some (t.branch id)) = .ok {
      regime := rules.regimeAt ((l.headD g).height + 1) (Series.tagged a).isStake
      forced := late.map (.minDifficulty, ·) } := by
    rw [hbranch, choose_tagged hc ha hr, lateBits, if_pos hrelaxed, hlate, ok_bind]
    rfl
  refine ⟨_, hchoose, hforced, ?_⟩
  intro bits h hnot
  have h := (hforced bits).1 h
  generalize own = own at h hnot
  cases own with
  | nil => cases h
  | cons x r => exact h.exists_regular (hnot x rfl)

/-- Two markers with a regular block between them, and a block of another algorithm below that. -/
def markedLine : List Entry :=
  let block := BlockTree.numbered (Algorithm.version .xevan)
  [block 0x1e0ffffe 15, block 0x1d0e0000 14,
    BlockTree.numbered (Algorithm.version .stake) 0x1e00ffff 13, block 0x1e0ffffe 12] ++
      BlockTree.numberedLine (Algorithm.version .xevan) 0x1d0f0000 11

/-- The next xevan block below the regular one is itself a marker, so the regular one's bits are
handed out. -/
theorem choose_forced_iff_on_markers :
    let c : Candidate := .ofTag (some .xevan) 9600
    let t := BlockTree.lineTree BlockTree.numberedGenesis markedLine
    t.Grown ∧ t.size = 16 ∧ ∃ choice, choose .main c (some (t.branch 15)) = .ok choice ∧
      choice.forced = some (.minDifficulty, 0x1d0e0000) := by
  intro c t
  have hhash : ((markedLine ++ [BlockTree.numberedGenesis]).map Entry.hash).Nodup := by
    decide +kernel
  have hgrown : t.Grown := (BlockTree.line_lineTree _ _ hhash).grown
  have hsize : t.size = 16 := BlockTree.size_lineTree hhash
  have hb : t.branch 15 = _ := BlockTree.branch_of_branches (BlockTree.branch_lineTree hhash 0)
  have hid : 15 < t.size := hsize ▸ (by decide : 15 < 16)
  have hc : c.algorithm? = some .xevan := Algorithm.ofVersion?_version .xevan
  have hrelaxed : Rules.main.relaxed = true := rfl
  obtain ⟨choice, hchoice, hforced, -⟩ :=
    choose_forced_iff hrelaxed rfl hgrown hid hc (by decide +kernel)
  refine ⟨hgrown, hsize, choice, hchoice, (hforced 0x1d0e0000).2 ?_⟩
  let block (bits : UInt32) (n : UInt8) : Block :=
    BlockTree.numberedBlock (Algorithm.version .xevan) bits n
  have hnot : ¬ IsLate c.time (block 0x1e0ffffe 15) := by decide
  rw [hb]
  exact @Forced.reverted _ _ _ (block 0x1d0e0000 14) (block 0x1e0ffffe 12) _ _ hnot rfl rfl
    (by decide)

end HybridDifficulty
