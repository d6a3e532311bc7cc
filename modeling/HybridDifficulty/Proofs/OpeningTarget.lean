import HybridDifficulty.Proofs.CeilingBound
import HybridDifficulty.Proofs.TreeGrowth
import HybridDifficulty.Rules.Presets

/-!
The target of first blocks, and of all blocks where the rules keep to the ceiling. A requirement
reads it off the ceiling that proofs are checked against, while every strategy starts from the limit
of the series. These agree unless an untagged stake candidate has a limit of its own. The limit
holds for the first two blocks that a series has above genesis.
-/

namespace HybridDifficulty

open CompactForm

variable {rules : Rules} {c : Candidate} {tip? : Option Branch} {t : BlockTree}

/-- Every strategy gives the bits where there is no tip, and no memo is looked at. -/
structure StartsAt (rules : Rules) (c : Candidate) (bits : UInt32) : Prop where
  movingAverage : MovingAverage.next rules c none = .ok bits
  weighted : Ema.weighted rules c none = .ok bits
  doubled : Ema.doubled rules c none = .ok bits
  scheduled : ∀ m, Absolute.next rules c m none = .ok (bits, none, m)

theorem startsAt_limitBits (hr : 0 < rules.spacing) :
    StartsAt rules c (rules.limitBits c.series) where
  movingAverage := by
    obtain ⟨plan, hplan⟩ := MovingAverage.ofCandidate_ok (c := c) hr
    rw [MovingAverage.next, hplan, ok_bind]
    rfl
  weighted := rfl
  doubled := rfl
  scheduled _ := rfl

theorem requirement_at_ceiling (ha : rules.admits c.algorithm?)
    (h : tip? = none ∨ rules.atCeiling = true) (m : AverageMemo) :
    requirement rules c m tip? =
      .ok ({ bits := encode (rules.ceiling c.algorithm?), regime := .ceiling }, m) := by
  have htip : (if rules.atCeiling then none else tip?) = none := by
    rcases h with h | h
    · rw [h, ite_self]
    · rw [h, if_pos rfl]
  have hchoice : choose rules c tip? = .ok { regime := .ceiling } := by
    simp only [choose, ha, Bool.not_true, Bool.false_eq_true, if_false, htip]
    rfl
  rw [requirement, hchoice, ok_bind]
  rfl

theorem Candidate.algorithm?_of_untagged {stake : Bool} (h : c.series = .untagged stake) :
    c.algorithm? = none := by
  cases htag : c.algorithm? with
  | none => rfl
  | some a =>
    rw [c.series_of_tag htag] at h
    cases h

theorem Rules.limit_eq_ceiling_of_ne (h : c.series ≠ .untagged true) :
    rules.limit c.series = rules.ceiling c.algorithm? := by
  apply limit_eq_ceiling
  cases hs : c.series with
  | tagged a =>
    right
    refine Option.isSome_iff_ne_none.2 fun htag ↦ ?_
    rw [Candidate.series, htag] at hs
    cases hs
  | untagged stake =>
    left
    cases stake with
    | false => rfl
    | true => exact absurd hs h

/-- The opening target is the one of the strategies, and no easier than their limit, for all
candidates but the untagged stake ones; for these it is where the two ceilings allow it. -/
theorem opening_agrees_iff (hf : rules.fault? = none) (ha : rules.admits c.algorithm?)
    (h : tip? = none ∨ rules.atCeiling = true) (m : AverageMemo) :
    ∃ bits, requirement rules c m tip? = .ok ({ bits, regime := .ceiling }, m) ∧
      StartsAt rules c (rules.limitBits c.series) ∧
      (bits = rules.limitBits c.series ↔ (c.series = .untagged true →
        encode (rules.ceiling (some .xevan)) = encode (rules.ceiling (some .stake)))) ∧
      (target bits ≤ rules.limit c.series ↔ (c.series = .untagged true →
        target (encode (rules.ceiling (some .xevan))) ≤ rules.ceiling (some .stake))) := by
  have hreq := requirement_at_ceiling ha h m
  refine ⟨_, hreq, startsAt_limitBits (Rules.spacing_pos hf), ?_⟩
  by_cases hs : c.series = .untagged true
  · -- the proof of such a candidate is checked against the ceiling of xevan
    have hlimit : rules.limit c.series = rules.ceiling (some .stake) := by
      rw [hs]
      rfl
    have hceiling : rules.ceiling c.algorithm? = rules.ceiling (some .xevan) := by
      rw [Candidate.algorithm?_of_untagged hs]
      rfl
    rw [Rules.limitBits, hlimit, hceiling]
    exact ⟨(imp_iff_right hs).symm, (imp_iff_right hs).symm⟩
  · have hlimit : rules.limit c.series = rules.ceiling c.algorithm? :=
      Rules.limit_eq_ceiling_of_ne hs
    have hle : target (encode (rules.ceiling c.algorithm?)) ≤ rules.ceiling c.algorithm? := by
      rw [target_encode (rules.ceiling_lt _)]
      exact floor_le _
    rw [Rules.limitBits, hlimit]
    exact ⟨iff_of_true rfl fun hu ↦ absurd hu hs, iff_of_true hle fun hu ↦ absurd hu hs⟩

/-- On the regression network both ceilings are one, and no tip is looked at, not even one that
nobody holds. -/
theorem opening_agrees_iff_on_regtest :
    let c : Candidate := ⟨untaggedVersion, 0, true⟩
    let bits := Rules.regtest.limitBits c.series
    Rules.regtest.fault? = none ∧ Rules.regtest.admits c.algorithm? ∧
      Rules.regtest.atCeiling = true ∧ c.series = .untagged true ∧
      requirement .regtest c {} (some (.missing 7)) = .ok ({ bits, regime := .ceiling }, {}) := by
  intro c bits
  have hf : Rules.regtest.fault? = none := Rules.fault?_ofNetwork .regtest
  have ha : Rules.regtest.admits c.algorithm? := by decide +kernel
  have hc : some (Branch.missing 7) = none ∨ Rules.regtest.atCeiling = true := .inr rfl
  obtain ⟨bits', hreq, -, hbits, -⟩ := opening_agrees_iff hf ha hc {}
  have heq : bits' = bits := hbits.2 fun _ ↦ rfl
  exact ⟨hf, ha, rfl, by decide, heq ▸ hreq⟩

/-- On the main network the first block of an untagged stake candidate may be easier than any
strategy would allow. -/
theorem requirement_above_limit :
    let c : Candidate := ⟨untaggedVersion, 0, true⟩
    Rules.main.fault? = none ∧ Rules.main.admits c.algorithm? ∧
      requirement .main c {} none = .ok ({ bits := 0x1e0fffff, regime := .ceiling }, {}) ∧
      StartsAt .main c 0x1e00ffff ∧ Rules.main.limit c.series < target 0x1e0fffff := by
  intro c
  have ha : Rules.main.admits c.algorithm? := by decide +kernel
  have hreq := requirement_at_ceiling ha (.inl rfl) {}
  have hceiling : encode (Rules.main.ceiling c.algorithm?) = 0x1e0fffff := by decide +kernel
  have hlimit : Rules.main.limitBits c.series = 0x1e00ffff := by decide +kernel
  have hstart : StartsAt .main c (Rules.main.limitBits c.series) := startsAt_limitBits (by decide)
  rw [hceiling] at hreq
  rw [hlimit] at hstart
  exact ⟨Rules.fault?_ofNetwork .main, ha, hreq, hstart, by decide +kernel⟩

/-- Every strategy answers with the limit, and looks at no memo, until the tip's path has two blocks
of the candidate's series above genesis. -/
theorem limitBits_of_short (hf : rules.fault? = none) (ht : t.Grown) {id? : Option BlockId}
    (hid : ∀ id ∈ id?, id < t.size)
    (hshort : ∀ id ∈ id?, (t.branch id).blocks.countP c.series.contains < 2) :
    MovingAverage.next rules c (id?.map t.branch) = .ok (rules.limitBits c.series) ∧
      Ema.weighted rules c (id?.map t.branch) = .ok (rules.limitBits c.series) ∧
      Ema.doubled rules c (id?.map t.branch) = .ok (rules.limitBits c.series) ∧
      ∀ m, Absolute.next rules c m (id?.map t.branch) =
        .ok (rules.limitBits c.series, none, m) := by
  have hr := Rules.spacing_pos hf
  cases id? with
  | none =>
    have hstart : StartsAt rules c (rules.limitBits c.series) := startsAt_limitBits hr
    exact ⟨hstart.movingAverage, hstart.weighted, hstart.doubled, hstart.scheduled⟩
  | some id =>
    obtain ⟨g, l, hbranch, -⟩ := ht.sound.exists_path (hid id rfl)
    have hlength : (l.filter c.series.contains).length < 2 := by
      have h := hshort id rfl
      rwa [hbranch, List.countP_eq_length_filter] at h
    have hnone := Branch.firstTwo_eq_none_iff.2 hlength
    rw [Option.map_some, hbranch]
    exact ⟨MovingAverage.next_of_firstTwo_none hr hnone, Ema.onNewestTwo_of_firstTwo _ hnone,
      Ema.onNewestTwo_of_firstTwo _ hnone, Absolute.next_of_firstTwo_none hnone⟩

/-- A single xevan block among eleven of stake. -/
def loneLine : List Entry :=
  (BlockTree.numberedLine (Algorithm.version .stake) 0x1e00ffff 12).take 4 ++
    (BlockTree.numberedLine (Algorithm.version .xevan) 0x1d0f0000 8).take 1 ++
    BlockTree.numberedLine (Algorithm.version .stake) 0x1e00ffff 7

/-- Genesis carries the tag as well and still is no second block. -/
theorem limitBits_of_short_on_loneLine :
    let c : Candidate := .ofTag (some .xevan) 7800
    let t :=
      BlockTree.lineTree (BlockTree.numbered (Algorithm.version .xevan) 0x1d0f0000 0) loneLine
    Rules.testnet.fault? = none ∧ t.Grown ∧ 12 < t.size ∧
      (t.branch 12).blocks.countP c.series.contains = 1 ∧
      MovingAverage.next .testnet c (some (t.branch 12)) = .ok 0x1e0fffff ∧
      Absolute.next .testnet c {} (some (t.branch 12)) = .ok (0x1e0fffff, none, {}) := by
  intro c t
  have hhash :
      ((loneLine ++
        [BlockTree.numbered (Algorithm.version .xevan) 0x1d0f0000 0]).map Entry.hash).Nodup := by
    decide +kernel
  have hgrown : t.Grown := (BlockTree.line_lineTree _ _ hhash).grown
  have hid : 12 < t.size := (BlockTree.size_lineTree hhash).symm ▸ (by decide)
  have hvalid : Rules.testnet.fault? = none := Rules.fault?_ofNetwork .testnet
  have hcount : (t.branch 12).blocks.countP c.series.contains = 1 := by
    have hb : t.branch 12 = _ := BlockTree.branch_of_branches (BlockTree.branch_lineTree hhash 0)
    rw [hb]
    decide +kernel
  have hlimit : Rules.testnet.limitBits c.series = 0x1e0fffff := by decide +kernel
  have hknown : ∀ id ∈ some 12, id < t.size := fun id h ↦ Option.some.inj h ▸ hid
  have hshort : ∀ id ∈ some 12, (t.branch id).blocks.countP c.series.contains < 2 := fun id h ↦ by
    rw [← Option.some.inj h, hcount]
    decide
  obtain ⟨haverage, -, -, hscheduled⟩ := limitBits_of_short hvalid hgrown hknown hshort
  rw [hlimit] at haverage hscheduled
  exact ⟨hvalid, hgrown, hid, hcount, haverage, hscheduled {}⟩

end HybridDifficulty
