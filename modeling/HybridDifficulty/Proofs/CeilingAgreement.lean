import HybridDifficulty.ProofCheck
import HybridDifficulty.Proofs.CeilingBound
import HybridDifficulty.Proofs.TreeGrowth
import HybridDifficulty.Rules.Presets

/-!
Whether every computed target can be met: proofs are checked against the ceiling itself, while a
target at the ceiling is rounded after it was capped. The two agree unless rounding takes a ceiling
up.
-/

namespace HybridDifficulty

open Branch CompactForm

variable {rules : Rules} {c : Candidate} {tip? : Option Branch} {a : Algorithm} {bits : UInt32}

theorem verifyWork_zero_iff {tag : Option Algorithm} (ht : tag ≠ some .stake)
    (ha : rules.admits tag) :
    verifyWork rules 0 bits tag = .ok () ↔ Within (rules.ceiling tag) bits := by
  simp only [verifyWork, if_neg ht, ha, Within, target]
  cases (decode bits).isValid with
  | false => simp
  | true => simp

namespace Ema

theorem capAt_rescale_zero (limit : Nat) (num den : Int) :
    capAt limit (rescale? 0 num den) = limit := by
  rw [rescale?]
  split
  · rfl
  · rw [Nat.zero_mul, Nat.zero_div]
    rfl

theorem weighted_of_zero (hr : 0 < rules.spacing) {tip : Branch} {x y : Block}
    (ht : tip.newestTwo? c.series.contains = .ok (some (x, y))) (hx : x.bits = 0) :
    weighted rules c (some tip) = .ok (encodeRounded (rules.limit c.series)) := by
  have hs := rules.spacingOf_pos hr c.series
  have hzero : target 0 = 0 := by decide
  simp only [weighted, onNewestTwo, ht, ok_bind, weightedStep, hx, hzero, capAt_rescale_zero,
    quotient_of_pos (by omega : 0 < rules.spacingOf c.series * 2)]
  rfl

end Ema

theorem MovingAverage.Plan.bits_of_nonpos {plan : Plan} (hc : plan.isTagged = true)
    (h : plan.length * plan.spacing ≤ 0) (limit : Nat) (samples : List Block) (elapsed : Int) :
    plan.bits limit samples elapsed = encodeRounded limit := by
  have hideal : (plan.times elapsed).2 ≤ 0 := by
    rw [times]
    split
    · exact Int.mul_nonpos_of_nonneg_of_nonpos (by decide) h
    · exact h
  simp only [bits, hc, encodeBy_true, rescale?, if_pos (Or.inr hideal)]
  rfl

variable {tip : Branch} {x y : Block}

theorem MovingAverage.next_of_zero (hr : 0 < rules.spacing) (hc : c.isTagged = true)
    (htop : tip.top = .ok x) (hheight : x.height = 2)
    (ht : tip.newestTwo? c.series.contains = .ok (some (x, y))) (hx : x.bits = 0) :
    next rules c (some tip) = .ok (encodeRounded (rules.limit c.series)) := by
  have hs := rules.spacingOf_pos hr c.series
  simp only [next, Plan.ofCandidate, hc, if_true, quotient_of_pos hs, ok_bind, ht, htop, hheight]
  generalize hlen : (rules.timespan.tdiv (rules.spacingOf c.series)).tdiv 4 = length
  simp only [pure_bind, Plan.minHeight, if_true]
  split
  · exact Ema.weighted_of_zero hr ht hx
  · next hshort =>
    have hle : length ≤ 0 := by
      have h2 : ((2 : Nat) : Int) = 2 := rfl
      omega
    have hideal : length * rules.spacingOf c.series ≤ 0 :=
      Int.mul_nonpos_of_nonpos_of_nonneg hle hs.le
    rw [Int.toNat_of_nonpos hle]
    simp only [Plan.sample, ok_bind]
    exact congrArg Except.ok (Plan.bits_of_nonpos rfl hideal _ _ _)

theorem Absolute.next_of_zero (hr : 0 < rules.spacing) (htop : tip.top = .ok x)
    (hheight : x.height = 2) (ht : tip.newestTwo? c.series.contains = .ok (some (x, y)))
    (hx : x.bits = 0) (m : AverageMemo) :
    next rules c m (some tip) = .ok (encodeRounded (rules.limit c.series), none, m) := by
  obtain ⟨w, hw⟩ := window_ok rules (rules.spacingOf_pos hr c.series)
  have hstart : x.height + 1 < rules.scheduleStart := by
    rw [hheight, Rules.scheduleStart, UInt32.size]
    omega
  simp only [next, ht, htop, hw, ok_bind, if_pos hstart, Ema.weighted_of_zero hr ht hx]
  rfl

namespace Candidate

variable (a) (time : Int)

theorem algorithm?_ofTag : (ofTag (some a) time).algorithm? = some a :=
  Algorithm.ofVersion?_version a

end Candidate

theorem CompactForm.marker_ne_zero {v : Nat} (hv : v < 2 ^ 256) (h : 2 ≤ v) : marker v ≠ 0 := by
  have hw := (within_marker hv h).1
  intro h0
  rw [h0] at hw
  exact absurd hw (by decide)

/-- The rule on late blocks looks at blocks that are higher. -/
theorem MinDifficulty.forced?_of_low {limit : Nat} {time : Int} {l r : List Block} {g : Block}
    (hown : l.filter (Series.tagged a).contains = x :: r) (hx : x.height ≤ minDifficultyHeight)
    (hbits : x.bits ≠ CompactForm.marker limit) :
    forced? a limit time ⟨l, .genesis g⟩ = .ok none :=
  forced?_of_regular hown (fun h ↦ Nat.not_lt.2 hx h.1) hbits

theorem Rules.regimeAt_work (rules : Rules) (height : Nat) :
    rules.regimeAt height false = .scheduled ∨ rules.regimeAt height false = .movingAverage := by
  unfold regimeAt
  split
  · exact .inl rfl
  · exact .inr rfl

/-- Above two blocks of a work algorithm, the newest with bits zero, nothing is forced and the
target is the rounded ceiling. -/
theorem requirement_of_zero (hr : 0 < rules.spacing) (hc : rules.atCeiling = false)
    (ha : a.isWork = true) (h2 : 2 ≤ (rules.ceilings.get a).1) {g : Block}
    (hb : Grounded ⟨[x, y], .genesis g⟩) (hx : x.algorithm? = some a) (hy : y.algorithm? = some a)
    (hbits : x.bits = 0) (time : Int) (m : AverageMemo) :
    ∃ r, requirement rules (.ofTag (some a) time) m (some ⟨[x, y], .genesis g⟩) = .ok (r, m) ∧
      r.forced = none ∧ r.bits = encodeRounded (rules.ceilings.get a) := by
  let c : Candidate := .ofTag (some a) time
  have htag : c.algorithm? = some a := Candidate.algorithm?_ofTag a time
  have hseries := c.series_of_tag htag
  have hlimit := rules.limit_of_tag htag
  have htagged : c.isTagged = true := Candidate.isTagged_of_tag htag
  have hstake : c.series.isStake = false := by
    rw [hseries]
    exact decide_eq_false (of_decide_eq_true ha)
  have hadmits : rules.admits c.algorithm? := by
    rw [htag]
    exact decide_eq_true (show (rules.ceilings.get a).1 ≠ 0 by omega)
  have hheight : x.height = 2 := by
    obtain ⟨h⟩ := hb
    exact h.top_height
  have hown : [x, y].filter (Series.tagged a).contains = [x, y] := by
    have hx : (Series.tagged a).contains x = true := decide_eq_true hx
    have hy : (Series.tagged a).contains y = true := decide_eq_true hy
    rw [List.filter_cons_of_pos hx, List.filter_cons_of_pos hy, List.filter_nil]
  have htwo : newestTwo? c.series.contains ⟨[x, y], .genesis g⟩ = .ok (some (x, y)) := by
    rw [hseries, newestTwo?_genesis, hown, firstTwo]
  have hforces : ∀ kind bits, ¬ Forces rules c ⟨[x, y], .genesis g⟩ kind bits := by
    rintro kind bits h
    cases h with
    | @minDifficulty a' bits htag' hforced =>
      obtain rfl : a = a' := Option.some.inj (htag.symm.trans htag')
      have hmarker : x.bits ≠ CompactForm.marker (rules.ceiling (some a)) :=
        hbits ▸ (marker_ne_zero (rules.ceiling_lt (some a)) h2).symm
      rw [MinDifficulty.forced?_of_low hown (by rw [hheight]; decide) hmarker] at hforced
      cases hforced
    | historical hfixed =>
      have h := (Rules.exists_of_fixedBits? hfixed).1
      rw [hseries] at h
      cases h
  rcases choose_cases hadmits (fun _ h ↦ Option.some.inj h ▸ hb) with
    ⟨h | h, -⟩ | ⟨-, tip, height, htip, hch | ⟨kind, bits, h, -⟩⟩
  · rw [hc] at h
    cases h
  · cases h
  · change ∃ r, requirement rules c m _ = .ok (r, m) ∧ _
    rw [requirement, hch, ok_bind, hstake]
    rcases rules.regimeAt_work height with hreg | hreg <;> rw [hreg]
    · have hnext := Absolute.next_of_zero hr rfl hheight htwo hbits m
      simp only [settle, hnext, ok_bind]
      exact ⟨_, rfl, rfl, congrArg encodeRounded hlimit⟩
    · have hnext := MovingAverage.next_of_zero hr htagged rfl hheight htwo hbits
      simp only [settle, hnext, ok_bind]
      exact ⟨_, rfl, rfl, congrArg encodeRounded hlimit⟩
  · exact absurd (Option.some.inj htip ▸ h) (hforces kind bits)

theorem Accounted.within_ceiling (hf : rules.fault? = none) (hs : c.series.isStake = false)
    (ha : rules.admits c.algorithm?)
    (hn : rules.atCeiling = true ∨ nearest (rules.limit c.series) ≤ rules.limit c.series)
    {r : Requirement} (h : Accounted rules c tip? r) (hforced : r.forced = none) :
    Within (rules.ceiling c.algorithm?) r.bits := by
  cases h with
  | ceiling => exact within_encode (rules.ceiling_lt _) (Rules.ceiling_pos ha) le_rfl
  | computed hc hcap =>
    rw [hc] at hn
    exact Rules.limit_eq_ceiling (.inl hs) ▸ hcap.within (hn.resolve_left Bool.false_ne_true)
      (Rules.limit_pos hf ha)
  | forced => cases hforced

theorem Series.governor_isWork {s : Series} (h : s.isStake = false) : s.governor.isWork = true := by
  cases s with
  | tagged a => exact decide_eq_true (of_decide_eq_false h)
  | untagged stake =>
    cases stake with
    | false => rfl
    | true => cases h

/-- On every grown tree, each requirement of an admitted work candidate that is not forced is met by
some hash. -/
def Rules.Meetable (rules : Rules) : Prop :=
  ∀ t : BlockTree, t.Grown → ∀ tip? : Option BlockId, (∀ id ∈ tip?, id < t.size) →
    ∀ (c : Candidate) (m : AverageMemo), c.series.isStake = false →
      rules.admits c.algorithm? = true →
      ∃ r m', requirement rules c m (tip?.map t.branch) = .ok (r, m') ∧
        (r.forced = none → verifyWork rules 0 r.bits c.algorithm? = .ok ())

/-- Rounding that takes the ceiling of a work algorithm up comes through on a tree of three
blocks. -/
theorem Rules.Meetable.nearest_le (h : rules.Meetable) (hr : 0 < rules.spacing)
    (hc : rules.atCeiling = false) (ha : a.isWork = true) :
    nearest (rules.ceilings.get a) ≤ rules.ceilings.get a := by
  refine Nat.not_lt.1 fun hlt ↦ ?_
  have h24 := le_of_lt_nearest hlt
  have hline := BlockTree.line_threeBlocks a.version 0
  have htag := Algorithm.ofVersion?_version a
  obtain ⟨r, hreq, hforced, hbits⟩ := requirement_of_zero hr hc ha (by omega)
    (hline.grown.sound.grounded hline.tip) htag htag rfl 0 .disabled
  have hctag := Candidate.algorithm?_ofTag a 0
  have hadmits : rules.admits (some a) = true :=
    decide_eq_true (show (rules.ceilings.get a).1 ≠ 0 by omega)
  have hstake : a ≠ .stake := of_decide_eq_true ha
  have hid : ∀ id ∈ some 2, id < (BlockTree.threeBlocks a.version 0).size := by
    rintro id ⟨⟩
    rw [hline.size_eq]
    decide
  obtain ⟨r', m', hreq', hverify⟩ := h _ hline.grown (some 2) hid (.ofTag (some a) 0) .disabled
    (by rw [Candidate.series_of_tag _ hctag]; exact decide_eq_false hstake)
    (by rw [hctag]; exact hadmits)
  rw [Option.map_some, BlockTree.branch_threeBlocks, hreq] at hreq'
  cases hreq'
  have hverify := hverify hforced
  rw [hctag, verifyWork_zero_iff (fun h ↦ hstake (Option.some.inj h)) hadmits, hbits] at hverify
  rw [← target_encodeRounded (rules.ceilings.get a).2] at hlt
  exact absurd hverify.2 (Nat.not_le.2 hlt)

theorem Rules.meetable_of_nearest_le (hf : rules.fault? = none)
    (h : rules.atCeiling = true ∨ ∀ a : Algorithm, a.isWork = true →
      nearest (rules.ceilings.get a) ≤ rules.ceilings.get a) : rules.Meetable := by
  intro t ht tip? hid c m hs ha
  obtain ⟨r, m', hreq, hacc⟩ := requirement_accounted (spacing_pos hf) ha m (ht.grounded_tip hid)
  have hstake : c.algorithm? ≠ some .stake := by
    intro htag
    rw [c.series_of_tag htag] at hs
    cases hs
  have hn : rules.atCeiling = true ∨ nearest (rules.limit c.series) ≤ rules.limit c.series :=
    h.imp_right fun h ↦ h _ (Series.governor_isWork hs)
  exact ⟨r, m', hreq,
    fun hforced ↦ (verifyWork_zero_iff hstake ha).2 (hacc.within_ceiling hf hs ha hn hforced)⟩

/-- Requirements can be met exactly where nothing is computed or rounding takes no work ceiling
up. -/
theorem Rules.meetable_iff (hf : rules.fault? = none) :
    rules.Meetable ↔ rules.atCeiling = true ∨ ∀ a : Algorithm, a.isWork = true →
      target (encodeRounded (rules.ceilings.get a)) ≤ rules.ceilings.get a := by
  have hnear : ∀ a, target (encodeRounded (rules.ceilings.get a)) =
      nearest (rules.ceilings.get a) := fun a ↦
    target_encodeRounded (rules.ceilings.get a).2
  simp only [hnear]
  constructor
  · intro h
    by_cases hc : rules.atCeiling = true
    · exact .inl hc
    · exact .inr fun a ha ↦ h.nearest_le (spacing_pos hf) ((Bool.not_eq_true _).mp hc) ha
  · exact meetable_of_nearest_le hf

theorem Rules.meetable_iff_main : main.fault? = none ∧ (main.Meetable ↔ main.atCeiling = true ∨
    ∀ a : Algorithm, a.isWork = true →
      target (encodeRounded (main.ceilings.get a)) ≤ main.ceilings.get a) := by
  have hf : main.fault? = none := by decide +kernel
  exact ⟨hf, meetable_iff hf⟩

/-- The main network with a xevan ceiling that has more ones than a mantissa holds. -/
def Rules.allOnes : Rules := main.withCeiling .xevan ⟨2 ^ 236 - 1, by decide⟩

def timedBlock (bits : UInt32) (time : Int) (n : UInt8) : Block :=
  { BlockTree.numberedBlock (Algorithm.version .xevan) bits n with time }

/-- Two blocks above genesis, the second a thousand times as late as it should be. -/
def lateBranch : Branch :=
  ⟨[timedBlock 0x1e0fffff 601600 2, timedBlock 0x1d0f0000 1600 1], .genesis (timedBlock 0 1000 0)⟩

def lateTree : BlockTree :=
  let t := (({} : BlockTree).plant (timedBlock 0 1000 0).toEntry).2
  ((t.insert 0 (timedBlock 0x1d0f0000 1600 1).toEntry).2.insert 1
    (timedBlock 0x1e0fffff 601600 2).toEntry).2

theorem line_lateTree :
    lateTree.Line lateBranch [⟨.replicate 32 2⟩, ⟨.replicate 32 1⟩, ⟨.replicate 32 0⟩] := by
  have h₁ : (timedBlock 0x1d0f0000 1600 1).hash ∉ [(timedBlock 0 1000 0).hash] := by decide
  have h₂ : (timedBlock 0x1e0fffff 601600 2).hash ∉
    [(timedBlock 0x1d0f0000 1600 1).hash, (timedBlock 0 1000 0).hash] := by decide
  exact ((BlockTree.line_plant _).insert rfl h₁).insert rfl h₂

theorem requirement_lateBranch :
    requirement .allOnes (.ofTag (some .xevan) 602200) .disabled (some lateBranch) =
      .ok ({ bits := 0x1e100000, regime := .movingAverage }, .disabled) := rfl

/-- The ceiling is computed, but rounding takes it to 2 ^ 236, which no proof can claim. -/
theorem requirement_above_ceiling :
    let c : Candidate := .ofTag (some .xevan) 602200
    Rules.allOnes.fault? = none ∧ lateTree.Grown ∧ 2 < lateTree.size ∧ c.series.isStake = false ∧
      Rules.allOnes.admits c.algorithm? = true ∧
      requirement .allOnes c .disabled (some (lateTree.branch 2)) =
        .ok ({ bits := 0x1e100000, regime := .movingAverage }, .disabled) ∧
      verifyWork .allOnes 0 0x1e100000 c.algorithm? = .error .tooEasy ∧
      ¬ Rules.allOnes.Meetable := by
  intro c
  have hsize : 2 < lateTree.size := line_lateTree.size_eq ▸ Nat.lt_succ_self 2
  have hstake : c.series.isStake = false := by decide
  have hadmits : Rules.allOnes.admits c.algorithm? = true := by decide +kernel
  have hbranch : lateTree.branch 2 = lateBranch := BlockTree.branch_of_branches line_lateTree.tip
  have hreq : requirement .allOnes c .disabled (some (lateTree.branch 2)) =
      .ok ({ bits := 0x1e100000, regime := .movingAverage }, .disabled) := by
    rw [hbranch]
    exact requirement_lateBranch
  have hverify : verifyWork .allOnes 0 0x1e100000 c.algorithm? = .error .tooEasy := by
    decide +kernel
  refine ⟨by decide +kernel, line_lateTree.grown, hsize, hstake, hadmits, hreq, hverify,
    fun hmeet ↦ ?_⟩
  obtain ⟨r, m, hreq', hmet⟩ :=
    hmeet lateTree line_lateTree.grown (some 2) (by rintro id ⟨⟩; exact hsize) c .disabled
    hstake hadmits
  rw [Option.map_some, hreq] at hreq'
  cases hreq'
  have hmet := hmet rfl
  rw [hverify] at hmet
  cases hmet

end HybridDifficulty
