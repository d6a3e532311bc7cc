import HybridDifficulty.Proofs.StrategyOutcome
import HybridDifficulty.Requirement
import Mathlib.Logic.Basic

/-!
A requirement is found on every branch that stands on genesis, and its bits are those of a ceiling,
those of a capped target, or forced.
-/

namespace HybridDifficulty

open Branch

theorem Candidate.series_of_tag (c : Candidate) {a : Algorithm} (h : c.algorithm? = some a) :
    c.series = .tagged a := by
  rw [series, h]
  rfl

theorem Candidate.isTagged_of_tag {c : Candidate} {a : Algorithm} (h : c.algorithm? = some a) :
    c.isTagged = true := by
  refine Bool.of_not_eq_false fun hfalse ↦ ?_
  rw [isTagged] at hfalse
  rw [algorithm?, Algorithm.ofVersion?, hfalse] at h
  cases h

namespace Rules

variable {rules : Rules} {c : Candidate}

theorem of_fault?_eq_none (h : rules.fault? = none) :
    0 < rules.spacing ∧ 0 < rules.timespan ∧ 1 ≤ rules.interval ∧
      rules.admits (some .stake) ∧ rules.admits (some .xevan) := by
  simp only [fault?, ite_eq_iff, reduceCtorEq, and_false, false_or, Bool.not_eq_true',
    Bool.not_eq_false] at h
  obtain ⟨hs, ht, hi, hstake, hxevan, -⟩ := h
  exact ⟨by omega, by omega, by omega, hstake, hxevan⟩

theorem spacing_pos (h : rules.fault? = none) : 0 < rules.spacing := (of_fault?_eq_none h).1

theorem one_le_interval (h : rules.fault? = none) : 1 ≤ rules.interval :=
  (of_fault?_eq_none h).2.2.1

theorem ceiling_pos {tag : Option Algorithm} (h : rules.admits tag) : 0 < rules.ceiling tag :=
  Nat.pos_of_ne_zero (of_decide_eq_true h)

/-- Stake candidates without a tag are the ones whose proofs are checked against another ceiling. -/
theorem limit_eq_ceiling (h : c.series.isStake = false ∨ c.algorithm?.isSome) :
    rules.limit c.series = rules.ceiling c.algorithm? := by
  revert h
  rw [Candidate.series, limit, ceiling]
  cases c.algorithm? with
  | some a => exact fun _ ↦ rfl
  | none =>
    cases c.stake with
    | false => exact fun _ ↦ rfl
    | true => exact fun h ↦ by rcases h with h | h <;> cases h

theorem limit_of_tag (rules : Rules) {a : Algorithm} (h : c.algorithm? = some a) :
    rules.limit c.series = rules.ceilings.get a := by
  rw [c.series_of_tag h]
  rfl

theorem limit_pos (hf : rules.fault? = none) (h : rules.admits c.algorithm?) :
    0 < rules.limit c.series := by
  obtain ⟨-, -, -, hstake, -⟩ := of_fault?_eq_none hf
  by_cases hc : c.series.isStake = false ∨ c.algorithm?.isSome
  · rw [limit_eq_ceiling hc]
    exact ceiling_pos h
  · obtain ⟨hs, ha⟩ := not_or.1 hc
    rw [Bool.not_eq_true, Option.isSome_eq_false_iff, Option.isNone_iff_eq_none] at ha
    have hg : c.series.governor = .stake := by
      rw [Candidate.series, ha] at hs ⊢
      exact if_pos (Bool.of_not_eq_false hs)
    rw [limit, hg]
    exact ceiling_pos hstake

theorem exists_of_fixedBits? {height : Nat} {x : Block} {bits : UInt32}
    (h : rules.fixedBits? height c x = some bits) :
    c.series = .untagged true ∧ ∃ o ∈ rules.fixedTargets, o.bits = bits := by
  obtain ⟨o, ho, hbits⟩ := Option.map_eq_some_iff.1 h
  have happlies := List.find?_some ho
  simp only [FixedTarget.applies, Bool.and_eq_true, decide_eq_true_eq] at happlies
  exact ⟨happlies.1.2, o, List.mem_of_find?_eq_some ho, hbits⟩

end Rules

namespace MinDifficulty

variable (a : Algorithm) (limit : Nat) (marker : UInt32) (time : Int) (g : Block) (l : List Block)

theorem reverted?_ok : ∃ bits?, reverted? a marker ⟨l, .genesis g⟩ = .ok bits? := by
  simp only [reverted?, seek_genesis, top_genesis, ok_bind]
  cases l.dropWhile _ with
  | nil => exact ⟨_, rfl⟩
  | cons x l =>
    simp only [below?_genesis_cons, seek_genesis, top_genesis, ok_bind]
    split <;> exact ⟨_, rfl⟩

theorem forced?_ok : ∃ bits?, forced? a limit time ⟨l, .genesis g⟩ = .ok bits? := by
  simp only [forced?, seek_genesis, top_genesis, ok_bind]
  split
  · exact ⟨_, rfl⟩
  · split
    · exact ⟨_, rfl⟩
    · split
      · exact ⟨_, rfl⟩
      · exact reverted?_ok a _ g _

variable {a limit time g l}

/-- Nothing is forced after a block that is not at the marker, as long as the candidate is not
late. -/
theorem forced?_of_regular {x : Block} {r : List Block}
    (hown : l.filter (Series.tagged a).contains = x :: r)
    (hlate : ¬(minDifficultyHeight < x.height ∧ x.time + minDifficultyDelay < time))
    (hbits : x.bits ≠ CompactForm.marker limit) :
    forced? a limit time ⟨l, .genesis g⟩ = .ok none := by
  simp only [forced?, seek_genesis, top_genesis, ok_bind]
  rcases dropWhile_not_cases l (Series.tagged a).contains with
    ⟨-, hfilter⟩ | ⟨y, s, hdrop, -, hfilter⟩
  · rw [hfilter] at hown
    cases hown
  · obtain ⟨rfl, -⟩ := List.cons_eq_cons.1 (hfilter.symm.trans hown)
    have hstop : (parentId? ⟨y :: s, .genesis g⟩).isNone ∨ y.bits ≠ CompactForm.marker limit :=
      .inr hbits
    rw [hdrop, List.headD_cons, if_neg hlate, if_pos hstop]
    exact ite_self _

end MinDifficulty

/-- The bits that the rules force on a candidate above the tip. -/
inductive Forces (rules : Rules) (c : Candidate) (tip : Branch) : Forcing → UInt32 → Prop
  | minDifficulty {a : Algorithm} {bits : UInt32} : c.algorithm? = some a →
      MinDifficulty.forced? a (rules.ceiling (some a)) c.time tip = .ok (some bits) →
      Forces rules c tip .minDifficulty bits
  | historical {height : Nat} {x : Block} {bits : UInt32} :
      rules.fixedBits? height c x = some bits →
      Forces rules c tip .historical bits

/-- How each requirement of an admitted candidate comes about. -/
inductive Accounted (rules : Rules) (c : Candidate) (tip? : Option Branch) : Requirement → Prop
  | ceiling : rules.atCeiling = true ∨ tip? = none →
      Accounted rules c tip?
        { bits := CompactForm.encode (rules.ceiling c.algorithm?), regime := .ceiling }
  | computed {bits : UInt32} {regime : Regime} {lookup : Option Lookup} : rules.atCeiling = false →
      rules.Capped c.series bits → regime ≠ .disabled →
      Accounted rules c tip? { bits, regime, lookup }
  | forced {tip : Branch} {kind : Forcing} {bits : UInt32} {regime : Regime} :
      rules.atCeiling = false →
      tip? = some tip → Forces rules c tip kind bits → regime ≠ .disabled →
      Accounted rules c tip? { bits, regime, forced := some kind }

theorem Accounted.regime_ne_disabled {rules : Rules} {c : Candidate} {tip? : Option Branch}
    {r : Requirement} (h : Accounted rules c tip? r) : r.regime ≠ .disabled := by
  cases h with
  | ceiling => exact Regime.noConfusion
  | computed _ _ hr => exact hr
  | forced _ _ _ hr => exact hr

theorem Rules.regimeAt_cases (rules : Rules) (height : Nat) (stake : Bool) :
    rules.regimeAt height stake = .scheduled ∨ rules.regimeAt height stake = .weighted ∨
      rules.regimeAt height stake = .movingAverage := by
  unfold regimeAt
  split
  · exact .inl rfl
  · split
    · exact .inr (.inl rfl)
    · exact .inr (.inr rfl)

variable {rules : Rules} {c : Candidate} {tip? : Option Branch}

theorem forces_fixed (rules : Rules) (c : Candidate) (tip : Branch) (regime : Regime) (height : Nat)
    (x : Block) :
    let fixed := if regime = .weighted then rules.fixedBits? height c x else none
    let choice : Except Fault Choice :=
      .ok { regime, forced := fixed.map fun bits ↦ (.historical, bits) }
    choice = .ok { regime } ∨
      ∃ kind bits, Forces rules c tip kind bits ∧
        choice = .ok { regime, forced := some (kind, bits) } := by
  intro fixed choice
  cases hfixed : fixed with
  | none => exact .inl (by simp only [choice, hfixed, Option.map_none])
  | some bits =>
    have hbits : rules.fixedBits? height c x = some bits := by
      simp only [fixed, ite_eq_iff, reduceCtorEq, and_false, or_false] at hfixed
      exact hfixed.2
    exact .inr ⟨_, bits, .historical hbits, by simp only [choice, hfixed, Option.map_some]⟩

/-- An admitted candidate has the ceiling, a target that is computed at the height of the tip, or
forced bits. -/
theorem choose_cases (ha : rules.admits c.algorithm?) (ht : ∀ b ∈ tip?, b.Grounded) :
    ((rules.atCeiling = true ∨ tip? = none) ∧ choose rules c tip? = .ok { regime := .ceiling }) ∨
    rules.atCeiling = false ∧ ∃ tip height, tip? = some tip ∧
      (choose rules c tip? = .ok { regime := rules.regimeAt height c.series.isStake } ∨
        ∃ kind bits, Forces rules c tip kind bits ∧
          choose rules c tip? = .ok {
            regime := rules.regimeAt height c.series.isStake
            forced := some (kind, bits) }) := by
  simp only [choose, ha, Bool.not_true, Bool.false_eq_true, if_false]
  by_cases hc : rules.atCeiling = true
  · simp only [hc, if_true]
    exact .inl ⟨.inl trivial, rfl⟩
  · cases tip? with
    | none =>
      simp only [ite_self]
      exact .inl ⟨.inr trivial, rfl⟩
    | some tip =>
      obtain @⟨g, l, hl⟩ := ht tip rfl
      simp only [if_neg hc, top_genesis, ok_bind]
      refine .inr ⟨(Bool.not_eq_true _).mp hc, _, (l.headD g).height + 1, rfl, ?_⟩
      have hfixed := forces_fixed rules c ⟨l, .genesis g⟩
        (rules.regimeAt ((l.headD g).height + 1) c.series.isStake)
        ((l.headD g).height + 1) (l.headD g)
      cases htag : if rules.relaxed then c.algorithm? else none with
      | none => exact hfixed
      | some a =>
        have ha : c.algorithm? = some a := by
          simp only [ite_eq_iff, reduceCtorEq, and_false, or_false] at htag
          exact htag.2
        obtain ⟨late, hlate⟩ := MinDifficulty.forced?_ok a (rules.ceiling c.algorithm?) c.time g l
        simp only [hlate, ok_bind]
        cases late with
        | none => exact hfixed
        | some bits => exact .inr ⟨_, bits, .minDifficulty ha (ha ▸ hlate), rfl⟩

/-- Either the memo is not looked at, or the target is scheduled. -/
theorem requirement_cases (hr : 0 < rules.spacing) (ha : rules.admits c.algorithm?)
    (ht : ∀ b ∈ tip?, b.Grounded) :
    (∃ r, Accounted rules c tip? r ∧ r.lookup = none ∧
      ∀ m, requirement rules c m tip? = .ok (r, m)) ∨
    rules.atCeiling = false ∧ ∀ m, requirement rules c m tip? = do
      let (bits, lookup, m) ← Absolute.next rules c m tip?
      return ({ bits, regime := .scheduled, lookup }, m) := by
  rcases choose_cases ha ht with
    ⟨hceil, hch⟩ | ⟨hc, tip, height, htip, hch | ⟨kind, bits, hforces, hch⟩⟩
  · exact .inl ⟨_, .ceiling hceil, rfl, fun m ↦ by rw [requirement, hch, ok_bind]; rfl⟩
  · rcases rules.regimeAt_cases height c.series.isStake with hreg | hreg | hreg <;> rw [hreg] at hch
    · exact .inr ⟨hc, fun m ↦ by rw [requirement, hch, ok_bind]; rfl⟩
    · obtain ⟨bits, hb, hcap⟩ := Ema.doubled_capped (c := c) hr ht
      refine .inl ⟨{ bits, regime := .weighted }, .computed hc hcap (by decide), rfl, fun m ↦ ?_⟩
      rw [requirement, hch, ok_bind]
      simp only [settle, hb, ok_bind]
      rfl
    · obtain ⟨bits, hb, hcap⟩ := MovingAverage.next_capped (c := c) hr ht
      refine .inl ⟨{ bits, regime := .movingAverage }, .computed hc hcap (by decide), rfl,
        fun m ↦ ?_⟩
      rw [requirement, hch, ok_bind]
      simp only [settle, hb, ok_bind]
      rfl
  · have hne : rules.regimeAt height c.series.isStake ≠ .disabled := by
      rcases rules.regimeAt_cases height c.series.isStake with h | h | h <;> rw [h] <;> decide
    exact .inl ⟨_, .forced hc htip hforces hne, rfl, fun m ↦ by rw [requirement, hch, ok_bind]; rfl⟩

/-- Every admitted candidate has its requirement, whatever the memo holds. -/
theorem requirement_accounted (hr : 0 < rules.spacing) (ha : rules.admits c.algorithm?)
    (m : AverageMemo) (ht : ∀ b ∈ tip?, b.Grounded) :
    ∃ r m', requirement rules c m tip? = .ok (r, m') ∧ Accounted rules c tip? r := by
  rcases requirement_cases hr ha ht with ⟨r, hacc, -, h⟩ | ⟨hc, h⟩
  · exact ⟨r, m, h m, hacc⟩
  · obtain ⟨bits, lookup, m', hnext, hcap⟩ := Absolute.next_capped (c := c) hr m ht
    rw [h m, hnext, ok_bind]
    exact ⟨_, m', rfl, .computed hc hcap (by decide)⟩

theorem requirement_of_not_admits (ha : rules.admits c.algorithm? = false) (m : AverageMemo) :
    requirement rules c m tip? = .ok ({ bits := 0, regime := .disabled }, m) := by
  simp only [requirement, choose, ha, Bool.not_false, if_true]
  rfl

end HybridDifficulty
