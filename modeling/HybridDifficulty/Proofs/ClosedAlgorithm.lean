import HybridDifficulty.ProofCheck
import HybridDifficulty.Proofs.RequirementOutcome
import HybridDifficulty.Proofs.TreeGrowth
import HybridDifficulty.Rules.Presets

/-!
An algorithm with a ceiling of zero is shut out. Its candidates are refused, the strategies have no
target for them but zero, and none of its proofs is accepted.
-/

namespace HybridDifficulty

variable {rules : Rules} {s : Series} {c : Candidate} {a : Algorithm} {t : BlockTree}
  {bits : UInt32}

/-- Capping puts the ceiling in the place of a result that is zero, and here the ceiling is zero
too. -/
theorem Rules.Capped.eq_zero (h : rules.Capped s bits) (h0 : rules.limit s = 0) : bits = 0 := by
  obtain ⟨rounding, scaled, rfl⟩ := h
  have hcap : capAt (rules.limit s) scaled = 0 :=
    Nat.le_zero.1 (h0 ▸ capAt_le (rules.limit s) scaled)
  rw [hcap]
  cases rounding with
  | false => decide
  | true => decide

theorem Rules.not_admits_of_ceiling {tag : Option Algorithm} (h0 : rules.ceiling tag = 0) :
    rules.admits tag = false := by
  rw [admits, h0]
  rfl

theorem meetsTarget_of_not_admits {tag : Option Algorithm} (h : rules.admits tag = false)
    (hash : Nat) (bits : UInt32) :
    meetsTarget rules hash bits tag = false := by
  simp only [meetsTarget, verifyWork, h, Bool.not_false, if_true]
  split
  · rfl
  · split <;> rfl

/-- Nothing on the branch and nothing in a memo gets the candidate a target, or a block of its
algorithm accepted. -/
structure ShutOut (rules : Rules) (c : Candidate) (tip? : Option Branch) : Prop where
  requirement : ∀ m, requirement rules c m tip? =
    .ok ({ bits := 0, regime := .disabled, forced := none, lookup := none }, m)
  movingAverage : MovingAverage.next rules c tip? = .ok 0
  weighted : Ema.weighted rules c tip? = .ok 0
  doubled : Ema.doubled rules c tip? = .ok 0
  scheduled : ∀ m, ∃ lookup m', Absolute.next rules c m tip? = .ok (0, lookup, m')
  proof : ∀ hash bits, meetsTarget rules hash bits c.algorithm? = false

theorem shutOut_of_closed (hr : 0 < rules.spacing) (h0 : rules.ceiling (some a) = 0) (ht : t.Grown)
    {id? : Option BlockId} (hid : ∀ id ∈ id?, id < t.size)
    (hc : c.algorithm? = some a) : ShutOut rules c (id?.map t.branch) := by
  have htip := ht.grounded_tip hid
  have hclosed : rules.admits c.algorithm? = false := hc ▸ Rules.not_admits_of_ceiling h0
  have hlimit : rules.limit c.series = 0 := (rules.limit_of_tag hc).trans h0
  refine ⟨requirement_of_not_admits hclosed, ?_, ?_, ?_, fun m ↦ ?_,
    meetsTarget_of_not_admits hclosed⟩
  · obtain ⟨bits, hbits, hcap⟩ := MovingAverage.next_capped (c := c) hr htip
    rw [hbits, hcap.eq_zero hlimit]
  · obtain ⟨bits, hbits, hcap⟩ := Ema.weighted_capped (c := c) hr htip
    rw [hbits, hcap.eq_zero hlimit]
  · obtain ⟨bits, hbits, hcap⟩ := Ema.doubled_capped (c := c) hr htip
    rw [hbits, hcap.eq_zero hlimit]
  · obtain ⟨bits, lookup, m', hnext, hcap⟩ := Absolute.next_capped (c := c) hr m htip
    exact ⟨lookup, m', by rw [hnext, hcap.eq_zero hlimit]⟩

/-- The path holds blocks of the closed algorithm itself, with targets that would do for others. -/
theorem shutOut_of_closed_on_threeBlocks :
    let c : Candidate := .ofTag (some .sha256d) 3600
    let t := BlockTree.threeBlocks (Algorithm.version .sha256d) 0x1d0f0000
    0 < Rules.testnet.spacing ∧ Rules.testnet.ceiling (some .sha256d) = 0 ∧ t.Grown ∧ 2 < t.size ∧
      c.algorithm? = some .sha256d ∧ ShutOut .testnet c (some (t.branch 2)) := by
  intro c t
  have hline := BlockTree.line_threeBlocks (Algorithm.version .sha256d) 0x1d0f0000
  have hid : 2 < t.size := hline.size_eq.symm ▸ (by decide)
  have hknown : ∀ id ∈ some 2, id < t.size := fun id h ↦ Option.some.inj h ▸ hid
  have hc : c.algorithm? = some .sha256d := Algorithm.ofVersion?_version .sha256d
  have hspacing : 0 < Rules.testnet.spacing := by decide
  have hclosed : Rules.testnet.ceiling (some .sha256d) = 0 := rfl
  exact ⟨hspacing, hclosed, hline.grown, hid, hc,
    shutOut_of_closed hspacing hclosed hline.grown hknown hc⟩

end HybridDifficulty
