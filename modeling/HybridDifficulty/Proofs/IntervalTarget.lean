import HybridDifficulty.Proofs.EngineTotality
import HybridDifficulty.Rules.Presets

/-!
Under periodic retargeting an interval has one target of its own. Late blocks may have the ceiling
instead, but the blocks after them go back to the target that the interval began with.
-/

namespace HybridDifficulty

open Branch

variable {rules : Rules} {c : Candidate} {t : BlockTree} {id : BlockId} {g x : Block}
  {l l' : List Block} {k : Nat}

namespace Periodic

/-- The part of a path from the newest block down that begins an interval. Genesis begins the first
one. -/
def startPart (k : Nat) (l : List Block) : List Block :=
  l.dropWhile fun x ↦ !decide (x.height % k = 0)

def intervalStart (k : Nat) (g : Block) (l : List Block) : Block := (startPart k l).headD g

theorem intervalStart_of_start (h : x.height % k = 0) : intervalStart k g (x :: l) = x := by
  rw [intervalStart, startPart, List.dropWhile_cons_of_neg (by simp [h]), List.headD_cons]

theorem startPart_of_inside (h : x.height % k ≠ 0) : startPart k (x :: l) = startPart k l :=
  List.dropWhile_cons_of_pos (by simp [h])

theorem intervalStart_of_inside (h : x.height % k ≠ 0) :
    intervalStart k g (x :: l) = intervalStart k g l := by
  rw [intervalStart, startPart_of_inside h, intervalStart]

theorem length_startPart (h : Climbs g l) : (startPart k l).length = k * (l.length / k) := by
  induction h with
  | genesis => simp [startPart]
  | @step l x h hx ih =>
    rw [List.length_cons]
    by_cases hstart : x.height % k = 0
    · rw [startPart, List.dropWhile_cons_of_neg (by simp [hstart]), List.length_cons, ← hx,
        Nat.mul_div_cancel' (Nat.dvd_of_mod_eq_zero hstart)]
    · have hdvd : ¬ k ∣ l.length + 1 := fun hdvd ↦ hstart (hx ▸ Nat.mod_eq_zero_of_dvd hdvd)
      rw [startPart_of_inside hstart, ih, Nat.succ_div_of_not_dvd hdvd]

/-- An interval of a branch begins at one block, wherever in the interval a path ends. -/
theorem startPart_eq {l₁ l₂ : List Block} (hl : Climbs g l) (h₁ : l₁ <:+ l) (h₂ : l₂ <:+ l)
    (h : l₁.length / k = l₂.length / k) : startPart k l₁ = startPart k l₂ := by
  apply eq_of_suffix_of_length ((List.dropWhile_suffix _).trans h₁)
    ((List.dropWhile_suffix _).trans h₂)
  rw [← startPart, ← startPart, length_startPart (hl.suffix h₁), length_startPart (hl.suffix h₂), h]

theorem ancestor?_intervalStart (hl : Climbs g l) :
    ancestor? ⟨l, .genesis g⟩ (k * (l.length / k)) = .ok (some (intervalStart k g l)) := by
  obtain ⟨l', hs, hlen, hanc⟩ := ancestor?_genesis hl (Nat.mul_div_le l.length k)
  rw [← length_startPart hl] at hlen
  obtain rfl : l' = startPart k l := eq_of_suffix_of_length hs (List.dropWhile_suffix _) hlen
  exact hanc

def relaxedBits (rules : Rules) : UInt32 := CompactForm.encode (rules.ceiling (some .xevan))

/-- Paths on which each block inside an interval has the bits that the interval began with, or is
relaxed. -/
inductive Carries (rules : Rules) (k : Nat) (g : Block) : List Block → Prop
  | genesis : Carries rules k g []
  | step {l : List Block} {x : Block} : Carries rules k g l →
      (x.height % k ≠ 0 → rules.relaxed ∧ x.bits = relaxedBits rules ∨
        x.bits = (intervalStart k g l).bits) →
      Carries rules k g (x :: l)

/-- The walk past relaxed blocks ends at the bits that the interval began with. -/
theorem Carries.seek_bits (h : Carries rules k g l) :
    ((l.dropWhile fun x ↦
        !(decide (x.height % k = 0) || decide (x.bits ≠ relaxedBits rules))).headD g).bits =
      (intervalStart k g l).bits := by
  induction h with
  | genesis => rfl
  | @step l x h hx ih =>
    by_cases hstart : x.height % k = 0
    · rw [intervalStart_of_start hstart, List.dropWhile_cons_of_neg (by simp [hstart]),
        List.headD_cons]
    · rw [intervalStart_of_inside hstart]
      by_cases hlate : x.bits = relaxedBits rules
      · rw [List.dropWhile_cons_of_pos (by simp [hstart, hlate]), ih]
      · rw [List.dropWhile_cons_of_neg (by simp [hlate]), List.headD_cons]
        exact (hx hstart).resolve_left fun hrelaxed ↦ hlate hrelaxed.2

theorem Carries.top_bits (h : Carries rules k g l) (hr : rules.relaxed = false) :
    (l.headD g).bits = (intervalStart k g l).bits := by
  cases h with
  | genesis => rfl
  | @step l x h hx =>
    by_cases hstart : x.height % k = 0
    · rw [intervalStart_of_start hstart, List.headD_cons]
    · rw [intervalStart_of_inside hstart, List.headD_cons]
      exact (hx hstart).resolve_left fun hrelaxed ↦ Bool.false_ne_true (hr.symm.trans hrelaxed.1)

theorem Carries.suffix (h : Carries rules k g l) (hs : l' <:+ l) : Carries rules k g l' := by
  induction h with
  | genesis =>
    rw [List.suffix_nil.1 hs]
    exact .genesis
  | @step l x h hx ih =>
    rcases List.suffix_cons_iff.1 hs with rfl | hs
    · exact .step h hx
    · exact ih hs

theorem Carries.bits_eq (h : Carries rules k g l) (hl : Climbs g l) (hr : rules.relaxed = false)
    {x y : Block} (hx : x ∈ l ++ [g]) (hy : y ∈ l ++ [g]) (hxy : x.height / k = y.height / k) :
    x.bits = y.bits := by
  obtain ⟨l₁, h₁, rfl⟩ := exists_suffix_of_mem_descent hx
  obtain ⟨l₂, h₂, rfl⟩ := exists_suffix_of_mem_descent hy
  rw [(hl.suffix h₁).top_height, (hl.suffix h₂).top_height] at hxy
  calc (l₁.headD g).bits = (intervalStart k g l₁).bits := (h.suffix h₁).top_bits hr
    _ = (intervalStart k g l₂).bits := by
      rw [intervalStart, startPart_eq hl h₁ h₂ hxy, intervalStart]
    _ = (l₂.headD g).bits := ((h.suffix h₂).top_bits hr).symm

theorem int_emod_interval (hi : 1 ≤ rules.interval) (n : Nat) :
    (n : Int) % rules.interval = (n % rules.interval.toNat : Nat) := by
  rw [Int.natCast_emod, Int.toNat_of_nonneg (by omega)]

/-- What carries over inside an interval. -/
def heldBits (rules : Rules) (c : Candidate) (tip start : Block) : UInt32 :=
  if rules.relaxed ∧ tip.time + rules.spacing * 2 < c.time then relaxedBits rules else start.bits

theorem heldBits_cases (rules : Rules) (c : Candidate) (tip start : Block) :
    rules.relaxed ∧ heldBits rules c tip start = relaxedBits rules ∨
    heldBits rules c tip start = start.bits := by
  rw [heldBits]
  split
  · next h => exact .inl ⟨h.1, rfl⟩
  · exact .inr rfl

theorem carryOver_eq (hi : 1 ≤ rules.interval) (h : Carries rules rules.interval.toNat g l)
    (c : Candidate) :
    carryOver rules c ⟨l, .genesis g⟩ =
      .ok (heldBits rules c (l.headD g) (intervalStart rules.interval.toNat g l)) := by
  have hseek :
      (fun x : Block ↦ !(decide ((x.height : Int) % rules.interval = 0) ||
        decide (x.bits ≠ relaxedBits rules))) =
      fun x ↦ !(decide (x.height % rules.interval.toNat = 0) ||
        decide (x.bits ≠ relaxedBits rules)) := by
    funext x
    simp only [int_emod_interval hi, Int.natCast_eq_zero]
  simp only [carryOver, top_genesis, ok_bind, seek_genesis, heldBits]
  -- with relaxation off no walk is made, and the tip has the bits itself
  cases hr : rules.relaxed with
  | false =>
    simp only [Bool.not_false, if_true, Bool.false_eq_true, false_and, if_false, h.top_bits hr]
    rfl
  | true =>
    simp only [Bool.not_true, Bool.false_eq_true, if_false, true_and, gt_iff_lt]
    split
    · rfl
    · exact congrArg Except.ok (hseek ▸ h.seek_bits)

end Periodic

/-- Trees that grow from a genesis block by blocks with the bits that periodic retargeting required
of them. -/
inductive PeriodicallyMined (rules : Rules) : BlockTree → Prop
  | plant (e : Entry) : PeriodicallyMined rules (({} : BlockTree).plant e).2
  | mine {t : BlockTree} {id : BlockId} {c : Candidate} {r : Requirement}
      (hash : Hash) (stake : Bool) :
      PeriodicallyMined rules t → id < t.size → periodicRequirement rules c (t.branch id) = .ok r →
      PeriodicallyMined rules
        (t.insert id { hash, time := c.time, bits := r.bits, version := c.version, stake }).2

namespace Periodic

theorem periodicRequirement_inside (hi : 1 ≤ rules.interval)
    (h : Carries rules rules.interval.toNat g l)
    (hinside : ((l.headD g).height + 1) % rules.interval.toNat ≠ 0) (c : Candidate) :
    periodicRequirement rules c ⟨l, .genesis g⟩ = .ok
      { bits := heldBits rules c (l.headD g) (intervalStart rules.interval.toNat g l)
        regime := .periodic } := by
  have hmod : ((l.headD g).height + 1 : Int) % rules.interval ≠ 0 := by
    have hcast := int_emod_interval hi ((l.headD g).height + 1)
    rw [← Int.natCast_succ, hcast]
    exact Int.natCast_ne_zero.2 hinside
  simp only [periodicRequirement, settle, next, top_genesis, ok_bind,
    if_neg (by omega : ¬ rules.interval < 1), if_pos hmod, carryOver_eq hi h]
  rfl

end Periodic

namespace PeriodicallyMined

theorem grown (h : PeriodicallyMined rules t) : t.Grown := by
  induction h with
  | plant e => exact .plant e .empty
  | mine _ _ _ _ _ ih => exact .insert _ _ ih

theorem carries (hi : 1 ≤ rules.interval) (h : PeriodicallyMined rules t)
    (hb : t.branches[id]? = some ⟨l, .genesis g⟩) :
    Periodic.Carries rules rules.interval.toNat g l := by
  induction h generalizing id l with
  | plant e =>
    cases BlockTree.branches_plant_empty hb
    exact .genesis
  | @mine t parent c r hash stake ht hid hreq ih =>
    have hs := ht.grown.sound
    rcases hs.branches_insert hb with hb | ⟨below, y, hbelow, hy, hb⟩
    · exact ih hb
    · obtain @⟨g', l', hl⟩ := hs.grounded hbelow
      cases hb
      have hcarries := ih hbelow
      refine .step hcarries fun hinside ↦ ?_
      rw [top_genesis, Except.ok.injEq] at hy
      subst hy
      rw [BlockTree.branch_of_branches hbelow,
        Periodic.periodicRequirement_inside hi hcarries hinside, Except.ok.injEq] at hreq
      subst hreq
      exact Periodic.heldBits_cases rules c _ _

end PeriodicallyMined

/-- On a tree mined under periodic retargeting the target inside an interval is that of the block it
begins with. Late candidates alone have the ceiling, and it does not carry over. -/
theorem periodicRequirement_of_mined (hf : rules.fault? = none) (ht : PeriodicallyMined rules t)
    (hid : id < t.size) {tip : Block} (htip : (t.branch id).top = .ok tip) :
    let k := rules.interval.toNat
    (∀ c : Candidate, (tip.height + 1) % k ≠ 0 →
      ∃ start, (t.branch id).ancestor? (tip.height - tip.height % k) = .ok (some start) ∧
        periodicRequirement rules c (t.branch id) = .ok {
          bits := if rules.relaxed ∧ tip.time + rules.spacing * 2 < c.time then
            CompactForm.encode (rules.ceiling (some .xevan)) else start.bits
          regime := .periodic }) ∧
    (rules.relaxed = false → ∀ x ∈ (t.branch id).descent 1, ∀ y ∈ (t.branch id).descent 1,
      x.height / k = y.height / k → x.bits = y.bits) := by
  intro k
  have hi := Rules.one_le_interval hf
  obtain ⟨g, l, hbranch, hb, hl⟩ := ht.grown.sound.exists_path hid
  have hcarries := ht.carries hi hb
  rw [hbranch, top_genesis, Except.ok.injEq] at htip
  subst htip
  rw [hbranch]
  refine ⟨fun c hinside ↦ ?_, fun hr x hx y hy hxy ↦ hcarries.bits_eq hl hr hx hy hxy⟩
  refine ⟨Periodic.intervalStart k g l, ?_,
    Periodic.periodicRequirement_inside hi hcarries hinside c⟩
  rw [hl.top_height, ← Nat.mul_div_self_eq_mod_sub_self, Periodic.ancestor?_intervalStart hl]

def shortIntervals : Rules := { Rules.testnet with timespan := 240 }

/-- A block that is late on top of its genesis block. -/
def lateEntry : Entry :=
  { BlockTree.numbered (Algorithm.version .xevan) 0x1e0fffff 1 with time := 1000 }

def earlyGenesis : Entry := BlockTree.numbered untaggedVersion 0x1d00ffff 0

theorem periodicRequirement_of_mined_after_late_block :
    let t := BlockTree.lineTree earlyGenesis [lateEntry]
    let c : Candidate := .ofTag (some .xevan) 1100
    PeriodicallyMined shortIntervals t ∧ ∃ tip start, (t.branch 1).top = .ok tip ∧
      tip.bits = CompactForm.encode (shortIntervals.ceiling (some .xevan)) ∧
      (t.branch 1).ancestor? 0 = .ok (some start) ∧ start.bits = 0x1d00ffff ∧
      periodicRequirement shortIntervals c (t.branch 1) =
        .ok { bits := start.bits, regime := .periodic } := by
  intro t c
  have hhash : (([lateEntry] ++ [earlyGenesis]).map Entry.hash).Nodup := by decide
  have hgenesis : (BlockTree.lineTree earlyGenesis []).branches[0]? = some _ :=
    BlockTree.branch_lineTree (by decide) 0
  have hlate : t.branches[1]? = some _ := BlockTree.branch_lineTree hhash 0
  have hreq : periodicRequirement shortIntervals (.ofTag (some .xevan) 1000)
      ((BlockTree.lineTree earlyGenesis []).branch 0) =
        .ok { bits := 0x1e0fffff, regime := .periodic } := by
    rw [BlockTree.branch_of_branches hgenesis]
    rfl
  have ht : PeriodicallyMined shortIntervals t :=
    .mine _ _ (.plant earlyGenesis) (BlockTree.lt_of_branches hgenesis) hreq
  have hf : shortIntervals.fault? = none := by decide +kernel
  have htip : (t.branch 1).top = .ok { lateEntry with id := 1, height := 1 } := by
    rw [BlockTree.branch_of_branches hlate]
    rfl
  obtain ⟨start, hstart, hnext⟩ :=
    (periodicRequirement_of_mined hf ht (BlockTree.lt_of_branches hlate) htip).1 c (by decide)
  have hbits : start.bits = 0x1d00ffff := by
    rw [BlockTree.branch_of_branches hlate] at hstart
    cases hstart
    rfl
  exact ⟨ht, _, start, htip, by decide, hstart, hbits, hnext⟩

end HybridDifficulty
