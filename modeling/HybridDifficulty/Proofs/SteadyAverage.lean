import HybridDifficulty.Proofs.LateTarget
import HybridDifficulty.Proofs.SteadyTarget

/-!
The moving average of a work algorithm that keeps its pace. A whole window with the block under it
leads to the bits that the series has carried. But whether there is a window is decided by the
height of the chain, to which other algorithms add: a series that ends within the window is divided
by the whole of it, and its time is measured against the time of a whole one.
-/

namespace HybridDifficulty

open Branch CompactForm

variable {rules : Rules} {c : Candidate} {a : Algorithm} {t : BlockTree} {id : BlockId}
  {g x y : Block} {l own samples : List Block} {bits : UInt32} {n v : Nat}

namespace Rules

/-- The rules of a network that retargets, with ceilings given to more algorithms. -/
inductive Widened : Rules → Prop
  | preset {n : Network} : n ≠ .regtest → Widened (.ofNetwork n)
  | withCeiling {rules : Rules} {limit : Word256} (a : Algorithm) : limit.1 ≠ 0 → Widened rules →
      Widened (rules.withCeiling a limit)

theorem Widened.opened (h : rules.Widened) : rules.Opened := by
  induction h with
  | preset hn => exact .preset hn
  | withCeiling a _ _ ih => exact .withCeiling a _ ih

theorem Widened.timespan_eq (h : rules.Widened) : rules.timespan = 43200 := by
  induction h with
  | @preset n hn =>
    cases n with
    | regtest => exact absurd rfl hn
    | _ => rfl
  | withCeiling _ _ _ ih => exact ih

theorem fault?_withCeiling (h : rules.fault? = none) (a : Algorithm) {limit : Word256}
    (hl : limit.1 ≠ 0) :
    (rules.withCeiling a limit).fault? = none := by
  obtain ⟨-, -, -, hstake, hxevan⟩ := of_fault?_eq_none h
  have hadmits (b : Algorithm) (hb : rules.admits (some b) = true) :
      (rules.withCeiling a limit).admits (some b) = true := by
    by_cases hab : b = a
    · simpa [admits, ceiling, withCeiling, PerAlgorithm.get_set, hab] using hl
    · have hceiling : (rules.withCeiling a limit).ceiling (some b) = rules.ceiling (some b) := by
        simp [ceiling, withCeiling, PerAlgorithm.get_set, hab]
      rw [← hb]
      simp only [admits, hceiling]
  have hadmits' (b : Algorithm) (hb : rules.admits (some b) = true) :
      (rules.withCeiling a limit).admits (some b) = rules.admits (some b) :=
    (hadmits b hb).trans hb.symm
  rw [← h]
  simp only [fault?, hadmits' _ hstake, hadmits' _ hxevan]
  rfl

theorem Widened.fault?_eq_none (h : rules.Widened) : rules.fault? = none := by
  induction h with
  | @preset n hn =>
    cases n with
    | regtest => exact absurd rfl hn
    | main => decide +kernel
    | testnet => decide +kernel
    | signet => decide +kernel
  | withCeiling a hl _ ih => exact fault?_withCeiling ih a hl

theorem spacingOf_work (rules : Rules) (ha : a.isWork = true) :
    rules.spacingOf (.tagged a) = 600 := by
  have hstake : (Series.tagged a).isStake = false := decide_eq_false (of_decide_eq_true ha)
  rw [spacingOf, hstake]
  rfl

end Rules

namespace MovingAverage

/-- Eighteen blocks of ten minutes. -/
def workPlan : Plan := ⟨600, 18, true⟩

/-- The average that at most eighteen blocks of one target come to, scaled by the spans of ten
minutes between them. Time is counted in quarters of a span, seventy-two of which are ideal; from
seventeen blocks on the error is small enough to be tempered. -/
def shortAverage (n v : Nat) : Nat :=
  n * (v / 18) * (if 17 ≤ n then n + 53 else 4 * (n - 1)) / 72

theorem shortAverage_pos (htwo : 2 ≤ n) (hv : 2 ^ 39 ≤ v) : 0 < shortAverage n v := by
  have hspans : 4 ≤ if 17 ≤ n then n + 53 else 4 * (n - 1) := by split <;> omega
  have hproduct := Nat.mul_le_mul (Nat.mul_le_mul htwo (by omega : 9 ≤ v / 18)) hspans
  exact Nat.div_pos hproduct (by decide)

/-- With no block under the samples a seventy-second of the target is lost at least. -/
theorem shortAverage_le (hn : n ≤ 18) (v : Nat) : 72 * shortAverage n v ≤ 71 * v := by
  have hspans : (if 17 ≤ n then n + 53 else 4 * (n - 1)) ≤ 71 := by split <;> omega
  calc 72 * shortAverage n v ≤ n * (v / 18) * (if 17 ≤ n then n + 53 else 4 * (n - 1)) :=
        Nat.mul_div_le _ _
    _ ≤ 18 * (v / 18) * 71 := Nat.mul_le_mul (Nat.mul_le_mul_right _ hn) hspans
    _ ≤ 71 * v := by omega

theorem planned_work (h : rules.Widened) (hc : c.algorithm? = some a) (ha : a.isWork = true) :
    planned rules c = workPlan := by
  rw [planned, if_pos (c.isTagged_of_tag hc), c.series_of_tag hc, rules.spacingOf_work ha,
    h.timespan_eq]
  rfl

namespace Plan

variable {plan : Plan}

/-- With tags the measured time begins under the last of the planned samples, or with the oldest
block. -/
theorem beginning?_eq (htagged : plan.isTagged = true) (hown : own.Nodup) (hn : 0 < n)
    (hlen : 0 < own.length) :
    plan.beginning? own[n - 1]? own = own[min n (own.length - 1)]? := by
  rw [beginning?, if_pos htagged, List.getLast?_eq_getElem?]
  rcases Nat.lt_or_ge (n - 1) own.length with hlt | hge
  · rw [List.getElem?_eq_getElem hlt, Option.bind_some, hown.idxOf_getElem, Nat.sub_add_cancel hn]
    rcases Nat.lt_or_ge n own.length with hlt | hge
    · rw [List.getElem?_eq_getElem hlt, Option.some_or, min_eq_left (by omega),
        List.getElem?_eq_getElem hlt]
    · rw [List.getElem?_eq_none hge, Option.none_or, min_eq_right (by omega)]
  · rw [List.getElem?_eq_none hge, Option.bind_none, Option.none_or, min_eq_right (by omega)]

/-- With tags all samples have one weight, and the average is that of a schedule's reference. -/
theorem average_eq_average (htagged : plan.isTagged = true) (samples : List Block) :
    plan.average samples = Absolute.average plan.length.toNat samples := by
  have hweight : plan.weight = 1 := if_pos htagged
  have hshare : plan.share 1 = fun x ↦ target x.bits / plan.length.toNat := by
    funext x
    have hlt := target_lt x.bits
    rw [share, hweight, Nat.one_mul, min_eq_left (by omega)]
    congr 2
    omega
  cases samples with
  | nil => rfl
  | cons x r =>
    rw [average, hweight, hshare]
    rfl

theorem averageOr_of_target_eq (plan : Plan) (htagged : plan.isTagged = true)
    (hlen : samples.length ≤ plan.length.toNat) (h : ∀ x ∈ samples, target x.bits = v)
    (hpos : 0 < samples.length * (v / plan.length.toNat)) (limit : Nat) :
    plan.averageOr limit samples = samples.length * (v / plan.length.toNat) := by
  rw [averageOr_eq hlen, average_eq_average htagged, Absolute.average_of_target_eq h,
    if_neg hpos.ne']

end Plan

section Work

variable (hlen : samples.length ≤ 18) (htwo : 2 ≤ samples.length)
  (h : ∀ x ∈ samples, target x.bits = v) (hv : 18 ≤ v) (limit : Nat)
include hlen htwo h hv

/-- However few the samples are, the whole window divides their targets. -/
theorem workPlan_averageOr : workPlan.averageOr limit samples = samples.length * (v / 18) :=
  have hshare : 0 < v / 18 := Nat.div_pos hv (by decide)
  workPlan.averageOr_of_target_eq rfl hlen h (Nat.mul_pos (by omega) hshare) limit

/-- A window that took its ideal time leaves the average as it is. -/
theorem workPlan_scaledAverage_ideal :
    workPlan.scaledAverage limit samples 10800 = samples.length * (v / 18) := by
  rw [Plan.scaledAverage, workPlan_averageOr hlen htwo h hv]
  exact Nat.mul_div_cancel _ (by decide : 0 < 43200)

/-- Samples with no block under them took one span of time less than they are. -/
theorem workPlan_scaledAverage_short :
    workPlan.scaledAverage limit samples (600 * ↑(samples.length - 1)) =
      shortAverage samples.length v := by
  rw [Plan.scaledAverage, workPlan_averageOr hlen htwo h hv, shortAverage]
  generalize samples.length * (v / 18) = average
  have hideal : workPlan.length * workPlan.spacing = 10800 := rfl
  have htempered : ((10800 : Int) * 85 / 100 < 600 * ↑(samples.length - 1) ∧
      600 * ↑(samples.length - 1) < (10800 : Int) * 115 / 100) ↔ 17 ≤ samples.length := by omega
  have htagged : workPlan.isTagged = true := rfl
  simp only [htagged, true_and, hideal, htempered]
  by_cases hmany : 17 ≤ samples.length
  · have hactual : (max (600 * ↑(samples.length - 1) + 3 * 10800 : Int) 1).toNat =
        600 * (samples.length + 53) := by omega
    have hunits : (4 * 10800 : Int).toNat = 600 * 72 := rfl
    simp only [if_pos hmany, hactual, hunits, Nat.mul_left_comm average]
    exact Nat.mul_div_mul_left _ _ (by decide)
  · have hactual : (max (600 * ↑(samples.length - 1) : Int) 1).toNat =
        150 * (4 * (samples.length - 1)) := by omega
    have hunits : (10800 : Int).toNat = 150 * 72 := rfl
    simp only [if_neg hmany, hactual, hunits, Nat.mul_left_comm average 150]
    exact Nat.mul_div_mul_left _ _ (by decide)

end Work

section Steady

variable (hb : rules.Sustains a bits) (hbits : ∀ x ∈ own, x.bits = bits)
  (hspaced : own.IsChain fun x y ↦ x.time = y.time + 600)

include hb hbits in
theorem filter_isRegular_steady : own.filter (rules.isRegular (.tagged a)) = own := by
  refine List.filter_eq_self.2 fun x hx ↦ ?_
  simp [Rules.isRegular, Rules.limit_tagged, hb.isRegular (hbits x hx)]

include hspaced in
theorem time_head_sub_time (hn : n < own.length) (hx : own.head? = some x) :
    x.time - own[n].time = 600 * n := by
  have hsplit : own.take n ++ own[n] :: own.drop (n + 1) = own := by
    rw [List.cons_getElem_drop_succ, List.take_append_drop]
  have htime := Absolute.time_eq_of_isChain (g := x) (hsplit.symm ▸ hspaced)
  rw [hsplit, List.headD_eq_head?_getD, hx, Option.getD_some, List.length_take_of_le hn.le] at htime
  omega

end Steady

section Path

variable (h : rules.Widened) (ha : a.isWork = true) (hb : rules.Sustains a bits)
  (hc : c.algorithm? = some a) (hl : Climbs g l) (hbits : ∀ x ∈ ownBlocks a l, x.bits = bits)
  (hspaced : (ownBlocks a l).IsChain fun x y ↦ x.time = y.time + 600)
include h ha hb hc hl hbits hspaced

theorem next_of_steady_short (hheight : l.length < 20) (htwo : 2 ≤ (ownBlocks a l).length) :
    next rules c (some ⟨l, .genesis g⟩) = .ok bits := by
  obtain ⟨x, y, r, hown⟩ := exists_cons_cons htwo
  rw [hown] at hbits hspaced
  have htime : x.time = y.time + rules.spacingOf (.tagged a) := by
    rw [rules.spacingOf_work ha]
    exact (List.isChain_cons_cons.1 hspaced).1
  have hfilter : l.filter c.series.contains = x :: y :: r := by
    rw [c.series_of_tag hc, ← ownBlocks, hown]
  have hmin : (l.length : Int) < (planned rules c).minHeight := by
    rw [planned_work h hc ha]
    exact Int.ofNat_lt.2 hheight
  rw [(next_of_short h.fault?_eq_none hl hmin hfilter).2, if_pos (c.isTagged_of_tag hc),
    Ema.weighted, Ema.onNewestTwo, newestTwo?_genesis, hfilter, c.series_of_tag hc]
  exact Ema.weightedStep_steady h.opened.paced hb (hbits x List.mem_cons_self) htime

/-- In a long chain the time of a whole window is measured down to the block under it, if the series
has one. -/
theorem next_of_steady_window (hheight : 20 ≤ l.length) (htwo : 2 ≤ (ownBlocks a l).length) :
    next rules c (some ⟨l, .genesis g⟩) = .ok (encodeRounded (capAt (rules.limit (.tagged a)) (some
      (workPlan.scaledAverage (rules.limit (.tagged a)) ((ownBlocks a l).take 18)
        (600 * ↑(min 18 ((ownBlocks a l).length - 1))))))) := by
  have hplan := planned_work h hc ha
  have hwindow : workPlan.length.toNat = 18 := rfl
  have hseries := c.series_of_tag hc
  have hown : l.filter c.series.contains = ownBlocks a l := by rw [hseries, ownBlocks]
  obtain ⟨newest, last, hnewest, hlast, hnext⟩ :=
    next_genesis h.fault?_eq_none hl (by rw [hplan]; decide)
    (by rw [hplan]; exact Int.ofNat_le.2 hheight) (hown ▸ htwo)
  rw [hplan, hown, hseries, filter_isRegular_steady hb hbits, hwindow] at hlast hnext
  have hnodup : (ownBlocks a l).Nodup := nodup_filter hl _
  have hpos : 0 < (ownBlocks a l).length := by omega
  rw [List.getElem?_take_of_lt (by decide), Plan.beginning?_eq rfl hnodup (by decide) hpos] at hlast
  obtain ⟨hlt, rfl⟩ := List.getElem?_eq_some_iff.1 hlast
  rw [hown] at hnewest
  rw [time_head_sub_time hspaced hlt hnewest, c.isTagged_of_tag hc, encodeBy_true] at hnext
  exact hnext

theorem next_of_steady_full (hheight : 20 ≤ l.length) (hfull : 19 ≤ (ownBlocks a l).length) :
    next rules c (some ⟨l, .genesis g⟩) = .ok bits := by
  have hmany := le_target hb.canonical hb.six_le_size
  have hsamples : ∀ x ∈ (ownBlocks a l).take 18, target x.bits = target bits := fun x hx ↦
    congrArg target (hbits x (List.mem_of_mem_take hx))
  have hlen : ((ownBlocks a l).take 18).length = 18 := List.length_take_of_le (by omega)
  have hmin : min 18 ((ownBlocks a l).length - 1) = 18 := min_eq_left (by omega)
  have htime : (600 * (18 : Nat) : Int) = 10800 := rfl
  have hideal := workPlan_scaledAverage_ideal hlen.le (by omega) hsamples (by omega)
    (rules.limit (.tagged a))
  rw [next_of_steady_window h ha hb hc hl hbits hspaced hheight (by omega), hmin, htime,
    hideal, hlen, hb.encodeRounded_capAt (by omega) (by omega)]

/-- A series that ends within the window is divided by the whole window all the same. -/
theorem next_of_steady_end (hheight : 20 ≤ l.length) (htwo : 2 ≤ (ownBlocks a l).length)
    (hend : (ownBlocks a l).length ≤ 18) :
    next rules c (some ⟨l, .genesis g⟩) =
      .ok (encodeRounded (shortAverage (ownBlocks a l).length (target bits))) := by
  have hmany := le_target hb.canonical hb.six_le_size
  have hsamples : ∀ x ∈ ownBlocks a l, target x.bits = target bits := fun x hx ↦
    congrArg target (hbits x hx)
  have hmin : min 18 ((ownBlocks a l).length - 1) = (ownBlocks a l).length - 1 :=
    min_eq_right (by omega)
  have hshort :=
    workPlan_scaledAverage_short hend htwo hsamples (by omega) (rules.limit (.tagged a))
  have hle := shortAverage_le hend (target bits)
  have hceiling : target bits ≤ rules.limit (.tagged a) := hb.le_ceiling
  rw [next_of_steady_window h ha hb hc hl hbits hspaced hheight htwo, hmin,
    List.take_of_length_le hend, hshort, capAt_some (shortAverage_pos htwo hmany) (by omega)]

end Path

/-- Bits that a series has carried at its pace are kept by the moving average where the chain is too
short for a window, and where the series fills one and has a block under it. They are kept in no
other series: on a longer chain, one that ends within the window has the rounded encoding of a
lower target. -/
theorem next_eq_iff_of_steady (h : rules.Widened) (ha : a.isWork = true)
    (hb : rules.Sustains a bits) (ht : t.Grown) (hid : id < t.size) {tip : Block}
    (htip : (t.branch id).top = .ok tip) (hc : c.algorithm? = some a)
    (hbits : ∀ x ∈ ownBlocks a (t.branch id).blocks, x.bits = bits)
    (hspaced : (ownBlocks a (t.branch id).blocks).IsChain fun x y ↦ x.time = y.time + 600)
    (htwo : 2 ≤ (ownBlocks a (t.branch id).blocks).length) :
    let n := (ownBlocks a (t.branch id).blocks).length
    (next rules c (some (t.branch id)) = .ok bits ↔ tip.height < 20 ∨ 19 ≤ n) ∧
      (20 ≤ tip.height → n ≤ 18 →
        next rules c (some (t.branch id)) =
          .ok (encodeRounded (shortAverage n (target bits)))) := by
  intro n
  obtain ⟨g, l, hbranch, -, hl⟩ := ht.sound.exists_path hid
  simp only [n, hbranch, top_genesis, Except.ok.injEq] at htip hbits hspaced htwo ⊢
  rw [← htip, hl.top_height]
  refine ⟨⟨fun hkept ↦ ?_, fun hcase ↦ ?_⟩, fun hlong hend ↦ ?_⟩
  · by_contra hcase
    obtain ⟨hlong, hend⟩ := not_or.1 hcase
    have hend : (ownBlocks a l).length ≤ 18 := by omega
    rw [next_of_steady_end h ha hb hc hl hbits hspaced (by omega) htwo hend,
      Except.ok.injEq] at hkept
    have hle := shortAverage_le hend (target bits)
    have hlt := target_lt_two_pow bits
    exact encodeRounded_ne_of_le (by omega) (le_target hb.canonical hb.six_le_size) hle hkept
  · rcases Nat.lt_or_ge l.length 20 with hshort | hlong
    · exact next_of_steady_short h ha hb hc hl hbits hspaced hshort htwo
    · exact next_of_steady_full h ha hb hc hl hbits hspaced hlong (hcase.resolve_left (by omega))
  · exact next_of_steady_end h ha hb hc hl hbits hspaced hlong htwo hend

/-- Twenty blocks, of which the upper ones are xevan blocks and the others stake blocks. -/
def mixedLine (n : Nat) : List Entry :=
  (BlockTree.numberedLine (Algorithm.version .xevan) 0x1d0f0000 20).take n ++
    BlockTree.numberedLine (Algorithm.version .stake) 0x1e00ffff (20 - n)

theorem next_eq_iff_of_steady_on_mixedLine :
    let c : Candidate := .ofTag (some .xevan) 12600
    let t := BlockTree.lineTree BlockTree.numberedGenesis (mixedLine 19)
    t.Grown ∧ (ownBlocks .xevan (t.branch 20).blocks).length = 19 ∧
    next .main c (some (t.branch 20)) = .ok 0x1d0f0000 := by
  intro c t
  have hhash : ((mixedLine 19 ++ [BlockTree.numberedGenesis]).map Entry.hash).Nodup := by
    decide +kernel
  have hgrown : t.Grown := (BlockTree.line_lineTree _ _ hhash).grown
  have hid : 20 < t.size := (BlockTree.size_lineTree hhash).symm ▸ (by decide)
  have hb : t.branch 20 = _ := BlockTree.branch_of_branches (BlockTree.branch_lineTree hhash 0)
  have hlen : (ownBlocks .xevan (t.branch 20).blocks).length = 19 := by
    rw [hb]
    decide +kernel
  have hsustains : Rules.main.Sustains .xevan 0x1d0f0000 := by
    constructor <;> decide +kernel
  have hbits : ∀ x ∈ ownBlocks .xevan (t.branch 20).blocks, x.bits = 0x1d0f0000 := by
    rw [hb]
    decide +kernel
  have hspaced :
      (ownBlocks .xevan (t.branch 20).blocks).IsChain fun x y ↦ x.time = y.time + 600 := by
    rw [hb]
    decide +kernel
  have hc : c.algorithm? = some .xevan := Algorithm.ofVersion?_version .xevan
  have hsteady := next_eq_iff_of_steady (.preset (n := .main) (by decide)) rfl hsustains hgrown hid
    (by rw [hb]; rfl) hc hbits hspaced (by omega)
  exact ⟨hgrown, hlen, hsteady.1.2 (.inr hlen.ge)⟩

/-- Two xevan blocks ten minutes apart over eighteen stake blocks are answered with less than a
hundredth of their target. -/
theorem next_ne_of_steady :
    let c : Candidate := .ofTag (some .xevan) 12600
    let t := BlockTree.lineTree BlockTree.numberedGenesis (mixedLine 2)
    let own := ownBlocks .xevan (t.branch 20).blocks
    Rules.main.Widened ∧ Rules.main.Sustains .xevan 0x1d0f0000 ∧ t.Grown ∧ 20 < t.size ∧
      c.algorithm? = some .xevan ∧ (∀ x ∈ own, x.bits = 0x1d0f0000) ∧
      (own.IsChain fun x y ↦ x.time = y.time + 600) ∧ 2 ≤ own.length ∧
      ∃ bits, next .main c (some (t.branch 20)) = .ok bits ∧ bits ≠ 0x1d0f0000 ∧
        100 * target bits < target 0x1d0f0000 := by
  intro c t own
  have hhash : ((mixedLine 2 ++ [BlockTree.numberedGenesis]).map Entry.hash).Nodup := by
    decide +kernel
  have hb : t.branch 20 = _ := BlockTree.branch_of_branches (BlockTree.branch_lineTree hhash 0)
  have hnext : next .main c (some (t.branch 20)) = .ok 0x1c17b426 := by
    rw [hb]
    decide +kernel
  refine ⟨.preset (n := .main) (by decide), by constructor <;> decide +kernel,
    (BlockTree.line_lineTree _ _ hhash).grown, (BlockTree.size_lineTree hhash).symm ▸ (by decide),
    Algorithm.ofVersion?_version .xevan, ?_, ?_, ?_, 0x1c17b426, hnext, by decide,
    by decide +kernel⟩
  all_goals
    simp only [own, hb]
    decide +kernel

end MovingAverage

end HybridDifficulty
