import HybridDifficulty.Proofs.RelaxedTarget
import Mathlib.Algebra.Order.BigOperators.Group.List
import Mathlib.Algebra.Order.Ring.Nat

/-!
The moving average as a rule on the blocks of the series. One walk counts samples, passes over
blocks at minimum difficulty and decides where the measured time begins; what it gives is the
average of the newest regular blocks and the block under the last of them.
-/

namespace HybridDifficulty

theorem sum_le_of_le_div {vs : List Nat} {top parts : Nat} (h : ∀ v ∈ vs, v ≤ top / parts)
    (hlen : vs.length ≤ parts) :
    vs.sum ≤ top := by
  have hsum := List.sum_le_card_nsmul vs _ h
  rw [Nat.nsmul_eq_mul] at hsum
  calc vs.sum ≤ vs.length * (top / parts) := hsum
    _ ≤ parts * (top / parts) := Nat.mul_le_mul_right _ hlen
    _ ≤ top := Nat.mul_div_le top parts

namespace MovingAverage

open Branch

/-- The plan of a candidate where the rules leave time between blocks. -/
def planned (rules : Rules) (c : Candidate) : Plan :=
  if c.isTagged then
    let spacing := rules.spacingOf c.series
    { spacing, length := rules.timespan / spacing / 4, isTagged := true }
  else { spacing := 60, length := 24, isTagged := false }

namespace Plan

variable (plan : Plan)

/-- The block at which the measured time begins, given the last of the planned samples: before tags
that sample, then the block under it. Where the series has no such block, its oldest one. -/
def beginning? (last : Option Block) (own : List Block) : Option Block :=
  (if plan.isTagged then last.bind fun x ↦ own[own.idxOf x + 1]? else last).or own.getLast?

/-- The sum of numbers that stays at the last one below 2 ^ 256. -/
def saturatingSum (vs : List Nat) : Nat :=
  vs.foldl (fun sum v ↦ min (sum + v) (byteWeight 32 - 1)) 0

/-- The average of the samples, of which the newest has its own weight. -/
def averageOr (limit : Nat) (samples : List Block) : Nat :=
  let sum :=
    saturatingSum (samples.mapIdx fun i x ↦ plan.share (if i = 0 then plan.weight else 1) x)
  if sum = 0 then limit else sum

/-- The average times the measured over the ideal time. Within 15 percent the ideal time counts
three times more. -/
def scaledAverage (limit : Nat) (samples : List Block) (elapsed : Int) : Nat :=
  let ideal := plan.length * plan.spacing
  let tempered := plan.isTagged ∧ ideal * 85 / 100 < elapsed ∧ elapsed < ideal * 115 / 100
  let actual := if tempered then elapsed + 3 * ideal else elapsed
  plan.averageOr limit samples * (max actual 1).toNat /
    (if tempered then 4 * ideal else ideal).toNat

end Plan

variable {rules : Rules} {t : BlockTree} {id : BlockId} {c : Candidate} {plan : Plan}
  {isRegular : Block → Bool} {g x b : Block} {l own samples rest : List Block}

theorem ofCandidate_eq_planned (hf : rules.fault? = none) (c : Candidate) :
    Plan.ofCandidate rules c = .ok (planned rules c) := by
  obtain ⟨hspacing, htimespan, -⟩ := Rules.of_fault?_eq_none hf
  have hs := rules.spacingOf_pos hspacing c.series
  rw [Plan.ofCandidate, planned]
  split
  · have hdiv : 0 ≤ rules.timespan / rules.spacingOf c.series := Int.ediv_nonneg htimespan.le hs.le
    simp only [quotient_of_pos hs, ok_bind, Int.tdiv_eq_ediv_of_nonneg htimespan.le,
      Int.tdiv_eq_ediv_of_nonneg hdiv]
    rfl
  · rfl

theorem planned_spacing_pos (hf : rules.fault? = none) (c : Candidate) :
    0 < (planned rules c).spacing := by
  rw [planned]
  split
  · exact rules.spacingOf_pos (Rules.spacing_pos hf) c.series
  · decide

theorem planned_length_nonneg (hf : rules.fault? = none) (c : Candidate) :
    0 ≤ (planned rules c).length := by
  obtain ⟨hspacing, htimespan, -⟩ := Rules.of_fault?_eq_none hf
  rw [planned]
  split
  · exact Int.ediv_nonneg (Int.ediv_nonneg htimespan.le (rules.spacingOf_pos hspacing c.series).le)
      (by decide)
  · decide

theorem planned_isTagged (rules : Rules) (c : Candidate) :
    (planned rules c).isTagged = c.isTagged := by
  rw [planned]
  split
  · next h => exact h.symm
  · next h => exact ((Bool.not_eq_true _).mp h).symm

namespace Plan

theorem foldl_saturating {top sum : Nat} (h : sum ≤ top) (vs : List Nat) :
    vs.foldl (fun sum v ↦ min (sum + v) top) sum = min (sum + vs.sum) top := by
  induction vs generalizing sum with
  | nil => simp [h]
  | cons v vs ih =>
    rw [List.foldl_cons, ih (Nat.min_le_right _ _), List.sum_cons]
    omega

theorem saturatingSum_eq {vs : List Nat} (h : vs.sum < byteWeight 32) :
    saturatingSum vs = vs.sum := by
  rw [saturatingSum, foldl_saturating (Nat.zero_le _), Nat.zero_add]
  omega

theorem share_le (plan : Plan) (weight : Nat) (x : Block) :
    plan.share weight x ≤ (byteWeight 32 - 1) / (plan.length + plan.weight - 1).toNat :=
  Nat.div_le_div_right (Nat.min_le_right _ _)

/-- The parts that make up an average are so small that no sum of them reaches 2 ^ 256. -/
theorem sum_share_lt (hlen : samples.length ≤ plan.length.toNat) (weight : Nat → Nat) :
    (samples.mapIdx fun i x ↦ plan.share (weight i) x).sum < byteWeight 32 := by
  have hparts : samples.length ≤ (plan.length + plan.weight - 1).toNat := by
    have hweight : 1 ≤ plan.weight := by
      rw [Plan.weight]
      split <;> decide
    omega
  have hle : ∀ v ∈ samples.mapIdx (fun i x ↦ plan.share (weight i) x),
      v ≤ (byteWeight 32 - 1) / (plan.length + plan.weight - 1).toNat := by
    intro v hv
    obtain ⟨i, hi, rfl⟩ := List.mem_mapIdx.1 hv
    exact plan.share_le _ _
  have hsum := sum_le_of_le_div hle (by rwa [List.length_mapIdx])
  exact hsum.trans_lt (by decide)

theorem average_eq_sum (plan : Plan) (samples : List Block) :
    plan.average samples =
      (samples.mapIdx fun i x ↦ plan.share (if i = 0 then plan.weight else 1) x).sum := by
  cases samples with
  | nil => rfl
  | cons x r =>
    have hrest : (r.mapIdx fun i x ↦ plan.share (if i + 1 = 0 then plan.weight else 1) x) =
        r.map (plan.share 1) := by
      apply List.ext_getElem?
      simp
    rw [average, List.mapIdx_cons, hrest, List.sum_cons, if_pos rfl]
    rfl

theorem averageOr_eq (hlen : samples.length ≤ plan.length.toNat) (limit : Nat) :
    plan.averageOr limit samples =
      if plan.average samples = 0 then limit else plan.average samples := by
  rw [averageOr, saturatingSum_eq (sum_share_lt hlen _), ← average_eq_sum]

theorem beginning?_cons {last : Option Block} (hlast : ∀ x ∈ last, x ≠ b) (y : Block)
    (rest : List Block) :
    plan.beginning? last (b :: y :: rest) = plan.beginning? last (y :: rest) := by
  have hbind : (last.bind fun x ↦ (b :: y :: rest)[(b :: y :: rest).idxOf x + 1]?) =
      last.bind fun x ↦ (y :: rest)[(y :: rest).idxOf x + 1]? := by
    cases last with
    | none => rfl
    | some x => simp [List.idxOf_cons_ne _ (hlast x rfl).symm]
  rw [beginning?, beginning?, hbind, List.getLast?_cons_cons]

theorem sample_of_step {left : Nat} (hleft : left = if isRegular b then n else n + 1)
    (hgo : ¬(y.height = 0 ∨ (!plan.isTagged) = true ∧ left = 0)) {more : List Block} {last : Block}
    (hrest : plan.sample isRegular (.ok ()) left y rest = .ok (more, last)) :
    plan.sample isRegular (.ok ()) (n + 1) b (y :: rest) =
      .ok ((if isRegular b then [b] else []) ++ more, last) := by
  subst hleft
  rw [sample, if_neg hgo, hrest]
  rfl

/-- The walk gives the newest regular blocks and the block where the measured time begins. -/
theorem sample_eq (plan : Plan) (isRegular : Block → Bool) (hg : g.height = 0) (n : Nat)
    (hheight : ∀ x ∈ rest, x.height ≠ 0) (hnodup : (b :: rest).Nodup) :
    ∃ last, plan.beginning? ((b :: rest).filter isRegular)[n]? (b :: rest) = some last ∧
      plan.sample isRegular (.ok ()) (n + 1) b (rest ++ [g]) =
        .ok (((b :: rest).filter isRegular).take (n + 1), last) := by
  -- `n + 1` samples are still missing at `b`; a skipped block leaves the count as it is, a sample
  -- lowers it by one
  induction rest generalizing b n with
  | nil =>
    have hlast : plan.beginning? ([b].filter isRegular)[n]? [b] = some b := by
      cases hb : isRegular b with
      | false => cases htagged : plan.isTagged <;> simp [beginning?, hb, htagged]
      | true => cases htagged : plan.isTagged <;> cases n <;> simp [beginning?, hb, htagged]
    refine ⟨b, hlast, ?_⟩
    cases hb : isRegular b <;> simp [sample, hb, hg]
  | cons y rest ih =>
    have hy : y.height ≠ 0 := hheight y List.mem_cons_self
    have hnodup' := List.nodup_cons.1 hnodup
    have hheight' : ∀ x ∈ rest, x.height ≠ 0 := fun x hx ↦ hheight x (List.mem_cons_of_mem _ hx)
    have hmem (n : Nat) : ∀ x ∈ ((y :: rest).filter isRegular)[n]?, x ≠ b := by
      rintro x hx rfl
      exact hnodup'.1 (List.mem_filter.1 (List.mem_of_getElem? hx)).1
    cases hb : isRegular b with
    | false =>
      obtain ⟨last, hlast, hsample⟩ := ih n hheight' hnodup'.2
      rw [List.filter_cons_of_neg (by simp [hb]), beginning?_cons (hmem n)]
      refine ⟨last, hlast, ?_⟩
      rw [List.cons_append, sample_of_step (by simp [hb]) (by simp [hy]) hsample]
      simp [hb]
    | true =>
      cases n with
      | zero =>
        cases htagged : plan.isTagged with
        | false => exact ⟨b, by simp [beginning?, hb, htagged], by simp [sample, hb, htagged]⟩
        | true =>
          refine ⟨y, by simp [beginning?, hb, htagged], ?_⟩
          have hrest : plan.sample isRegular (.ok ()) 0 y (rest ++ [g]) = .ok ([], y) := by
            rw [sample]
          rw [List.cons_append, sample_of_step (by simp [hb]) (by simp [hy, htagged]) hrest]
          simp [hb]
      | succ n =>
        obtain ⟨last, hlast, hsample⟩ := ih n hheight' hnodup'.2
        rw [List.filter_cons_of_pos hb, List.getElem?_cons_succ, beginning?_cons (hmem n)]
        refine ⟨last, hlast, ?_⟩
        rw [List.cons_append, sample_of_step (by simp [hb]) (by simp [hy]) hsample]
        simp [hb]

/-- The ratio of a plan with something to average is what the rule says, and it is positive. -/
theorem bits_eq (hlength : 1 ≤ plan.length) (hspacing : 0 < plan.spacing)
    (hlen : samples.length ≤ plan.length.toNat) (limit : Nat) (elapsed : Int) :
    plan.bits limit samples elapsed =
      encodeBy plan.isTagged (capAt limit (some (plan.scaledAverage limit samples elapsed))) := by
  have hideal : 0 < plan.length * plan.spacing := Int.mul_pos (by omega) hspacing
  have hlower : (plan.length * plan.spacing * 85).tdiv 100 =
      plan.length * plan.spacing * 85 / 100 :=
    Int.tdiv_eq_ediv_of_nonneg (by omega)
  have hupper : (plan.length * plan.spacing * 115).tdiv 100 =
      plan.length * plan.spacing * 115 / 100 :=
    Int.tdiv_eq_ediv_of_nonneg (by omega)
  by_cases h : plan.isTagged ∧ plan.length * plan.spacing * 85 / 100 < elapsed ∧
      elapsed < plan.length * plan.spacing * 115 / 100
  · simp only [bits, times, scaledAverage, averageOr_eq hlen, hlower, hupper, if_pos h]
    rw [rescale?_of_pos (by omega) (by omega)]
  · simp only [bits, times, scaledAverage, averageOr_eq hlen, hlower, hupper, if_neg h]
    rw [rescale?_of_pos (by omega) hideal]

end Plan

open Plan

theorem nodup_filter (hl : Climbs g l) (p : Block → Bool) : (l.filter p).Nodup := by
  have hpair : l.Pairwise (· ≠ ·) := hl.pairwise.imp fun hlt heq ↦ by
    subst heq
    exact absurd hlt (Nat.lt_irrefl _)
  exact hpair.sublist List.filter_sublist

theorem next_of_cons_cons (hf : rules.fault? = none) (hl : Climbs g l) {y : Block} {r : List Block}
    (hown : l.filter c.series.contains = x :: y :: r)
    (hheight : (planned rules c).minHeight ≤ l.length) (hlength : 1 ≤ (planned rules c).length)
    {last : Block}
    (hsample : (planned rules c).sample (rules.isRegular c.series) (.ok ())
      (planned rules c).length.toNat x (y :: r ++ [g]) = .ok (samples, last))
    (hlen : samples.length ≤ (planned rules c).length.toNat) :
    next rules c (some ⟨l, .genesis g⟩) = .ok (encodeBy c.isTagged (capAt (rules.limit c.series)
      (some ((planned rules c).scaledAverage (rules.limit c.series) samples
        (x.time - last.time))))) := by
  have hbits :=
    bits_eq hlength (planned_spacing_pos hf c) hlen (rules.limit c.series) (x.time - last.time)
  rw [planned_isTagged] at hbits
  rw [List.cons_append] at hsample
  rw [next, ofCandidate_eq_planned hf, ok_bind]
  simp only [filter_genesis, newestTwo?_genesis, hown, firstTwo, top_genesis, ok_bind,
    hl.top_height, descent_genesis, Root.bottom, List.cons_append, List.tail_cons]
  rw [if_neg (Int.not_lt.2 hheight), hsample, ok_bind]
  exact congrArg Except.ok hbits

theorem next_genesis (hf : rules.fault? = none) (hl : Climbs g l)
    (hlength : 1 ≤ (planned rules c).length) (hheight : (planned rules c).minHeight ≤ l.length)
    (htwo : 2 ≤ (l.filter c.series.contains).length) :
    let plan := planned rules c
    let own := l.filter c.series.contains
    let samples := (own.filter (rules.isRegular c.series)).take plan.length.toNat
    ∃ newest last, own.head? = some newest ∧
      plan.beginning? samples[plan.length.toNat - 1]? own = some last ∧
      next rules c (some ⟨l, .genesis g⟩) = .ok (encodeBy c.isTagged (capAt (rules.limit c.series)
        (some (plan.scaledAverage (rules.limit c.series) samples (newest.time - last.time))))) := by
  intro plan own samples
  obtain ⟨n, hn⟩ : ∃ n, plan.length.toNat = n + 1 :=
    Nat.exists_eq_succ_of_ne_zero (Nat.ne_of_gt (Int.pos_iff_toNat_pos.1 hlength))
  obtain ⟨x, y, r, hcons⟩ : ∃ x y r, own = x :: y :: r := exists_cons_cons htwo
  have hheights : ∀ z ∈ y :: r, z.height ≠ 0 := by
    intro z hz
    have hz : z ∈ own := hcons ▸ List.mem_cons_of_mem x hz
    exact Nat.ne_of_gt (hl.height_pos (List.mem_filter.1 hz).1)
  have hnodup : (x :: y :: r).Nodup := hcons ▸ nodup_filter hl _
  obtain ⟨last, hlast, hsample⟩ :=
    plan.sample_eq (rules.isRegular c.series) hl.root_height n hheights hnodup
  have hlast : plan.beginning? samples[plan.length.toNat - 1]? own = some last := by
    rw [hn, Nat.add_sub_cancel, List.getElem?_take_of_lt (by omega), hcons]
    exact hlast
  rw [← hn, ← hcons] at hsample
  refine ⟨x, last, by rw [hcons, List.head?_cons], hlast, ?_⟩
  exact next_of_cons_cons hf hl hcons hheight hlength hsample (List.length_take_le _ _)

end MovingAverage

end HybridDifficulty
