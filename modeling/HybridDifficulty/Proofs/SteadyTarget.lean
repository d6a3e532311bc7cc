import HybridDifficulty.Proofs.AbsoluteSchedule
import HybridDifficulty.Proofs.CeilingBound
import HybridDifficulty.Proofs.ScheduledScale
import HybridDifficulty.Rules.Presets
import Mathlib.Data.List.Chain

/-!
A series that keeps its pace keeps its target. Where all blocks of an algorithm carry the same bits
and come one spacing apart, both moving averages and the schedule lead to the same bits again.
-/

namespace HybridDifficulty

open Branch CompactForm

variable {rules : Rules} {c : Candidate} {a : Algorithm} {g : Block} {l own : List Block}
  {bits : UInt32} {v w : Nat}

/-- The rules of a network that retargets, with any ceilings changed. -/
inductive Rules.Opened : Rules → Prop
  | preset {n : Network} : n ≠ .regtest → Opened (.ofNetwork n)
  | withCeiling {rules : Rules} (a : Algorithm) (limit : Word256) : Opened rules →
      Opened (rules.withCeiling a limit)

/-- Late blocks are relaxed and targets move, at a pace at which a window is neither empty nor
wide. -/
structure Rules.Paced (rules : Rules) : Prop where
  relaxed : rules.relaxed = true
  retargets : rules.atCeiling = false
  spacing_pos : 0 < rules.spacing
  two_mul_le : ∀ s, rules.spacingOf s * 2 ≤ rules.timespan
  lt_delay : ∀ s, rules.spacingOf s ≤ minDifficultyDelay
  window_le : ∀ s, 4 * rules.timespan ≤ 2 ^ 15 * rules.spacingOf s
  timespan_lt : rules.timespan < 2 ^ 63

theorem Rules.Opened.paced (h : rules.Opened) : rules.Paced := by
  induction h with
  | @preset n hn =>
    have hnumbers : (ofNetwork n).spacing = 80 ∧ (ofNetwork n).timespan = 43200 ∧
        (ofNetwork n).relaxed = true ∧
        (ofNetwork n).atCeiling = false := by
      cases n with
      | regtest => exact absurd rfl hn
      | _ => exact ⟨rfl, rfl, rfl, rfl⟩
    obtain ⟨hspacing, htimespan, hrelaxed, hretargets⟩ := hnumbers
    have hcases (s : Series) : (ofNetwork n).spacingOf s = 80 ∨
        (ofNetwork n).spacingOf s = 600 := by
      rw [spacingOf, hspacing]
      split
      · exact .inl rfl
      · exact .inr rfl
    refine ⟨hrelaxed, hretargets, by omega, fun s ↦ ?_, fun s ↦ ?_, fun s ↦ ?_, by omega⟩
    · rcases hcases s with h | h <;> omega
    · rcases hcases s with h | h <;> rw [h] <;> decide
    · rcases hcases s with h | h <;> omega
  | withCeiling a limit _ ih =>
    -- a ceiling has no say in the pace
    obtain ⟨h₁, h₂, h₃, h₄, h₅, h₆, h₇⟩ := ih
    exact ⟨h₁, h₂, h₃, h₄, h₅, h₆, h₇⟩

/-- Bits that blocks of an algorithm can carry on and on. -/
structure Rules.Sustains (rules : Rules) (a : Algorithm) (bits : UInt32) : Prop where
  canonical : encode (target bits) = bits
  six_le_size : 6 ≤ size bits
  le_ceiling : target bits ≤ rules.ceiling (some a)
  ne_marker : bits ≠ encode (rules.ceiling (some a)) - 1

/-- A series, newest first, that has carried the bits at its pace, and two of whose blocks lie below
the schedule that the candidate at the height is on. -/
structure Steady (rules : Rules) (a : Algorithm) (bits : UInt32) (height : Nat)
    (own : List Block) : Prop where
  bits_eq : ∀ x ∈ own, x.bits = bits
  spaced : own.IsChain fun x y ↦ x.time = y.time + rules.spacingOf (.tagged a)
  two_le : 2 ≤ own.length
  two_le_early : rules.scheduleStart ≤ height →
    2 ≤ own.countP fun x ↦ x.height < rules.scheduleStart

theorem capAt_some {limit : Nat} (h : 0 < v) (hle : v ≤ limit) : capAt limit (some v) = v :=
  if_pos ⟨Nat.ne_of_gt h, hle⟩

namespace Rules

theorem limit_tagged (rules : Rules) (a : Algorithm) :
    rules.limit (.tagged a) = rules.ceiling (some a) := rfl

theorem Sustains.encodeRounded_capAt (h : rules.Sustains a bits) (hle : v ≤ target bits)
    (hclose : target bits - v ≤ 2 ^ 15) :
    encodeRounded (capAt (rules.limit (.tagged a)) (some v)) = bits := by
  have htarget := le_target h.canonical h.six_le_size
  rw [limit_tagged, capAt_some (by omega) (hle.trans h.le_ceiling)]
  exact encodeRounded_of_close h.canonical h.six_le_size hle hclose

theorem Sustains.isRegular (h : rules.Sustains a bits) {x : Block} (hx : x.bits = bits) :
    x.bits ≠ marker (rules.ceiling (some a)) := by
  have htarget := le_target h.canonical h.six_le_size
  have hne := encode_ne_zero (rules.ceiling_lt (some a)) (by have := h.le_ceiling; omega)
  simp only [hx, marker, if_neg hne]
  exact h.ne_marker

end Rules

theorem Steady.exists_cons {height : Nat} (h : Steady rules a bits height own) :
    ∃ x y r, own = x :: y :: r :=
  exists_cons_cons h.two_le

theorem one_le_tdiv {s n : Int} (hs : 0 < s) (h : s ≤ n) : 1 ≤ n.tdiv s := by
  rw [Int.tdiv_eq_ediv_of_nonneg (by omega), Int.le_ediv_iff_mul_le hs]
  omega

namespace Ema

variable {x y : Block}

/-- A solve time of one spacing changes nothing, whatever its weight. -/
theorem rescale?_weighted {n s k : Int} (hs : 0 < s) (hn : 1 ≤ n) (hk : 0 ≤ k) (v : Nat) :
    rescale? v (max ((n - 1) * s + (k + 1) * s) 1) ((n + k) * s) = some v := by
  have hpos : 0 < (n + k) * s := Int.mul_pos (by omega) hs
  have hsum : (n - 1) * s + (k + 1) * s = (n + k) * s := by ring
  rw [hsum, max_eq_left (by omega), rescale?, if_neg (by omega), Nat.mul_div_cancel v (by omega)]

theorem weightedStep_steady (hp : rules.Paced) (hb : rules.Sustains a bits) (hx : x.bits = bits)
    (htime : x.time = y.time + rules.spacingOf (.tagged a)) :
    weightedStep rules (.tagged a) x y = .ok bits := by
  have hs := rules.spacingOf_pos hp.spacing_pos (.tagged a)
  have hn := one_le_tdiv (by omega) (hp.two_mul_le (.tagged a))
  have hscaled := rescale?_weighted hs hn le_rfl (target bits)
  have hcap := hb.encodeRounded_capAt le_rfl (by omega)
  simp only [zero_add, one_mul, add_zero] at hscaled
  simp only [weightedStep, quotient_of_pos (by omega : 0 < rules.spacingOf (.tagged a) * 2),
    ok_bind, hx, htime, add_sub_cancel_left]
  rw [hscaled, hcap]
  rfl

theorem doubledStep_steady (hp : rules.Paced) (hb : rules.Sustains a bits) (hx : x.bits = bits)
    (htime : x.time = y.time + rules.spacingOf (.tagged a)) :
    doubledStep rules (.tagged a) true x y = .ok bits := by
  have hs := rules.spacingOf_pos hp.spacing_pos (.tagged a)
  have hle := hp.two_mul_le (.tagged a)
  have hn := one_le_tdiv hs (by omega : _ ≤ rules.timespan)
  have hscaled := rescale?_weighted hs hn (by decide : (0 : Int) ≤ 1) (target bits)
  have hcap := hb.encodeRounded_capAt le_rfl (by omega)
  rw [one_add_one_eq_two] at hscaled
  simp only [doubledStep, if_true, quotient_of_pos hs, ok_bind, hx, htime, add_sub_cancel_left,
    Bool.not_true, Bool.false_and, Bool.false_eq_true, if_false, encodeBy_true]
  rw [hscaled, hcap]
  rfl

end Ema

namespace Absolute

theorem average_of_target_eq (h : ∀ x ∈ l, target x.bits = v) :
    average w l = l.length * (v / w) := by
  induction l with
  | nil => simp [average]
  | cons x l ih =>
    rw [List.forall_mem_cons] at h
    have hsum : average w (x :: l) = target x.bits / w + average w l := rfl
    rw [hsum, ih h.2, h.1, List.length_cons, Nat.succ_mul, Nat.add_comm]

theorem countP_le_length_fromReference (start : Nat) (own : List Block) :
    own.countP (fun x ↦ x.height < start) ≤ (fromReference start own).length := by
  have hsplit := takeWhile_append_fromReference start own
  have habove :
      (own.takeWhile fun x ↦ !decide (x.height < start)).countP (fun x ↦ x.height < start) = 0 := by
    rw [List.countP_eq_zero]
    intro x hx
    have h := List.mem_takeWhile_imp hx
    simpa using h
  calc own.countP (fun x ↦ x.height < start)
      = (fromReference start own).countP (fun x ↦ x.height < start) := by
        conv_lhs => rw [← hsplit, List.countP_append, habove, Nat.zero_add]
    _ ≤ (fromReference start own).length := List.countP_le_length

theorem time_eq_of_isChain {pre r : List Block} {y : Block} {s : Int}
    (h : (pre ++ y :: r).IsChain fun x y ↦ x.time = y.time + s) :
    ((pre ++ y :: r).headD g).time = y.time + s * pre.length := by
  induction pre with
  | nil => simp
  | cons x pre ih =>
    obtain ⟨z, r', hz⟩ :=
      List.exists_cons_of_ne_nil (List.append_ne_nil_of_right_ne_nil pre (List.cons_ne_nil y r))
    rw [List.cons_append, List.isChain_cons] at h
    have hx := h.1 z (by rw [hz]; rfl)
    have hrest := ih h.2
    rw [hz, List.headD_cons] at hrest
    rw [List.cons_append, List.headD_cons, hx, hrest, List.length_cons, Nat.cast_succ, mul_add,
      mul_one, add_assoc]

theorem late_eq_zero {s : Int} {start : Nat} (h : own.IsChain fun x y ↦ x.time = y.time + s)
    (hlow : 2 ≤ (fromReference start own).length) :
    (own.headD g).time - startOf s g (fromReference start own) - s * passed start own = 0 := by
  have hsplit := takeWhile_append_fromReference start own
  match hfrom : fromReference start own with
  | [] | [_] => simp [hfrom] at hlow
  | z :: z' :: r =>
    rw [hfrom] at hsplit
    rw [passed]
    generalize own.takeWhile _ = above at hsplit
    subst hsplit
    -- the schedule starts at the block before the reference
    rw [List.append_cons] at h
    have htime := time_eq_of_isChain (g := g) h
    rw [← List.append_cons, List.length_append, List.length_singleton] at htime
    have hstart : startOf s g (z :: z' :: r) = z'.time := rfl
    rw [htime, hstart]
    omega

/-- An average over a whole window loses less than the window's width. -/
theorem averageFrom_steady (hb : rules.Sustains a bits) (hbits : ∀ x ∈ own, x.bits = bits)
    (hw : w ≤ own.length) :
    averageFrom rules (.tagged a) w ⟨own, .genesis g⟩ = .ok (w * (target bits / w)) := by
  have hlen : (own.take w).length = w := List.length_take_of_le hw
  have htake : ∀ x ∈ own.take w, x.bits = bits := fun x hx ↦ hbits x (List.mem_of_mem_take hx)
  have hregular : ∀ x ∈ own.take w, rules.isRegular (.tagged a) x = true := by
    intro x hx
    have hne := hb.isRegular (htake x hx)
    simp [Rules.isRegular, Rules.limit_tagged, hne]
  -- genesis ends the descent, behind more blocks than the window takes in
  have hblocks : ((own ++ [g]).filter (rules.isRegular (.tagged a))).take w = own.take w := by
    conv_lhs => rw [← List.take_append_drop w own, List.append_assoc, List.filter_append,
      List.filter_eq_self.2 hregular]
    exact List.take_left' hlen
  have haverage : average w (own.take w) = (own.take w).length * (target bits / w) :=
    average_of_target_eq fun x hx ↦ congrArg target (htake x hx)
  rw [averageFrom_genesis, hblocks, haverage, hlen]

/-- The target that stands for the reference is at most a window below that of the blocks. -/
theorem referenceTarget_steady (hb : rules.Sustains a bits) (hbits : ∀ x ∈ own, x.bits = bits)
    (hown : own.filter (Series.tagged a).contains = own) (hw : w ≤ 2 ^ 15) {x : Block}
    (hx : x ∈ own) {n : Nat} (hn : n ≤ own.length) (height : Nat) :
    ∃ v lookup, referenceTarget rules (.tagged a) .disabled w height ⟨own, .genesis g⟩ x n =
      .ok (v, lookup, .disabled) ∧ v ≤ target bits ∧ target bits - v ≤ 2 ^ 15 := by
  rw [referenceTarget]
  split
  · next h =>
    obtain ⟨h0, -, hle⟩ := h
    -- whole windows are left once the remainder has been passed over
    have hmod := Nat.mod_add_div n w
    have hwindow : w ≤ w * (n / w) :=
      Nat.le_mul_of_pos_right w (Nat.div_pos hle (Nat.pos_of_ne_zero h0))
    have hdrop : w ≤ (own.drop (n % w)).length := by
      rw [List.length_drop]
      omega
    have haverage :=
      averageFrom_steady (g := g) hb (fun x hx ↦ hbits x (List.mem_of_mem_drop hx)) hdrop
    have hloss := Nat.mod_add_div (target bits) w
    have hlt := Nat.mod_lt (target bits) (Nat.pos_of_ne_zero h0)
    simp only [filter_genesis, hown, drop_genesis, top_genesis, ok_bind]
    rw [AverageMemo.query_disabled _ _ _ _ _ haverage, ok_bind]
    exact ⟨_, _, rfl, by omega, by omega⟩
  · exact ⟨_, none, rfl, (congrArg target (hbits x hx)).le, by rw [hbits x hx]; omega⟩

theorem window_le {s : Series} (hp : rules.Paced) (hw : window rules (rules.spacingOf s) = .ok w) :
    w ≤ 2 ^ 15 := by
  have hs := rules.spacingOf_pos hp.spacing_pos s
  have hle := hp.window_le s
  have htimespan := hp.two_mul_le s
  rw [window, quotient_of_pos hs, ok_bind] at hw
  obtain rfl := Except.ok.inj hw
  have hdiv : (4 * rules.timespan).tdiv (rules.spacingOf s) ≤ 2 ^ 15 := by
    rw [Int.tdiv_eq_ediv_of_nonneg (by omega)]
    exact Int.ediv_le_of_le_mul hs hle
  split <;> omega

theorem bits_on_time (hp : rules.Paced) (hb : rules.Sustains a bits) (hle : v ≤ target bits)
    (hclose : target bits - v ≤ 2 ^ 15) : Absolute.bits rules (.tagged a) v 0 = bits := by
  have hspacing := rules.spacingOf_pos hp.spacing_pos (.tagged a)
  have htimespan := hp.two_mul_le (.tagged a)
  have hscaled :
      capAt (rules.limit (.tagged a)) ((Exponential.scale? v 0 rules.timespan).map UInt512.val) =
      capAt (rules.limit (.tagged a)) (some v) :=
    Exponential.capAt_scale?_zero (hle.trans_lt (target_lt_two_pow bits)) (rules.limit_lt _)
      (by omega)
      (hp.timespan_lt.trans (by decide))
  rw [Absolute.bits, hscaled]
  exact hb.encodeRounded_capAt hle hclose

/-- Below the start height the moving average answers, from there on the schedule. -/
theorem nextOf_steady (hp : rules.Paced) (hb : rules.Sustains a bits) {height : Nat}
    (h : Steady rules a bits height (ownBlocks a l)) :
    ∃ lookup, nextOf rules a .disabled height g (ownBlocks a l) =
      .ok (bits, lookup, .disabled) := by
  have hown : (ownBlocks a l).filter (Series.tagged a).contains = ownBlocks a l := by
    simp only [ownBlocks, List.filter_filter, Bool.and_self]
  generalize ownBlocks a l = own at *
  obtain ⟨w, hw⟩ := window_ok rules (rules.spacingOf_pos hp.spacing_pos (.tagged a))
  obtain ⟨x, y, r, rfl⟩ := h.exists_cons
  have hx := h.bits_eq x List.mem_cons_self
  have htime := (List.isChain_cons_cons.1 h.spaced).1
  simp only [nextOf, firstTwo, hw, ok_bind]
  by_cases hheight : height < rules.scheduleStart
  · rw [if_pos hheight, Ema.weightedStep_steady hp hb hx htime, ok_bind]
    exact ⟨none, rfl⟩
  · rw [if_neg hheight]
    -- two early blocks: the reference is not genesis, and its schedule
    -- starts at a block of the series
    have hearly :=
      (h.two_le_early (Nat.not_lt.1 hheight)).trans (countP_le_length_fromReference _ _)
    have hlate := late_eq_zero (g := g) h.spaced hearly
    have hlen := length_eq_passed rules.scheduleStart (x :: y :: r)
    have hmem : (fromReference rules.scheduleStart (x :: y :: r)).headD g ∈ x :: y :: r := by
      obtain ⟨z, lower, hlower⟩ := List.exists_cons_of_length_pos (Nat.zero_lt_of_lt hearly)
      apply (List.dropWhile_suffix fun x : Block ↦ !decide (x.height < rules.scheduleStart)).subset
      rw [← fromReference, hlower]
      exact List.mem_cons_self
    obtain ⟨v, lookup, htarget, hle, hclose⟩ := referenceTarget_steady (g := g) hb h.bits_eq hown
      (window_le hp hw) hmem (n := passed rules.scheduleStart (x :: y :: r)) (by omega) height
    rw [List.headD_cons] at hlate
    rw [htarget, ok_bind, hlate, bits_on_time hp hb hle hclose]
    exact ⟨lookup, rfl⟩

end Absolute

theorem lateBits_steady (hp : rules.Paced) (hb : rules.Sustains a bits) {height : Nat} {time : Int}
    {newest : Block} (h : Steady rules a bits height (ownBlocks a l))
    (hnewest : (ownBlocks a l).head? = some newest)
    (htime : time = newest.time + rules.spacingOf (.tagged a)) :
    lateBits rules a time g l = .ok none := by
  obtain ⟨r, hown⟩ := List.head?_eq_some_iff.1 hnewest
  have hdelay := hp.lt_delay (.tagged a)
  have hmem : newest ∈ ownBlocks a l := by
    rw [hown]
    exact List.mem_cons_self
  rw [lateBits, if_pos hp.relaxed]
  refine MinDifficulty.forced?_of_regular hown ?_ (hb.isRegular (h.bits_eq newest hmem))
  omega

theorem doubled_steady (hp : rules.Paced) (hb : rules.Sustains a bits) (hc : c.algorithm? = some a)
    {height : Nat} (h : Steady rules a bits height (ownBlocks a l)) :
    Ema.doubled rules c (some ⟨l, .genesis g⟩) = .ok bits := by
  obtain ⟨x, y, r, hown⟩ := h.exists_cons
  have hx := h.bits_eq x (by rw [hown]; exact List.mem_cons_self)
  have hspaced := h.spaced
  rw [hown] at hspaced
  have htime := (List.isChain_cons_cons.1 hspaced).1
  rw [ownBlocks] at hown
  rw [Ema.doubled, c.series_of_tag hc, c.isTagged_of_tag hc, Ema.onNewestTwo,
    newestTwo?_genesis, hown, ok_bind]
  exact Ema.doubledStep_steady hp hb hx htime

theorem requirement_steady (hp : rules.Paced) (hb : rules.Sustains a bits)
    (hc : c.algorithm? = some a) (ha : rules.admits (some a)) (hl : Climbs g l) {newest : Block}
    (h : Steady rules a bits ((l.headD g).height + 1) (ownBlocks a l))
    (hnewest : (ownBlocks a l).head? = some newest)
    (htime : c.time = newest.time + rules.spacingOf (.tagged a)) :
    ∃ r, requirement rules c .disabled (some ⟨l, .genesis g⟩) = .ok (r, .disabled) ∧
      r.forced = none ∧ r.regime = rules.regimeAt ((l.headD g).height + 1) (a = .stake) ∧
      (r.regime = .weighted ∨ r.regime = .scheduled → r.bits = bits) := by
  rw [requirement_tagged hc ha hp.retargets, lateBits_steady hp hb h hnewest htime, ok_bind]
  rcases rules.regimeAt_cases ((l.headD g).height + 1) (Series.tagged a).isStake with
    hreg | hreg | hreg
  · obtain ⟨lookup, hnext⟩ := Absolute.nextOf_steady (g := g) hp hb h
    simp only [hreg, settle, Option.map_none, Absolute.next_tagged hc, hnext, ok_bind]
    exact ⟨_, rfl, rfl, hreg.symm, fun _ ↦ rfl⟩
  · simp only [hreg, settle, Option.map_none, doubled_steady hp hb hc h, ok_bind]
    exact ⟨_, rfl, rfl, hreg.symm, fun _ ↦ rfl⟩
  · obtain ⟨average, haverage, -⟩ := MovingAverage.next_capped (c := c) hp.spacing_pos
      (fun b hb' ↦ Option.some.inj hb' ▸ ⟨hl⟩ : ∀ b ∈ some (⟨l, .genesis g⟩ : Branch), b.Grounded)
    simp only [hreg, settle, Option.map_none, haverage, ok_bind]
    refine ⟨_, rfl, rfl, hreg.symm, fun hregime ↦ ?_⟩
    rcases hregime with hregime | hregime <;> cases hregime

/-- On a network that retargets, bits that a series has carried at its pace are required again, by
the moving average that doubles the solve time, by the other one before the schedule, and by the
schedule from a reference or an average, whatever true averages the memo holds. -/
theorem requirement_eq_of_steady (ho : rules.Opened) (hb : rules.Sustains a bits) {t : BlockTree}
    (ht : t.Grown) {id : BlockId} (hid : id < t.size) {tip newest : Block}
    (htip : (t.branch id).top = .ok tip)
    (h : Steady rules a bits (tip.height + 1) (ownBlocks a (t.branch id).blocks))
    (hnewest : (ownBlocks a (t.branch id).blocks).head? = some newest) (hc : c.algorithm? = some a)
    (ha : rules.admits (some a)) (htime : c.time = newest.time + rules.spacingOf (.tagged a))
    {m : AverageMemo} (hm : m.Sound rules t) :
    ∃ r m', requirement rules c m (some (t.branch id)) = .ok (r, m') ∧ r.forced = none ∧
      r.regime = rules.regimeAt (tip.height + 1) (a = .stake) ∧
      (r.regime = .weighted ∨ r.regime = .scheduled → r.bits = bits) := by
  have hp := ho.paced
  obtain ⟨g, l, hbranch, hb', hl⟩ := ht.sound.exists_path hid
  rw [hbranch] at htip h hnewest ⊢
  rw [top_genesis, Except.ok.injEq] at htip
  subst htip
  have hmem : ∀ b ∈ some (⟨l, .genesis g⟩ : Branch), ∃ id : BlockId, t.branches[id]? = some b :=
    fun b h ↦ ⟨id, Option.some.inj h ▸ hb'⟩
  obtain ⟨r, m', lookup, hreq, hplain, -⟩ :=
    requirement_transparent (c := c) ht.sound hm hp.spacing_pos hmem
  obtain ⟨r', hreq', hforced, hregime, hbits⟩ := requirement_steady hp hb hc ha hl h hnewest htime
  rw [hreq'] at hplain
  cases hplain
  exact ⟨r, m', hreq, hforced, hregime, hbits⟩

/-- The rules of testnet with one more algorithm. -/
def sampleRules : Rules := Rules.testnet.withCeiling .sha256d ⟨target 0x1e0fffff, target_lt _⟩

/-- Blocks of the new algorithm, and below the newest of them a block of another one. -/
def sampleSteadyLine : List Entry :=
  let own := BlockTree.numberedLine (Algorithm.version .sha256d) 0x1d0f0000 12
  own.take 1 ++ BlockTree.numbered (Algorithm.version .xevan) 0x1e00ffff 13 :: own.drop 1

theorem requirement_eq_of_steady_on_testnet :
    let c : Candidate := .ofTag (some .sha256d) 7800
    let t := BlockTree.lineTree BlockTree.numberedGenesis sampleSteadyLine
    t.Grown ∧ t.size = 14 ∧ ∃ r m', requirement sampleRules c {} (some (t.branch 13)) =
      .ok (r, m') ∧
      r.forced = none ∧ r.regime = .scheduled ∧ r.bits = 0x1d0f0000 := by
  intro c t
  have hhash : ((sampleSteadyLine ++ [BlockTree.numberedGenesis]).map Entry.hash).Nodup := by
    decide +kernel
  have hgrown : t.Grown := (BlockTree.line_lineTree _ _ hhash).grown
  have hsize : t.size = 14 := BlockTree.size_lineTree hhash
  have hb : t.branch 13 = _ := BlockTree.branch_of_branches (BlockTree.branch_lineTree hhash 0)
  have hopened : sampleRules.Opened := .withCeiling _ _ (.preset (n := .testnet) (by decide))
  have hsustains : sampleRules.Sustains .sha256d 0x1d0f0000 := by
    constructor <;> decide +kernel
  have hsteady :
      Steady sampleRules .sha256d 0x1d0f0000 14 (ownBlocks .sha256d (t.branch 13).blocks) := by
    rw [hb]
    constructor <;> decide +kernel
  have hmemo : ({} : AverageMemo).Sound sampleRules t := AverageMemo.sound_of_empty rfl rfl
  have hid : 13 < t.size := hsize ▸ Nat.lt_succ_self 13
  have hc : c.algorithm? = some .sha256d := Algorithm.ofVersion?_version .sha256d
  obtain ⟨r, m', hreq, hforced, hregime, hbits⟩ :=
    requirement_eq_of_steady hopened hsustains hgrown hid
    (by rw [hb]; rfl) hsteady (by rw [hb]; rfl) hc (by decide +kernel) rfl hmemo
  exact ⟨hgrown, hsize, r, m', hreq, hforced, hregime, hbits (.inr hregime)⟩

end HybridDifficulty
