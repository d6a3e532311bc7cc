import HybridDifficulty.Proofs.MemoEntries
import HybridDifficulty.Proofs.ScaleOrder

/-!
A newest block that came later never makes the next target harder. What a strategy caps rises with
the time of that block, and the rest of what it looks at stays the same.
-/

namespace HybridDifficulty

open Branch

def Block.retime (id : BlockId) (time : Int) (y : Block) : Block :=
  if y.id = id then { y with time } else y

def Root.retime (id : BlockId) (time : Int) : Root → Root
  | .genesis g => .genesis (g.retime id time)
  | .lost parent => .lost parent
  | .circle ring => .circle (ring.map (Block.retime id time))

/-- The branch with another time at the block that has the id. -/
def Branch.retime (id : BlockId) (time : Int) (b : Branch) : Branch :=
  ⟨b.blocks.map (Block.retime id time), b.root.retime id time⟩

/-- What the weighted average caps. -/
def Ema.scaled? (rules : Rules) (s : Series) (tip : Branch) : Option Nat := do
  let (newest, before) ← firstTwo (tip.blocks.filter s.contains)
  let spacing := rules.spacingOf s
  let interval := rules.timespan / (spacing * 2)
  let num := max ((interval - 1) * spacing + (newest.time - before.time)) 1
  rescale? (CompactForm.target newest.bits) num (interval * spacing)

/-- What the moving average caps, where it averages anything, or what the weighted one does in its
place. -/
def MovingAverage.scaled? (rules : Rules) (c : Candidate) (tip : Branch) : Option Nat := do
  let plan := planned rules c
  let own := tip.blocks.filter c.series.contains
  let (newest, _) ← firstTwo own
  let top ← tip.top.toOption
  if (top.height : Int) < plan.minHeight then
    if plan.isTagged then Ema.scaled? rules c.series tip else none
  else if plan.length < 1 then none
  else
    let samples := (own.filter (rules.isRegular c.series)).take plan.length.toNat
    (plan.beginning? samples[plan.length.toNat - 1]? own).map fun last ↦
      plan.scaledAverage (rules.limit c.series) samples (newest.time - last.time)

/-- What the absolute schedule caps, in numbers without bound, or what the weighted average does
before it starts. -/
def Absolute.scaled? (rules : Rules) (c : Candidate) (tip : Branch) : Option Nat := do
  let s := c.series
  let (newest, _) ← firstTwo (tip.blocks.filter s.contains)
  let spacing := rules.spacingOf s
  let height := (← tip.top.toOption).height + 1
  if height < rules.scheduleStart then Ema.scaled? rules s tip
  else
    let fromNewest := tip.seek s.contains
    let (below, passed) := reference rules.scheduleStart s.tag fromNewest
    let late := newest.time - (← (startTime spacing s below).toOption) - spacing * passed
    let w ← (window rules spacing).toOption
    let ref ← below.top.toOption
    let (target, _) ← (referenceTarget rules s .disabled w height fromNewest ref passed).toOption
    return Exponential.exactScale target late rules.timespan

/-- A result before and after a change, of which the second is no harder unless what the first was
capped from is zero. -/
def NotHarder (limit : Nat) (value? : Option Nat) (before after : Except Fault UInt32) : Prop :=
  ∃ bits bits', before = .ok bits ∧ after = .ok bits' ∧
    (∃ rounding, bits = encodeBy rounding (capAt limit value?)) ∧
    (value? ≠ some 0 → CompactForm.target bits ≤ CompactForm.target bits')

/-- A path of so many blocks on which the newest block of the series and those below it are the
given ones. -/
structure Shows (s : Series) (g : Block) (n : Nat) (shown l : List Block) : Prop where
  climbs : Climbs g l
  length_eq : l.length = n
  seek_eq : (l.dropWhile fun y ↦ !s.contains y) = shown

/-- Where only the time of the newest block of the series is open, a strategy caps a number that
rises with it. -/
def Rises (limit : Nat) (s : Series) (g : Block) (n : Nat) (x : Block) (lower : List Block)
    (value? : Branch → Option Nat) (result : Branch → Except Fault UInt32) : Prop :=
  ∃ (rounding : Bool) (f : Int → Option Nat), (∀ u v, u ≤ v → (f u).Rel (· ≤ ·) (f v)) ∧
    ∀ time l, Shows s g n ({ x with time } :: lower) l →
      value? ⟨l, .genesis g⟩ = f time ∧
      result ⟨l, .genesis g⟩ = .ok (encodeBy rounding (capAt limit (f time)))

variable {rules : Rules} {t t' : BlockTree} {c : Candidate} {s : Series} {id : BlockId}
  {g x y : Block} {l l' lower r : List Block} {limit n : Nat} {time : Int}
  {value? : Branch → Option Nat} {result : Branch → Except Fault UInt32}

theorem Rises.notHarder (h : Rises limit s g n x lower value? result) (hlimit : limit < 2 ^ 256)
    {time' : Int} (htime : time ≤ time') (hl : Shows s g n ({ x with time } :: lower) l)
    (hl' : Shows s g n ({ x with time := time' } :: lower) l') :
    NotHarder limit (value? ⟨l, .genesis g⟩) (result ⟨l, .genesis g⟩)
      (result ⟨l', .genesis g⟩) := by
  obtain ⟨rounding, f, hmono, hf⟩ := h
  obtain ⟨hvalue, hresult⟩ := hf time l hl
  obtain ⟨-, hresult'⟩ := hf time' l' hl'
  refine ⟨_, _, hresult, hresult', ⟨rounding, by rw [hvalue]⟩, fun h0 ↦ ?_⟩
  rw [hvalue] at h0
  exact target_encodeBy_mono rounding (capAt_mono (hmono time time' htime) h0)
    ((capAt_le _ _).trans_lt hlimit)

theorem rises_of_constant (rounding : Bool)
    (h : ∀ time l, Shows s g n ({ x with time } :: lower) l →
      value? ⟨l, .genesis g⟩ = none ∧
      result ⟨l, .genesis g⟩ = .ok (encodeBy rounding (capAt limit none))) :
    Rises limit s g n x lower value? result :=
  ⟨rounding, fun _ ↦ none, fun _ _ _ ↦ .none, h⟩

theorem Rises.congr {value?' : Branch → Option Nat} {result' : Branch → Except Fault UInt32}
    (h : Rises limit s g n x lower value? result)
    (heq : ∀ time l, Shows s g n ({ x with time } :: lower) l →
      value?' ⟨l, .genesis g⟩ = value? ⟨l, .genesis g⟩ ∧
      result' ⟨l, .genesis g⟩ = result ⟨l, .genesis g⟩) :
    Rises limit s g n x lower value?' result' := by
  obtain ⟨rounding, f, hmono, hf⟩ := h
  refine ⟨rounding, f, hmono, fun time l hl ↦ ?_⟩
  rw [(heq time l hl).1, (heq time l hl).2]
  exact hf time l hl

namespace Shows

theorem contains (h : Shows s g n (x :: lower) l) : s.contains x = true := by
  have hx := List.head?_dropWhile_not (fun y ↦ !s.contains y) l
  simpa [h.seek_eq] using hx

theorem filter_eq (h : Shows s g n (x :: lower) l) :
    l.filter s.contains = x :: lower.filter s.contains := by
  rw [← filter_dropWhile_not, h.seek_eq, List.filter_cons_of_pos h.contains]

end Shows

namespace Ema

theorem weighted_of_firstTwo (h : firstTwo (l.filter c.series.contains) = none) :
    scaled? rules c.series ⟨l, .genesis g⟩ = none ∧
      weighted rules c (some ⟨l, .genesis g⟩) =
        .ok (encodeBy false (capAt (rules.limit c.series) none)) := by
  refine ⟨?_, onNewestTwo_of_firstTwo _ h⟩
  simp only [scaled?, h]
  rfl

theorem rises (hf : rules.fault? = none) (c : Candidate) (g : Block) (n : Nat) (x : Block)
    (lower : List Block) :
    Rises (rules.limit c.series) c.series g n x lower (scaled? rules c.series)
      (weighted rules c ∘ some) := by
  obtain ⟨hspacing, htimespan, -⟩ := Rules.of_fault?_eq_none hf
  have hs := rules.spacingOf_pos hspacing c.series
  cases hlower : lower.filter c.series.contains with
  | nil =>
    exact rises_of_constant false fun time l hl ↦
      weighted_of_firstTwo (by rw [hl.filter_eq, hlower]; rfl)
  | cons y r =>
    let spacing := rules.spacingOf c.series
    let interval := rules.timespan / (spacing * 2)
    refine ⟨true, fun time ↦ rescale? (CompactForm.target x.bits)
      (max ((interval - 1) * spacing + (time - y.time)) 1) (interval * spacing), ?_, ?_⟩
    · intro u v h
      exact rescale?_mono (by omega) (by omega)
    · intro time l hl
      have hown := hlower ▸ hl.filter_eq
      constructor
      · simp only [scaled?, hown, firstTwo]
        rfl
      · have hquotient : quotient rules.timespan (spacing * 2) = .ok interval := by
          rw [quotient_of_pos (by omega), Int.tdiv_eq_ediv_of_nonneg htimespan.le]
        simp only [Function.comp_apply, weighted, onNewestTwo, newestTwo?_genesis, hown, firstTwo,
          ok_bind, weightedStep, encodeBy_true]
        rw [hquotient]
        rfl

end Ema

section Bits

variable {own own' : List Block}

/-- Which blocks are regular, and what they add to an average, is decided by their bits. -/
theorem map_bits_regular (h : own.map (·.bits) = own'.map (·.bits)) (n : Nat) :
    ((own.filter (rules.isRegular s)).take n).map (·.bits) =
      ((own'.filter (rules.isRegular s)).take n).map (·.bits) := by
  have hfilter (l : List Block) : (l.filter (rules.isRegular s)).map (·.bits) =
      (l.map (·.bits)).filter fun bits ↦ !rules.relaxed || bits ≠
        CompactForm.marker (rules.limit s) := by
    rw [List.filter_map]
    rfl
  rw [List.map_take, List.map_take, hfilter, hfilter, h]

theorem MovingAverage.Plan.scaledAverage_congr (plan : Plan) (limit : Nat)
    (h : own.map (·.bits) = own'.map (·.bits)) (elapsed : Int) :
    plan.scaledAverage limit own elapsed = plan.scaledAverage limit own' elapsed := by
  have hparts (l : List Block) :
      (l.mapIdx fun i x ↦ plan.share (if i = 0 then plan.weight else 1) x) =
      (l.map (·.bits)).mapIdx fun i bits ↦
        min ((if i = 0 then plan.weight else 1) * CompactForm.target bits)
        (byteWeight 32 - 1) / (plan.length + plan.weight - 1).toNat := by
    apply List.ext_getElem?
    simp [share, Function.comp_def]
  simp only [scaledAverage, averageOr, hparts, h]

end Bits

namespace MovingAverage

variable {plan : Plan} {own samples : List Block}

theorem Plan.exists_beginning? (plan : Plan) (last : Option Block) (y : Block) (r : List Block) :
    ∃ b, plan.beginning? last (y :: r) = some b := by
  rw [← Option.isSome_iff_exists]
  simp [beginning?, Option.isSome_or]

/-- The measured time never begins with the newest block, so that the block does not depend on the
newest time. Only a plan of a single block could begin there before tags. -/
theorem Plan.beginning?_of_newest (hlength : 1 ≤ plan.length.toNat)
    (hplan : plan.isTagged = true ∨ 2 ≤ plan.length.toNat) (isRegular : Block → Bool)
    (hregular : ∀ time, isRegular { x with time } = isRegular x)
    (hx : ∀ z ∈ y :: r, z.height ≠ x.height) :
    ∃ b, ∀ time, plan.beginning?
      (({ x with time } :: y :: r).filter isRegular)[plan.length.toNat - 1]?
      ({ x with time } :: y :: r) = some b := by
  have hlower (i : Nat) : ∃ b, ∀ time, plan.beginning? ((y :: r).filter isRegular)[i]?
      ({ x with time } :: y :: r) = some b := by
    obtain ⟨b, hb⟩ := plan.exists_beginning? ((y :: r).filter isRegular)[i]? y r
    refine ⟨b, fun time ↦ (beginning?_cons ?_ y r).trans hb⟩
    rintro z hz rfl
    exact hx _ (List.mem_filter.1 (List.mem_of_getElem? hz)).1 rfl
  obtain ⟨n, hn⟩ : ∃ n, plan.length.toNat = n + 1 := Nat.exists_eq_succ_of_ne_zero (by omega)
  rw [hn, Nat.add_sub_cancel]
  -- a marker is no sample, so a newest marker leaves the last sample where it is
  cases hreg : isRegular x with
  | false =>
    simp only [List.filter_cons, hregular, hreg, Bool.false_eq_true, if_false] at hlower ⊢
    exact hlower n
  | true =>
    cases n with
    | zero =>
      have htagged : plan.isTagged = true := hplan.resolve_right (by omega)
      exact ⟨y, fun time ↦ by simp [beginning?, htagged, hregular, hreg]⟩
    | succ n =>
      obtain ⟨b, hb⟩ := hlower n
      refine ⟨b, fun time ↦ ?_⟩
      rw [List.filter_cons_of_pos ((hregular time).trans hreg), List.getElem?_cons_succ]
      exact hb time

theorem next_of_firstTwo (hf : rules.fault? = none)
    (h : firstTwo (l.filter c.series.contains) = none) :
    scaled? rules c ⟨l, .genesis g⟩ = none ∧
      next rules c (some ⟨l, .genesis g⟩) =
        .ok (encodeBy false (capAt (rules.limit c.series) none)) := by
  refine ⟨?_, next_of_firstTwo_none (Rules.spacing_pos hf) h⟩
  simp only [scaled?, h]
  rfl

theorem scaled?_genesis (hl : Climbs g l) {y : Block}
    (hown : l.filter c.series.contains = x :: y :: r) :
    let plan := planned rules c
    let own := x :: y :: r
    let samples := (own.filter (rules.isRegular c.series)).take plan.length.toNat
    scaled? rules c ⟨l, .genesis g⟩ =
      if (l.length : Int) < plan.minHeight then
        if plan.isTagged then Ema.scaled? rules c.series ⟨l, .genesis g⟩ else none
      else if plan.length < 1 then none
      else (plan.beginning? samples[plan.length.toNat - 1]? own).map fun last ↦
        plan.scaledAverage (rules.limit c.series) samples (x.time - last.time) := by
  simp only [scaled?, hown, firstTwo, top_genesis, Except.toOption, Option.bind_eq_bind,
    Option.bind_some, hl.top_height]

theorem next_of_short (hf : rules.fault? = none) (hl : Climbs g l)
    (hheight : (l.length : Int) < (planned rules c).minHeight) {y : Block}
    (hown : l.filter c.series.contains = x :: y :: r) :
    scaled? rules c ⟨l, .genesis g⟩ =
      (if c.isTagged then Ema.scaled? rules c.series ⟨l, .genesis g⟩ else none) ∧
      next rules c (some ⟨l, .genesis g⟩) =
        if c.isTagged then Ema.weighted rules c (some ⟨l, .genesis g⟩)
        else .ok (rules.limitBits c.series) := by
  constructor
  · rw [scaled?_genesis hl hown, if_pos hheight, planned_isTagged]
  · rw [next, ofCandidate_eq_planned hf, ok_bind]
    simp only [filter_genesis, newestTwo?_genesis, hown, firstTwo, top_genesis, ok_bind,
      hl.top_height, planned_isTagged]
    rw [if_pos hheight]
    rfl

/-- Without a block to average there is no ideal time to scale by. -/
theorem Plan.bits_of_length_eq_zero (h : plan.length = 0) (limit : Nat) (samples : List Block) :
    plan.bits limit samples 0 = encodeBy plan.isTagged (capAt limit none) := by
  simp [bits, times, h, rescale?]

theorem next_of_empty (hf : rules.fault? = none) (hl : Climbs g l)
    (hheight : (planned rules c).minHeight ≤ l.length) (hlength : (planned rules c).length < 1)
    {y : Block} (hown : l.filter c.series.contains = x :: y :: r) :
    scaled? rules c ⟨l, .genesis g⟩ = none ∧
      next rules c (some ⟨l, .genesis g⟩) =
        .ok (encodeBy c.isTagged (capAt (rules.limit c.series) none)) := by
  have hzero : (planned rules c).length = 0 :=
    Int.le_antisymm (by omega) (planned_length_nonneg hf c)
  have hbits := Plan.bits_of_length_eq_zero hzero (rules.limit c.series) []
  rw [planned_isTagged] at hbits
  constructor
  · rw [scaled?_genesis hl hown, if_neg (not_lt.2 hheight), if_pos hlength]
  · rw [next, ofCandidate_eq_planned hf, ok_bind]
    simp only [filter_genesis, newestTwo?_genesis, hown, firstTwo, top_genesis, ok_bind,
      hl.top_height]
    rw [if_neg (not_lt.2 hheight), hzero, Int.toNat_zero, Plan.sample, ok_bind, Int.sub_self, hbits]
    rfl

theorem rises_of_average (hf : rules.fault? = none) (hn : (planned rules c).minHeight ≤ (n : Int))
    (hlength : 1 ≤ (planned rules c).length) (hlower : lower.filter c.series.contains = y :: r)
    (hx : ∀ z ∈ y :: r, z.height ≠ x.height) :
    Rises (rules.limit c.series) c.series g n x lower (scaled? rules c) (next rules c ∘ some) := by
  let plan := planned rules c
  let samples (time : Int) :=
    (({ x with time } :: y :: r).filter (rules.isRegular c.series)).take plan.length.toNat
  have hnat : 1 ≤ plan.length.toNat := Int.pos_iff_toNat_pos.1 hlength
  have hplan : plan.isTagged = true ∨ 2 ≤ plan.length.toNat := by
    simp only [plan, planned]
    split
    · exact .inl rfl
    · exact .inr (by decide)
  obtain ⟨last, hlast⟩ :=
    Plan.beginning?_of_newest hnat hplan (rules.isRegular c.series) (fun _ ↦ rfl) hx
  have hlast' (time : Int) : plan.beginning? (samples time)[plan.length.toNat - 1]?
      ({ x with time } :: y :: r) = some last := by
    rw [List.getElem?_take_of_lt (by omega)]
    exact hlast time
  have hbits (time : Int) : (samples time).map (·.bits) = (samples x.time).map (·.bits) :=
    map_bits_regular (by simp only [List.map_cons]) _
  have hsame (time : Int) (elapsed : Int) :
      plan.scaledAverage (rules.limit c.series) (samples time) elapsed =
      plan.scaledAverage (rules.limit c.series) (samples x.time) elapsed :=
    plan.scaledAverage_congr _ (hbits time) elapsed
  refine ⟨c.isTagged, fun time ↦
    some (plan.scaledAverage (rules.limit c.series) (samples x.time) (time - last.time)), ?_, ?_⟩
  · intro u v h
    exact .some (Plan.scaledAverage_mono hlength (planned_spacing_pos hf c) _ _ (by omega))
  · intro time l hl
    have hown := hlower ▸ hl.filter_eq
    have hheight : plan.minHeight ≤ l.length := hl.length_eq ▸ hn
    constructor
    · rw [scaled?_genesis hl.climbs hown, if_neg (not_lt.2 hheight), if_neg (not_lt.2 hlength),
        hlast', Option.map_some, hsame]
    · obtain ⟨newest, last', hnewest, hlast'', hnext⟩ :=
        next_genesis hf hl.climbs hlength hheight (by simp [hown])
      rw [hown] at hnewest hlast'' hnext
      obtain rfl : { x with time } = newest := Option.some.inj hnewest
      obtain rfl : last = last' := Option.some.inj ((hlast' time).symm.trans hlast'')
      rw [Function.comp_apply, hnext]
      exact congrArg (fun v ↦
        Except.ok (encodeBy c.isTagged (capAt (rules.limit c.series) (some v)))) (hsame time _)

theorem rises (hf : rules.fault? = none) (c : Candidate) (n : Nat)
    (hx : ∀ z ∈ lower, z.height ≠ x.height) :
    Rises (rules.limit c.series) c.series g n x lower (scaled? rules c) (next rules c ∘ some) := by
  cases hlower : lower.filter c.series.contains with
  | nil =>
    exact rises_of_constant false fun time l hl ↦
      next_of_firstTwo hf (by rw [hl.filter_eq, hlower]; rfl)
  | cons y r =>
    by_cases hheight : (n : Int) < (planned rules c).minHeight
    · have hshort {time : Int} {l : List Block}
          (hl : Shows c.series g n ({ x with time } :: lower) l) :=
        next_of_short hf hl.climbs (hl.length_eq.symm ▸ hheight) (hlower ▸ hl.filter_eq)
      cases htagged : c.isTagged with
      | false =>
        rw [htagged] at hshort
        exact rises_of_constant false fun time l hl ↦ hshort hl
      | true =>
        rw [htagged] at hshort
        exact (Ema.rises hf c g n x lower).congr fun time l hl ↦ hshort hl
    · by_cases hlength : (planned rules c).length < 1
      · refine rises_of_constant c.isTagged fun time l hl ↦ ?_
        exact next_of_empty hf hl.climbs (hl.length_eq.symm ▸ not_lt.1 hheight) hlength
          (hlower ▸ hl.filter_eq)
      · refine rises_of_average hf (not_lt.1 hheight) (not_lt.1 hlength) hlower fun z hz ↦ ?_
        exact hx z (List.mem_filter.1 (hlower ▸ hz)).1

end MovingAverage

namespace Absolute

theorem average_lt {w : Nat} {blocks : List Block} (h : blocks.length ≤ w) :
    average w blocks < 2 ^ 256 := by
  have hle : ∀ v ∈ blocks.map (fun b ↦ CompactForm.target b.bits / w), v ≤ (2 ^ 256 - 1) / w := by
    intro v hv
    obtain ⟨b, -, rfl⟩ := List.mem_map.1 hv
    exact Nat.div_le_div_right (Nat.le_pred_of_lt (CompactForm.target_lt_two_pow b.bits))
  have hsum := sum_le_of_le_div hle (by rwa [List.length_map])
  exact hsum.trans_lt (by decide)

theorem average_congr {w : Nat} {blocks blocks' : List Block}
    (h : blocks.map (·.bits) = blocks'.map (·.bits)) :
    average w blocks = average w blocks' := by
  have hparts (l : List Block) : (l.map fun b ↦ CompactForm.target b.bits / w) =
      (l.map (·.bits)).map fun bits ↦ CompactForm.target bits / w := by
    rw [List.map_map]
    rfl
  rw [average, average, hparts, hparts, h]

/-- The reference is at or below the newest block and the schedule starts below the reference, so
that neither its bits, its count nor its start know the newest time. -/
theorem exists_reference (rules : Rules) (s : Series) (g x : Block) (lower : List Block) :
    ∃ (start : Int) (passed : Nat) (bits : UInt32), ∀ time, ∃ below ref,
      reference rules.scheduleStart s.tag ⟨{ x with time } :: lower, .genesis g⟩ = (below, passed) ∧
      startTime (rules.spacingOf s) s below = .ok start ∧ below.top = .ok ref ∧
      ref.bits = bits := by
  by_cases hearly : x.height < rules.scheduleStart
  · -- the newest block is itself the reference, and the schedule starts at the one under it
    refine ⟨((lower.dropWhile fun y ↦ !s.contains y).headD g).time, 1, x.bits, fun time ↦ ?_⟩
    refine ⟨⟨{ x with time } :: lower, .genesis g⟩, { x with time }, ?_, ?_, rfl, rfl⟩
    · simp [reference, hearly]
    · rw [startTime, below?_genesis_cons]
      simp [ok_bind, pure, Except.pure]
  · obtain ⟨below, passed, href⟩ : ∃ l passed, ∀ time,
        reference rules.scheduleStart s.tag ⟨{ x with time } :: lower, .genesis g⟩ =
          (⟨l, .genesis g⟩, passed) := by
      simp only [reference, if_neg hearly, seek_genesis, unroll_genesis]
      exact ⟨_, _, fun _ ↦ rfl⟩
    obtain ⟨start, hstart⟩ := startTime_ok (rules.spacingOf s) s g below
    exact ⟨start, passed, _, fun time ↦ ⟨_, _, href time, hstart, top_genesis g below, rfl⟩⟩

theorem exists_referenceTarget (rules : Rules) (s : Series) (w height passed : Nat) (bits : UInt32)
    (g x : Block) (lower : List Block) :
    ∃ target lookup, target < 2 ^ 256 ∧ ∀ time ref, ref.bits = bits →
      referenceTarget rules s .disabled w height ⟨{ x with time } :: lower, .genesis g⟩ ref passed =
        .ok (target, lookup, .disabled) := by
  by_cases huse : w ≠ 0 ∧ min (rules.scheduleStart + w) (UInt32.size - 1) ≤ height ∧ w ≤ passed
  · let own (time : Int) := (({ x with time } :: lower).filter s.contains).drop (passed % w)
    have hbits (time : Int) :
        (own time ++ [g]).map (·.bits) = (own x.time ++ [g]).map (·.bits) := by
      have hcontains : s.contains { x with time } = s.contains x := by cases s <;> rfl
      cases hx : s.contains x <;> simp [own, List.map_drop, List.filter_cons, hcontains, hx]
    refine ⟨average w (((own x.time ++ [g]).filter (rules.isRegular s)).take w), some .bypassed,
      average_lt (List.length_take_le _ _), fun time ref _ ↦ ?_⟩
    have haverage : averageFrom rules s w ⟨own time, .genesis g⟩ =
        .ok (average w (((own x.time ++ [g]).filter (rules.isRegular s)).take w)) := by
      rw [averageFrom_genesis, average_congr (map_bits_regular (hbits time) w)]
    simp only [referenceTarget, if_pos huse, filter_genesis, drop_genesis, top_genesis, ok_bind]
    rw [AverageMemo.query_disabled _ _ _ _ _ haverage]
    rfl
  · refine ⟨CompactForm.target bits, none, CompactForm.target_lt_two_pow bits,
      fun time ref href ↦ ?_⟩
    rw [referenceTarget, if_neg huse, href]
    rfl

theorem bits_eq_exact (hf : rules.fault? = none) (h63 : rules.timespan < 2 ^ 63) {target : Nat}
    (ht : target < 2 ^ 256) (s : Series) (late : Int) :
    bits rules s target late =
      encodeBy true (capAt (rules.limit s)
        (some (Exponential.exactScale target late rules.timespan))) := by
  have htracks : UInt512.Tracks _ (Exponential.scale? target late rules.timespan) :=
    Exponential.scale?_tracks ht (Rules.of_fault?_eq_none hf).2.1 (h63.trans (by decide))
  rw [bits, htracks.capAt_eq_some (rules.limit_lt s), encodeBy_true]

theorem next_of_firstTwo (h : firstTwo (l.filter c.series.contains) = none) :
    scaled? rules c ⟨l, .genesis g⟩ = none ∧
      (·.1) <$> next rules c .disabled (some ⟨l, .genesis g⟩) =
        .ok (encodeBy false (capAt (rules.limit c.series) none)) := by
  constructor
  · simp only [scaled?, h]
    rfl
  · rw [next_of_firstTwo_none h]
    rfl

theorem rises (hf : rules.fault? = none) (h63 : rules.timespan < 2 ^ 63) (c : Candidate) (g : Block)
    (n : Nat) (x : Block) (lower : List Block) :
    Rises (rules.limit c.series) c.series g n x lower (scaled? rules c)
      (fun tip ↦ (·.1) <$> next rules c .disabled (some tip)) := by
  obtain ⟨w, hw⟩ := window_ok rules (rules.spacingOf_pos (Rules.spacing_pos hf) c.series)
  cases hlower : lower.filter c.series.contains with
  | nil =>
    exact rises_of_constant false fun time l hl ↦
      next_of_firstTwo (by rw [hl.filter_eq, hlower]; rfl)
  | cons y r =>
    by_cases hheight : n + 1 < rules.scheduleStart
    · refine (Ema.rises hf c g n x lower).congr fun time l hl ↦ ?_
      have hown := hlower ▸ hl.filter_eq
      have htop : (l.headD g).height + 1 < rules.scheduleStart := by
        rwa [hl.climbs.top_height, hl.length_eq]
      constructor
      · simp only [scaled?, hown, firstTwo, top_genesis, Except.toOption, Option.bind_eq_bind,
          Option.bind_some, if_pos htop]
      · simp only [next, newestTwo?_genesis, hown, firstTwo, top_genesis, ok_bind, hw, if_pos htop,
          Function.comp_apply]
        cases Ema.weighted rules c (some ⟨l, .genesis g⟩) <;> rfl
    · obtain ⟨start, passed, refBits, href⟩ := exists_reference rules c.series g x lower
      obtain ⟨target, lookup, hlt, htarget⟩ :=
        exists_referenceTarget rules c.series w (n + 1) passed refBits g x lower
      refine ⟨true, fun time ↦
        some (Exponential.exactScale target (time - start - rules.spacingOf c.series * passed)
          rules.timespan), ?_, ?_⟩
      · intro u v h
        exact .some (Exponential.exactScale_mono (Rules.of_fault?_eq_none hf).2.1 (by omega))
      · intro time l hl
        have hown := hlower ▸ hl.filter_eq
        have htop : (l.headD g).height = n := by rw [hl.climbs.top_height, hl.length_eq]
        obtain ⟨below, ref, hbelow, hstart, hreftop, hrefbits⟩ := href time
        have htarget := htarget time ref hrefbits
        constructor
        · simp only [scaled?, hown, firstTwo, top_genesis, Except.toOption, Option.bind_eq_bind,
            Option.bind_some, htop, if_neg hheight, seek_genesis, hl.seek_eq, hbelow, hstart, hw,
            hreftop, htarget]
          rfl
        · simp only [next, newestTwo?_genesis, hown, firstTwo, top_genesis, ok_bind, htop,
            if_neg hheight, seek_genesis, hl.seek_eq, hbelow, hstart, hw, hreftop, htarget]
          rw [bits_eq_exact hf h63 hlt]
          rfl

end Absolute

theorem Block.retime_of_ne (h : y.id ≠ id) : y.retime id time = y := if_neg h

theorem Series.contains_retime (s : Series) (y : Block) :
    s.contains (y.retime id time) = s.contains y := by
  rw [Block.retime]
  split
  · cases s <;> rfl
  · rfl

theorem BlockTree.Sound.eq_of_id (hs : t.Sound) (hb : t.branches[id]? = some ⟨l, .genesis g⟩)
    (hx : x ∈ l ++ [g]) (hy : y ∈ l ++ [g]) (h : x.id = y.id) : x = y := by
  obtain ⟨lx, hlx, rfl⟩ := exists_suffix_of_mem_descent hx
  obtain ⟨ly, hly, rfl⟩ := exists_suffix_of_mem_descent hy
  have hbx := hs.branches_suffix hb hlx
  rw [h, hs.branches_suffix hb hly] at hbx
  cases hbx
  rfl

theorem filter_map_retime (s : Series) (i : BlockId) (time : Int) (l : List Block) :
    (l.map (Block.retime i time)).filter s.contains =
      (l.filter s.contains).map (Block.retime i time) := by
  rw [List.filter_map]
  exact congrArg (List.map _) (List.filter_congr fun y _ ↦ s.contains_retime y)

theorem BlockTree.Grown.climbs_of_branch (ht : t.Grown) (h : t.branch id = ⟨l, .genesis g⟩) :
    Climbs g l := by
  by_cases hid : id < t.size
  · obtain ⟨g', l', hbranch, -, hl⟩ := ht.sound.exists_path hid
    rw [h] at hbranch
    cases hbranch
    exact hl
  · rw [BlockTree.branch_of_ge (Nat.not_lt.1 hid)] at h
    cases h

/-- With another time at its newest block of the series a path shows that block over what was below
it before. -/
theorem dropWhile_map_retime (hs : t.Sound) (hb : t.branches[id]? = some ⟨l, .genesis g⟩)
    (hdrop : (l.dropWhile fun y ↦ !s.contains y) = x :: lower) (time : Int) :
    ((l.map (Block.retime x.id time)).dropWhile fun y ↦ !s.contains y) =
      { x with time } :: lower := by
  have hsuffix : x :: lower <:+ l := hdrop ▸ List.dropWhile_suffix _
  obtain ⟨hl⟩ := hs.grounded hb
  have hmem : ∀ y ∈ x :: lower, y ∈ l ++ [g] :=
    fun y hy ↦ List.mem_append_left _ (hsuffix.subset hy)
  -- ids are the path's own, so no block below has the id of the newest one
  have hlower : lower.map (Block.retime x.id time) = lower := by
    refine (List.map_congr_left fun y hy ↦ Block.retime_of_ne fun heq ↦ ?_).trans
      (List.map_id lower)
    have hyx := hs.eq_of_id hb (hmem y (List.mem_cons_of_mem _ hy)) (hmem x List.mem_cons_self) heq
    have hlt := List.rel_of_pairwise_cons (hl.suffix hsuffix).pairwise hy
    exact absurd (hyx ▸ hlt) (Nat.lt_irrefl _)
  have hskip : ((fun y ↦ !s.contains y) ∘ Block.retime x.id time) = fun y ↦ !s.contains y := by
    funext y
    simp [s.contains_retime]
  rw [List.dropWhile_map, hskip, hdrop, List.map_cons, hlower, Block.retime, if_pos rfl]

theorem notHarder_of_constant {value? : Option Nat} {before after : Except Fault UInt32}
    {rounding : Bool} (hvalue : value? = none)
    (hbefore : before = .ok (encodeBy rounding (capAt limit none)))
    (hafter : after = .ok (encodeBy rounding (capAt limit none))) :
    NotHarder limit value? before after :=
  ⟨_, _, hbefore, hafter, ⟨rounding, by rw [hvalue]⟩, fun _ ↦ le_rfl⟩

/-- Where two grown trees differ only in the time of the newest block of the candidate's series,
which is later in the second, no strategy sets a harder target on the second. -/
theorem notHarder_of_later (hf : rules.fault? = none) (h63 : rules.timespan < 2 ^ 63) (ht : t.Grown)
    (ht' : t'.Grown) (hid : id < t.size) (hx : ((t.branch id).seek c.series.contains).top = .ok x)
    (hlater : x.time < time) (hdiff : ∀ i, t'.branch i = (t.branch i).retime x.id time) :
    let limit := rules.limit c.series
    let before := t.branch id
    let after := t'.branch id
    NotHarder limit (Ema.scaled? rules c.series before) (Ema.weighted rules c (some before))
      (Ema.weighted rules c (some after)) ∧
    NotHarder limit (MovingAverage.scaled? rules c before)
      (MovingAverage.next rules c (some before)) (MovingAverage.next rules c (some after)) ∧
    NotHarder limit (Absolute.scaled? rules c before)
      ((·.1) <$> Absolute.next rules c .disabled (some before))
      ((·.1) <$> Absolute.next rules c .disabled (some after)) := by
  intro limit before after
  have hs := ht.sound
  have hlimit : limit < 2 ^ 256 := rules.limit_lt c.series
  obtain ⟨g, l, hbranch, hb, hl⟩ := hs.exists_path hid
  have hafter : after = ⟨l.map (Block.retime x.id time), .genesis (g.retime x.id time)⟩ := by
    simp only [after, hdiff, hbranch]
    rfl
  have hbefore : before = ⟨l, .genesis g⟩ := hbranch
  rw [hbranch, seek_genesis, top_genesis, Except.ok.injEq] at hx
  rw [hbefore, hafter]
  cases hdrop : l.dropWhile fun y ↦ !c.series.contains y with
  | nil =>
    -- the series has no block above genesis, and every strategy answers with a constant
    have hown : l.filter c.series.contains = [] := by
      rw [← filter_dropWhile_not, hdrop, List.filter_nil]
    have hnone : firstTwo (l.filter c.series.contains) = none := by rw [hown]; rfl
    have hnone' : firstTwo ((l.map (Block.retime x.id time)).filter c.series.contains) = none := by
      rw [filter_map_retime, hown]
      rfl
    refine ⟨?_, ?_, ?_⟩
    · obtain ⟨hvalue, hresult⟩ := Ema.weighted_of_firstTwo hnone
      exact notHarder_of_constant hvalue hresult (Ema.weighted_of_firstTwo hnone').2
    · obtain ⟨hvalue, hresult⟩ := MovingAverage.next_of_firstTwo hf hnone
      exact notHarder_of_constant hvalue hresult (MovingAverage.next_of_firstTwo hf hnone').2
    · obtain ⟨hvalue, hresult⟩ := Absolute.next_of_firstTwo hnone
      exact notHarder_of_constant hvalue hresult (Absolute.next_of_firstTwo hnone').2
  | cons x' lower =>
    obtain rfl : x' = x := by rw [hdrop] at hx; exact hx
    have hsuffix : x' :: lower <:+ l := hdrop ▸ List.dropWhile_suffix _
    have hmem : x' ∈ l := hsuffix.subset List.mem_cons_self
    -- genesis is another block than the newest one of the series, which is above it
    have hgenesis : g.retime x'.id time = g := by
      refine Block.retime_of_ne fun heq ↦ ?_
      obtain rfl := hs.eq_of_id hb (List.mem_append_right l (List.mem_singleton_self g))
        (List.mem_append_left _ hmem) heq
      exact absurd (hl.height_pos hmem) (hl.root_height ▸ Nat.lt_irrefl 0)
    have hclimbs' : Climbs g (l.map (Block.retime x'.id time)) :=
      hgenesis ▸ ht'.climbs_of_branch hafter
    have hshows : Shows c.series g l.length ({ x' with time := x'.time } :: lower) l :=
      ⟨hl, rfl, hdrop⟩
    have hshows' :
        Shows c.series g l.length ({ x' with time } :: lower) (l.map (Block.retime x'.id time)) :=
      ⟨hclimbs', List.length_map _, dropWhile_map_retime hs hb hdrop time⟩
    have hheight : ∀ z ∈ lower, z.height ≠ x'.height := fun z hz ↦
      (List.rel_of_pairwise_cons (hl.suffix hsuffix).pairwise hz).ne
    rw [hgenesis]
    exact ⟨(Ema.rises hf c g _ x' lower).notHarder hlimit hlater.le hshows hshows',
      (MovingAverage.rises hf c _ hheight).notHarder hlimit hlater.le hshows hshows',
      (Absolute.rises hf h63 c g _ x' lower).notHarder hlimit hlater.le hshows hshows'⟩

/-- A line of eleven blocks whose newest one has the given time. -/
def lateLine (time : Int) : List Entry :=
  { BlockTree.numbered (Algorithm.version .xevan) 0x1d0f0000 11 with time } ::
    BlockTree.numberedLine (Algorithm.version .xevan) 0x1d0f0000 10

/-- The newest block comes forty minutes later on a schedule that has begun. -/
theorem notHarder_of_later_on_line :
    let c : Candidate := .ofTag (some .xevan) 9600
    let before := (BlockTree.lineTree BlockTree.numberedGenesis (lateLine 6600)).branch 11
    let after := (BlockTree.lineTree BlockTree.numberedGenesis (lateLine 9000)).branch 11
    ∃ bits bits', (·.1) <$> Absolute.next .testnet c .disabled (some before) = .ok bits ∧
      (·.1) <$> Absolute.next .testnet c .disabled (some after) = .ok bits' ∧
      CompactForm.target bits ≤ CompactForm.target bits' := by
  intro c before after
  have hhash (time : Int) :
      ((lateLine time ++ [BlockTree.numberedGenesis]).map Entry.hash).Nodup := by
    change ((lateLine 0 ++ [BlockTree.numberedGenesis]).map Entry.hash).Nodup
    decide +kernel
  have hgrown (time : Int) : (BlockTree.lineTree BlockTree.numberedGenesis (lateLine time)).Grown :=
    (BlockTree.line_lineTree _ _ (hhash time)).grown
  have hsize (time : Int) :
      (BlockTree.lineTree BlockTree.numberedGenesis (lateLine time)).size = 12 :=
    BlockTree.size_lineTree (hhash time)
  have hbranch (time : Int) {i : BlockId} (hi : i < 12) :
      (BlockTree.lineTree BlockTree.numberedGenesis (lateLine time)).branch i =
        BlockTree.lineBranch BlockTree.numberedGenesis ((lateLine time).drop (11 - i)) := by
    have hb := BlockTree.branch_lineTree (hhash time) (11 - i)
    have hlen : (lateLine time).length - (11 - i) = i := Nat.sub_sub_self (Nat.le_of_lt_succ hi)
    rw [hlen] at hb
    exact BlockTree.branch_of_branches hb
  have hretime : ∀ k < 12, BlockTree.lineBranch BlockTree.numberedGenesis ((lateLine 9000).drop k) =
      (BlockTree.lineBranch BlockTree.numberedGenesis ((lateLine 6600).drop k)).retime 11 9000 := by
    decide +kernel
  have hdiff : ∀ i, (BlockTree.lineTree BlockTree.numberedGenesis (lateLine 9000)).branch i =
      ((BlockTree.lineTree BlockTree.numberedGenesis (lateLine 6600)).branch i).retime 11 9000 := by
    intro i
    rcases Nat.lt_or_ge i 12 with hi | hi
    · rw [hbranch 9000 hi, hbranch 6600 hi]
      exact hretime _ (by omega)
    · rw [BlockTree.branch_of_ge (hsize 9000 ▸ hi), BlockTree.branch_of_ge (hsize 6600 ▸ hi)]
      rfl
  let x : Block := BlockTree.numberedBlock (Algorithm.version .xevan) 0x1d0f0000 11
  have hx : (before.seek c.series.contains).top = .ok x := by
    simp only [before]
    rw [hbranch 6600 (by decide)]
    decide +kernel
  have hid : 11 < (BlockTree.lineTree BlockTree.numberedGenesis (lateLine 6600)).size := by
    rw [hsize]
    decide
  have hvalid : Rules.testnet.fault? = none := by decide +kernel
  have hlater : x.time < 9000 := by decide +kernel
  obtain ⟨-, -, bits, bits', hbits, hbits', -, hle⟩ :=
    notHarder_of_later hvalid (by decide +kernel) (hgrown 6600) (hgrown 9000) hid hx hlater hdiff
  refine ⟨bits, bits', hbits, hbits', hle ?_⟩
  rw [hbranch 6600 (by decide)]
  decide +kernel

end HybridDifficulty
