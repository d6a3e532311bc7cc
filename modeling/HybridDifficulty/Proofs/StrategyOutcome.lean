import HybridDifficulty.Proofs.GroundedBranch
import HybridDifficulty.Strategy.Absolute
import HybridDifficulty.Strategy.MovingAverage

/-!
Every strategy gives a result on every branch that stands on genesis, and its result is the code of
a target that was capped at the limit of the series.
-/

namespace HybridDifficulty

theorem ok_bind {α β : Type} (a : α) (f : α → Except Fault β) : (Except.ok a >>= f) = f a := rfl

theorem exists_of_bind_eq_ok {α β : Type} {x : Except Fault α} {f : α → Except Fault β} {b : β}
    (h : x >>= f = .ok b) : ∃ a, x = .ok a ∧ f a = .ok b := by
  cases x with
  | error => cases h
  | ok a => exact ⟨a, rfl, h⟩

theorem quotient_of_pos {a b : Int} (hb : 0 < b) : quotient a b = .ok (a.tdiv b) :=
  if_neg (by omega)

theorem rescale?_of_pos {target : Nat} {num den : Int} (hnum : 0 ≤ num) (hden : 0 < den) :
    rescale? target num den = some (target * num.toNat / den.toNat) := if_neg (by omega)

theorem capAt_le (limit : Nat) (scaled : Option Nat) : capAt limit scaled ≤ limit := by
  unfold capAt
  split
  · split
    · next h => exact h.2
    · exact Nat.le_refl limit
  · exact Nat.le_refl limit

theorem capAt_pos {limit : Nat} (h : 0 < limit) (scaled : Option Nat) : 0 < capAt limit scaled := by
  unfold capAt
  split
  · split
    · next hv => exact Nat.pos_of_ne_zero hv.1
    · exact h
  · exact h

theorem encodeBy_false (v : Nat) : encodeBy false v = CompactForm.encode v :=
  if_neg Bool.false_ne_true

theorem encodeBy_true (v : Nat) : encodeBy true v = CompactForm.encodeRounded v := if_pos rfl

namespace Rules

variable {rules : Rules} {s : Series}

/-- The bits are the code, truncated or rounded, of some result capped at the limit of the
series. -/
def Capped (rules : Rules) (s : Series) (bits : UInt32) : Prop :=
  ∃ rounding scaled, bits = encodeBy rounding (capAt (rules.limit s) scaled)

theorem capped_limitBits : rules.Capped s (rules.limitBits s) :=
  ⟨false, none, (encodeBy_false _).symm⟩

theorem capped_encodeBy (rounding : Bool) (scaled : Option Nat) :
    rules.Capped s (encodeBy rounding (capAt (rules.limit s) scaled)) := ⟨rounding, scaled, rfl⟩

theorem capped_encodeRounded (scaled : Option Nat) :
    rules.Capped s (CompactForm.encodeRounded (capAt (rules.limit s) scaled)) :=
  ⟨true, scaled, (encodeBy_true _).symm⟩

theorem spacingOf_pos (hr : 0 < rules.spacing) (s : Series) : 0 < rules.spacingOf s := by
  unfold spacingOf
  split
  · exact hr
  · decide

end Rules

open Branch

variable {rules : Rules} {c : Candidate} {tip? : Option Branch} {g : Block} {l : List Block}

namespace Ema

/-- Genesis is no block of a series, whether it matches or not. -/
theorem onNewestTwo_of_firstTwo {s : Series} (step : Block → Block → Except Fault UInt32)
    (h : firstTwo (l.filter s.contains) = none) :
    onNewestTwo rules s step (some ⟨l, .genesis g⟩) = .ok (rules.limitBits s) := by
  rw [onNewestTwo, newestTwo?_genesis, ok_bind, h]
  rfl

theorem weightedStep_capped (hr : 0 < rules.spacing) (s : Series) (x y : Block) :
    ∃ bits, weightedStep rules s x y = .ok bits ∧ rules.Capped s bits := by
  have hs := rules.spacingOf_pos hr s
  simp only [weightedStep, quotient_of_pos (by omega : 0 < rules.spacingOf s * 2), ok_bind]
  exact ⟨_, rfl, Rules.capped_encodeRounded _⟩

theorem doubledStep_capped (hr : 0 < rules.spacing) (s : Series) (isTagged : Bool) (x y : Block) :
    ∃ bits, doubledStep rules s isTagged x y = .ok bits ∧ rules.Capped s bits := by
  have hs := rules.spacingOf_pos hr s
  cases isTagged
  · exact ⟨_, rfl, Rules.capped_encodeBy false _⟩
  · simp only [doubledStep, if_true, quotient_of_pos hs, ok_bind]
    exact ⟨_, rfl, Rules.capped_encodeBy true _⟩

theorem onNewestTwo_capped {s : Series} {step : Block → Block → Except Fault UInt32}
    (hstep : ∀ x y, ∃ bits, step x y = .ok bits ∧ rules.Capped s bits)
    (ht : ∀ b ∈ tip?, b.Grounded) :
    ∃ bits, onNewestTwo rules s step tip? = .ok bits ∧ rules.Capped s bits := by
  cases tip? with
  | none => exact ⟨_, rfl, Rules.capped_limitBits⟩
  | some tip =>
    obtain ⟨hc⟩ := ht tip rfl
    rw [onNewestTwo, newestTwo?_genesis, ok_bind]
    cases firstTwo _ with
    | none => exact ⟨_, rfl, Rules.capped_limitBits⟩
    | some p => exact hstep p.1 p.2

theorem weighted_capped (hr : 0 < rules.spacing) (ht : ∀ b ∈ tip?, b.Grounded) :
    ∃ bits, weighted rules c tip? = .ok bits ∧ rules.Capped c.series bits :=
  onNewestTwo_capped (weightedStep_capped hr c.series) ht

theorem doubled_capped (hr : 0 < rules.spacing) (ht : ∀ b ∈ tip?, b.Grounded) :
    ∃ bits, doubled rules c tip? = .ok bits ∧ rules.Capped c.series bits :=
  onNewestTwo_capped (doubledStep_capped hr c.series c.isTagged) ht

end Ema

namespace MovingAverage

theorem ofCandidate_ok (hr : 0 < rules.spacing) : ∃ plan, Plan.ofCandidate rules c = .ok plan := by
  unfold Plan.ofCandidate
  split
  · simp only [quotient_of_pos (rules.spacingOf_pos hr c.series), ok_bind]
    exact ⟨_, rfl⟩
  · exact ⟨_, rfl⟩

theorem next_of_firstTwo_none (hr : 0 < rules.spacing)
    (h : firstTwo (l.filter c.series.contains) = none) :
    next rules c (some ⟨l, .genesis g⟩) = .ok (rules.limitBits c.series) := by
  obtain ⟨plan, hplan⟩ := ofCandidate_ok (c := c) hr
  rw [next, hplan, ok_bind]
  simp only [filter_genesis, newestTwo?_genesis, ok_bind, h]
  rfl

/-- The walk ends with the list of blocks at the latest, however many of them do not count. -/
theorem sample_ok (plan : Plan) (isRegular : Block → Bool) (n : Nat) (b : Block)
    (rest : List Block) :
    ∃ r, plan.sample isRegular (.ok ()) n b rest = .ok r := by
  induction rest generalizing n b with
  | nil => cases n <;> exact ⟨_, rfl⟩
  | cons next rest ih =>
    cases n with
    | zero => exact ⟨_, rfl⟩
    | succ n =>
      rw [Plan.sample]
      generalize (if isRegular b then n else n + 1) = left
      dsimp only
      split
      · exact ⟨_, rfl⟩
      · obtain ⟨r, hr⟩ := ih left next
        rw [hr, ok_bind]
        exact ⟨_, rfl⟩

theorem next_capped (hr : 0 < rules.spacing) (ht : ∀ b ∈ tip?, b.Grounded) :
    ∃ bits, next rules c tip? = .ok bits ∧ rules.Capped c.series bits := by
  obtain ⟨plan, hplan⟩ := ofCandidate_ok (c := c) hr
  have hweighted := Ema.weighted_capped (c := c) hr ht
  rw [next, hplan, ok_bind]
  cases tip? with
  | none => exact ⟨_, rfl, Rules.capped_limitBits⟩
  | some tip =>
    obtain @⟨g, l, hc⟩ := ht tip rfl
    simp only [filter_genesis, newestTwo?_genesis, ok_bind]
    cases firstTwo _ with
    | none => exact ⟨_, rfl, Rules.capped_limitBits⟩
    | some p =>
      simp only [top_genesis, ok_bind]
      split
      · split
        · exact hweighted
        · exact ⟨_, rfl, Rules.capped_limitBits⟩
      · obtain ⟨r, hs⟩ := sample_ok plan (rules.isRegular c.series) plan.length.toNat p.1
          (descent (plan.length.toNat + 2) ⟨l.filter c.series.contains, .genesis g⟩).tail
        simp only [Root.bottom, hs, ok_bind]
        exact ⟨_, rfl, Rules.capped_encodeBy _ _⟩

end MovingAverage

namespace Absolute

theorem next_of_firstTwo_none (h : firstTwo (l.filter c.series.contains) = none) (m : AverageMemo) :
    next rules c m (some ⟨l, .genesis g⟩) = .ok (rules.limitBits c.series, none, m) := by
  simp only [next, newestTwo?_genesis, ok_bind, h]
  rfl

theorem window_ok (rules : Rules) {spacing : Int} (hs : 0 < spacing) :
    ∃ w, window rules spacing = .ok w := by
  rw [window, quotient_of_pos hs, ok_bind]
  exact ⟨_, rfl⟩

theorem startTime_ok (spacing : Int) (s : Series) (g : Block) (l : List Block) :
    ∃ time, startTime spacing s ⟨l, .genesis g⟩ = .ok time := by
  cases l with
  | nil => exact ⟨_, rfl⟩
  | cons x l =>
    rw [startTime, below?_genesis_cons]
    simp only [seek_genesis, top_genesis, ok_bind]
    exact ⟨_, rfl⟩

theorem regularBlocks_genesis (isRegular : Block → Bool) (n : Nat) (blocks : List Block) :
    regularBlocks isRegular (.ok ()) n blocks = .ok ((blocks.filter isRegular).take n) := by
  induction blocks generalizing n with
  | nil => cases n <;> rfl
  | cons b blocks ih =>
    cases n with
    | zero => rfl
    | succ n =>
      rw [regularBlocks, ih, ih]
      cases hb : isRegular b <;> simp [hb, ok_bind, pure, Except.pure]

theorem averageFrom_genesis (rules : Rules) (s : Series) (w : Nat) (own : List Block) (g : Block) :
    averageFrom rules s w ⟨own, .genesis g⟩ =
      .ok (average w (((own ++ [g]).filter (rules.isRegular s)).take w)) := by
  rw [averageFrom, descent_genesis, Root.bottom, regularBlocks_genesis]
  rfl

end Absolute

namespace AverageMemo

/-- What a memo gives for an entry that it may hold already, and what it holds afterwards. -/
def serve (m : AverageMemo) (tag : Option Algorithm) (e : KnownAverage) :
    Nat × Lookup × AverageMemo :=
  match if m.enabled then tag else none with
  | none => (e.average, .bypassed, m)
  | some a =>
    match (m.slots.get a).filter (m.answers · e.window e.anchor) with
    | some known => (known.average, .hit, m)
    | none => (e.average, .miss, { m with slots := m.slots.set a (some e) })

theorem query_eq_serve (m : AverageMemo) (tag : Option Algorithm) {window height average : Nat}
    {anchor : Hash} (compute : Unit → Except Fault Nat) (h : compute () = .ok average) :
    m.query tag window anchor height compute =
      .ok (m.serve tag { window, anchor, average, height }) := by
  rw [query, serve]
  cases if m.enabled then tag else none with
  | none => simp only [h, ok_bind, pure, Except.pure]
  | some a =>
    simp only [h, ok_bind]
    cases (m.slots.get a).filter (m.answers · window anchor) <;> rfl

end AverageMemo

namespace Absolute

theorem referenceTarget_ok (rules : Rules) (s : Series) (m : AverageMemo) (window height : Nat)
    (g : Block) (l : List Block) (x : Block) (passed : Nat) :
    ∃ r, referenceTarget rules s m window height ⟨l, .genesis g⟩ x passed = .ok r := by
  rw [referenceTarget]
  split
  · simp only [filter_genesis, drop_genesis, top_genesis, ok_bind]
    have haverage :=
      averageFrom_genesis rules s window ((l.filter s.contains).drop (passed % window)) g
    rw [m.query_eq_serve s.tag (fun _ ↦ _) haverage, ok_bind]
    exact ⟨_, rfl⟩
  · exact ⟨_, rfl⟩

theorem reference_genesis (start : Nat) (tag : Option Algorithm) (g : Block) (l : List Block) :
    ∃ l' passed, reference start tag ⟨l, .genesis g⟩ = (⟨l', .genesis g⟩, passed) := by
  cases l with
  | nil => exact ⟨_, _, rfl⟩
  | cons x l =>
    simp only [reference, seek_genesis]
    split
    · exact ⟨_, _, rfl⟩
    · exact ⟨_, _, rfl⟩

/-- Either the memo is not looked at, or the schedule has begun and the bits come from the target
that stands for the reference. -/
theorem next_cases (hr : 0 < rules.spacing) (ht : ∀ b ∈ tip?, b.Grounded) :
    (∃ bits, rules.Capped c.series bits ∧ ∀ m, next rules c m tip? = .ok (bits, none, m)) ∨
    ∃ tip w y x passed late, tip? = some tip ∧ window rules (rules.spacingOf c.series) = .ok w ∧
      tip.top = .ok y ∧ rules.scheduleStart ≤ y.height + 1 ∧
      (reference rules.scheduleStart c.series.tag (tip.seek c.series.contains)).2 = passed ∧
      ∀ m, next rules c m tip? = do
        let (target, lookup, m) ←
          referenceTarget rules c.series m w (y.height + 1) (tip.seek c.series.contains) x passed
        return (bits rules c.series target late, lookup, m) := by
  obtain ⟨w, hw⟩ := window_ok rules (rules.spacingOf_pos hr c.series)
  obtain ⟨bits, hb, hcap⟩ := Ema.weighted_capped (c := c) hr ht
  cases tip? with
  | none => exact .inl ⟨_, Rules.capped_limitBits, fun _ ↦ rfl⟩
  | some tip =>
    obtain @⟨g, l, hc⟩ := ht tip rfl
    simp only [next, newestTwo?_genesis, ok_bind]
    cases firstTwo _ with
    | none => exact .inl ⟨_, Rules.capped_limitBits, fun _ ↦ rfl⟩
    | some p =>
      simp only [top_genesis, hw, ok_bind]
      split
      · refine .inl ⟨bits, hcap, fun m ↦ ?_⟩
        rw [hb, ok_bind]
        rfl
      · next hheight =>
        obtain ⟨l', passed, href⟩ := reference_genesis rules.scheduleStart c.series.tag g
          (l.dropWhile fun x ↦ !c.series.contains x)
        obtain ⟨time, htime⟩ := startTime_ok (rules.spacingOf c.series) c.series g l'
        simp only [seek_genesis, href, top_genesis, htime, ok_bind]
        have hpassed : (reference rules.scheduleStart c.series.tag
            (seek c.series.contains ⟨l, .genesis g⟩)).2 = passed := by
          rw [seek_genesis, href]
        exact .inr ⟨_, w, _, _, passed, _, rfl, rfl, top_genesis g l, Nat.not_lt.1 hheight, hpassed,
          fun m ↦ by rw [seek_genesis]⟩

theorem next_capped (hr : 0 < rules.spacing) (m : AverageMemo) (ht : ∀ b ∈ tip?, b.Grounded) :
    ∃ bits lookup m', next rules c m tip? = .ok (bits, lookup, m') ∧
      rules.Capped c.series bits := by
  rcases next_cases (c := c) hr ht with
    ⟨bits, hcap, h⟩ | ⟨tip, w, y, x, passed, late, rfl, -, -, -, -, h⟩
  · exact ⟨bits, none, m, h m, hcap⟩
  · obtain @⟨g, l, hc⟩ := ht tip rfl
    obtain ⟨r, hr⟩ := referenceTarget_ok rules c.series m w (y.height + 1) g
      (l.dropWhile fun x ↦ !c.series.contains x) x passed
    rw [h m, seek_genesis, hr, ok_bind]
    exact ⟨_, _, _, rfl, Rules.capped_encodeRounded _⟩

end Absolute

end HybridDifficulty
