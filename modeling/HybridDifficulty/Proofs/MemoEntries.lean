import HybridDifficulty.Proofs.EngineSession
import HybridDifficulty.Proofs.SeriesView

/-!
What is known of the entries of a memo. Each was averaged above some branch of the tree, whatever
calls and insertions came since; and where two entries that stand for one another have one average,
a memo changes no answer.
-/

namespace HybridDifficulty

open Branch

variable {rules : Rules} {t : BlockTree} {m : AverageMemo} {byFork : Bool}
  {V : Algorithm → KnownAverage → Prop}

namespace Absolute

/-- The blocks of a series below the window that has begun. -/
def wholeWindows (start w : Nat) (own : List Block) : List Block := own.drop (passed start own % w)

/-- What a call for the algorithm above these blocks averages, as an entry of the memo. -/
structure AveragedAbove (rules : Rules) (a : Algorithm) (w : Nat) (g : Block) (l : List Block)
    (e : KnownAverage) : Prop where
  window_ok : window rules (rules.spacingOf (.tagged a)) = .ok w
  pos : 0 < w
  started : rules.scheduleStart ≤ (l.headD g).height + 1
  window_eq : e.window = passed rules.scheduleStart (ownBlocks a l) / w
  anchor_eq : e.anchor = ((wholeWindows rules.scheduleStart w (ownBlocks a l)).headD g).hash
  average_ok : averageFrom rules (.tagged a) w
    ⟨wholeWindows rules.scheduleStart w (ownBlocks a l), .genesis g⟩ =
    .ok e.average

end Absolute

def BlockTree.Averages (t : BlockTree) (rules : Rules) (a : Algorithm) (e : KnownAverage) : Prop :=
  ∃ (id : BlockId) (g : Block) (l : List Block) (w : Nat),
    t.branches[id]? = some ⟨l, .genesis g⟩ ∧ Absolute.AveragedAbove rules a w g l e

namespace AverageMemo

structure Holds (m : AverageMemo) (byFork : Bool) (V : Algorithm → KnownAverage → Prop) : Prop where
  byFork_eq : m.byFork = byFork
  entry : ∀ {a : Algorithm} {e : KnownAverage}, m.slots.get a = some e → V a e

/-- Entries that may stand for one another have one average. -/
structure Decisive (byFork : Bool) (V : Algorithm → KnownAverage → Prop) : Prop where
  average_eq : ∀ {a : Algorithm} {e e' : KnownAverage}, V a e → V a e' → e.window = e'.window →
    (byFork = true → e.anchor = e'.anchor) → e.average = e'.average

theorem holds_of_empty (h : m.byFork = byFork) (hm : m.slots = .replicate none) :
    m.Holds byFork V where
  byFork_eq := h
  entry he := by
    rw [hm, PerAlgorithm.get_replicate] at he
    cases he

theorem Holds.imp {V' : Algorithm → KnownAverage → Prop} (h : m.Holds byFork V)
    (hV : ∀ {a : Algorithm} {e : KnownAverage}, V a e → V' a e) : m.Holds byFork V' where
  byFork_eq := h.byFork_eq
  entry he := hV (h.entry he)

theorem Holds.forget (h : m.Holds byFork V) : m.forget.Holds byFork V :=
  holds_of_empty h.byFork_eq rfl

theorem Holds.set (h : m.Holds byFork V) {a : Algorithm} {e : KnownAverage} (he : V a e) :
    Holds { m with slots := m.slots.set a (some e) } byFork V where
  byFork_eq := h.byFork_eq
  entry {b e'} he' := by
    rw [PerAlgorithm.get_set] at he'
    split at he'
    · next hb =>
      obtain rfl := Option.some.inj he'
      exact hb ▸ he
    · exact h.entry he'

theorem answers_eq_true {e : KnownAverage} {window : Nat} {anchor : Hash}
    (h : m.answers e window anchor = true) :
    e.window = window ∧ (m.byFork = true → e.anchor = anchor) := by
  simp only [answers, Bool.and_eq_true, Bool.or_eq_true, Bool.not_eq_true', decide_eq_true_eq] at h
  obtain ⟨⟨hwindow, -⟩, hanchor⟩ := h
  refine ⟨hwindow, fun hfork ↦ ?_⟩
  rcases hanchor with hanchor | hanchor
  · rw [hfork] at hanchor
    cases hanchor
  · exact hanchor

theorem query_disabled {average : Nat} (tag : Option Algorithm) (window : Nat) (anchor : Hash)
    (height : Nat) (compute : Unit → Except Fault Nat) (hcompute : compute () = .ok average) :
    disabled.query tag window anchor height compute = .ok (average, .bypassed, disabled) :=
  query_eq_serve disabled tag compute hcompute

/-- Where entries are decisive, what is served is what would be stored, whether it is found or
not. -/
theorem Holds.serve (hm : m.Holds byFork V) (tag : Option Algorithm) {e : KnownAverage}
    (ha : ∀ a ∈ tag, V a e) :
    (m.serve tag e).2.2.Holds byFork V ∧ (Decisive byFork V → (m.serve tag e).1 = e.average) := by
  rw [AverageMemo.serve]
  cases htag : if m.enabled then tag else none with
  | none => exact ⟨hm, fun _ ↦ rfl⟩
  | some a =>
    have ha : V a e := by
      simp only [ite_eq_iff, reduceCtorEq, and_false, or_false] at htag
      exact ha a htag.2
    cases hfind : (m.slots.get a).filter (m.answers · e.window e.anchor) with
    | some known =>
      obtain ⟨hknown, hanswers⟩ := Option.filter_eq_some_iff.1 hfind
      obtain ⟨hwindow, hanchor⟩ := answers_eq_true hanswers
      simp only [hfind]
      -- what is found stands for the entry that a miss would have stored
      refine ⟨hm, fun hV ↦ hV.average_eq (hm.entry hknown) ha hwindow fun hfork ↦ ?_⟩
      exact hanchor (hm.byFork_eq.trans hfork)
    | none =>
      simp only [hfind]
      exact ⟨hm.set ha, fun _ ↦ trivial⟩

end AverageMemo

open AverageMemo

variable {c : Candidate} {tip? : Option Branch}

namespace Absolute

theorem referenceTarget_asks (rules : Rules) (s : Series) (w height : Nat) (g : Block)
    (l : List Block) (x : Block) (n : Nat) :
    (∃ target, ∀ m, referenceTarget rules s m w height ⟨l, .genesis g⟩ x n =
      .ok (target, none, m)) ∨
    ∃ average, averageFrom rules s w ⟨(l.filter s.contains).drop (n % w), .genesis g⟩ =
      .ok average ∧ 0 < w ∧ w ≤ n ∧
      let e : KnownAverage :=
        ⟨n / w, (((l.filter s.contains).drop (n % w)).headD g).hash, average, height⟩
      ∀ m, referenceTarget rules s m w height ⟨l, .genesis g⟩ x n =
        .ok ((m.serve s.tag e).1, some (m.serve s.tag e).2.1, (m.serve s.tag e).2.2) := by
  simp only [referenceTarget]
  split
  · next h =>
    have haverage := averageFrom_genesis rules s w ((l.filter s.contains).drop (n % w)) g
    refine .inr ⟨_, haverage, Nat.pos_of_ne_zero h.1, h.2.2, fun m ↦ ?_⟩
    simp only [filter_genesis, drop_genesis, top_genesis, ok_bind]
    rw [query_eq_serve m s.tag (fun _ ↦ _) haverage]
    rfl
  · exact .inl ⟨_, fun m ↦ rfl⟩

/-- Either the memo is not looked at, or it is asked once, for an average above the tip. -/
theorem next_asks (hr : 0 < rules.spacing) (ht : ∀ b ∈ tip?, b.Grounded) :
    (∃ bits, ∀ m, next rules c m tip? = .ok (bits, none, m)) ∨
    ∃ g l e, ∃ bits : Nat → UInt32, tip? = some ⟨l, .genesis g⟩ ∧ 0 < e.window ∧
      (∀ a ∈ c.series.tag, ∃ w, AveragedAbove rules a w g l e) ∧
      ∀ m, next rules c m tip? =
        .ok (bits (m.serve c.series.tag e).1, some (m.serve c.series.tag e).2.1,
          (m.serve c.series.tag e).2.2) := by
  rcases next_cases (c := c) hr ht with
    ⟨bits, -, h⟩ | ⟨tip, w, y, x, n, late, rfl, hw, hy, hstart, hn, h⟩
  · exact .inl ⟨bits, h⟩
  · obtain @⟨g, l, -⟩ := ht tip rfl
    rw [top_genesis, Except.ok.injEq] at hy
    subst hy
    rw [seek_genesis] at hn
    rcases referenceTarget_asks rules c.series w ((l.headD g).height + 1) g
        (l.dropWhile fun x ↦ !c.series.contains x) x n with
      ⟨target, htarget⟩ | ⟨average, haverage, hpos, hle, hserve⟩
    · exact .inl ⟨_, fun m ↦ by rw [h m, seek_genesis, htarget]; rfl⟩
    · refine .inr ⟨g, l, _, fun target ↦ Absolute.bits rules c.series target late, rfl,
        Nat.div_pos hle hpos, ?_, fun m ↦ by rw [h m, seek_genesis, hserve]; rfl⟩
      intro a ha
      -- the walk starts at the newest block of the series, and the filter
      -- cannot tell that block from the tip
      cases hs : c.series with
      | untagged =>
        rw [hs] at ha
        cases ha
      | tagged a' =>
        rw [hs] at ha hw hn haverage
        obtain rfl : a' = a := Option.some.inj ha
        rw [Series.tag, reference_tagged] at hn
        subst hn
        rw [filter_dropWhile_not] at haverage ⊢
        exact ⟨w, hw, hpos, hstart, rfl, rfl, haverage⟩

end Absolute

/-- A call looks at the memo once at most. -/
theorem requirement_asks (hr : 0 < rules.spacing) (ht : ∀ b ∈ tip?, b.Grounded) :
    (∃ r, r.lookup = none ∧ ∀ m, requirement rules c m tip? = .ok (r, m)) ∨
    ∃ g l e, ∃ bits : Nat → UInt32, tip? = some ⟨l, .genesis g⟩ ∧ 0 < e.window ∧
      (∀ a ∈ c.series.tag, ∃ w, Absolute.AveragedAbove rules a w g l e) ∧
      ∀ m, requirement rules c m tip? =
        .ok ({
          bits := bits (m.serve c.series.tag e).1
          regime := .scheduled
          lookup := some (m.serve c.series.tag e).2.1 }, (m.serve c.series.tag e).2.2) := by
  cases ha : rules.admits c.algorithm? with
  | false => exact .inl ⟨_, rfl, fun m ↦ requirement_of_not_admits ha m⟩
  | true =>
    rcases requirement_cases hr ha ht with ⟨r, -, hnone, h⟩ | ⟨-, h⟩
    · exact .inl ⟨r, hnone, h⟩
    · rcases Absolute.next_asks (c := c) hr ht with ⟨bits, hb⟩ | ⟨g, l, e, bits, htip, hpos, hV, hb⟩
      · exact .inl ⟨_, rfl, fun m ↦ by rw [h m, hb]; rfl⟩
      · exact .inr ⟨g, l, e, bits, htip, hpos, hV, fun m ↦ by rw [h m, hb]; rfl⟩

theorem requirement_holds (hs : t.Sound) (hr : 0 < rules.spacing)
    (hV : ∀ {a : Algorithm} {e : KnownAverage}, t.Averages rules a e → V a e)
    (hm : m.Holds byFork V) (ht : ∀ b ∈ tip?, ∃ id : BlockId, t.branches[id]? = some b) :
    ∃ r m', requirement rules c m tip? = .ok (r, m') ∧ m'.Holds byFork V ∧
      (Decisive byFork V → ∃ lookup, requirement rules c .disabled tip? =
        .ok ({ r with lookup }, .disabled)) := by
  have hgrounded : ∀ b ∈ tip?, b.Grounded := fun b hb ↦ hs.grounded (ht b hb).choose_spec
  rcases requirement_asks (c := c) hr hgrounded with ⟨r, -, h⟩ | ⟨g, l, e, bits, rfl, -, ha, h⟩
  · exact ⟨r, m, h m, hm, fun _ ↦ ⟨r.lookup, h .disabled⟩⟩
  · obtain ⟨id, hb⟩ := ht _ rfl
    have hserve := hm.serve c.series.tag (e := e) fun a hc ↦ by
      obtain ⟨w, hw⟩ := ha a hc
      exact hV ⟨id, g, l, w, hb, hw⟩
    refine ⟨_, _, h m, hserve.1, fun hdec ↦ ?_⟩
    rw [h .disabled, hserve.2 hdec]
    exact ⟨_, rfl⟩

/-- On a tip that is not there no average is asked for. -/
theorem requirement_missing {id : BlockId} {r : Requirement} {m' : AverageMemo}
    (h : requirement rules c m (some (.missing id)) = .ok (r, m')) : m' = m := by
  obtain ⟨choice, hch, h⟩ := exists_of_bind_eq_ok h
  rw [choose] at hch
  split at hch
  · cases hch
    cases h
    rfl
  · split at hch
    · cases hch
      cases h
      rfl
    · next tip htip =>
      rw [ite_eq_iff] at htip
      obtain ⟨-, htip⟩ | ⟨-, htip⟩ := htip
      · cases htip
      · cases htip
        cases hch

/-- What may be known of entries for a whole run: it holds when they are stored, and trees that grow
do not undo it. -/
structure EntryLaw (rules : Rules) (V : BlockTree → Algorithm → KnownAverage → Prop) : Prop where
  stored : ∀ {t : BlockTree} {a : Algorithm} {e : KnownAverage}, t.Sound →
    t.Averages rules a e → V t a e
  mono : ∀ {t t' : BlockTree} {a : Algorithm} {e : KnownAverage}, t.Extends t' → V t a e → V t' a e

theorem entryLaw_averages (rules : Rules) : EntryLaw rules fun t ↦ t.Averages rules where
  stored _ h := h
  mono he h := by
    obtain ⟨id, g, l, w, hb, h⟩ := h
    exact ⟨id, g, l, w, he id _ hb, h⟩

namespace Session

/-- The engine keeps its rules, and the entries of its memo their property. -/
structure Keeps (rules : Rules) (byFork : Bool) (V : BlockTree → Algorithm → KnownAverage → Prop)
    (s : Session) : Prop where
  grown : s.tree.Grown
  rules_eq : s.engine.rules = rules
  holds : s.engine.memo.Holds byFork (V s.tree)

variable {V : BlockTree → Algorithm → KnownAverage → Prop} {s : Session}

theorem Remembers.holds (hr : 0 < rules.spacing) (hV : EntryLaw rules V)
    (h : s.Keeps rules byFork V) (hm : s.Remembers m) : m.Holds byFork (V s.tree) := by
  cases hm with
  | same => exact h.holds
  | forget => exact h.holds.forget
  | @requirement tip? c r m hreq =>
    rw [h.rules_eq] at hreq
    by_cases ht : ∀ id ∈ tip?, id < s.tree.size
    · have hs := h.grown.sound
      obtain ⟨r', m', hreq', hm', -⟩ :=
        requirement_holds hs hr (hV.stored hs) h.holds (exists_branch_of_lt ht)
      obtain ⟨-, rfl⟩ := Prod.mk.inj (Except.ok.inj (hreq.symm.trans hreq'))
      exact hm'
    · simp only [not_forall] at ht
      obtain ⟨id, rfl, hid⟩ := ht
      rw [tip, Option.map_some, BlockTree.branch_of_ge (Nat.not_lt.1 hid)] at hreq
      exact requirement_missing hreq ▸ h.holds

theorem Keeps.step (hr : 0 < rules.spacing) (hV : EntryLaw rules V) (h : s.Keeps rules byFork V)
    (e : Event) : (s.step e).Keeps rules byFork V := by
  obtain ⟨memo, tally, he, hm⟩ := s.step_engine e
  refine ⟨step_grown e h.grown, by rw [he]; exact h.rules_eq, ?_⟩
  rw [he]
  exact (hm.holds hr hV h).imp (hV.mono (step_extends e h.grown))

theorem Keeps.run (hr : 0 < rules.spacing) (hV : EntryLaw rules V) (h : s.Keeps rules byFork V)
    (events : List Event) : (s.run events).Keeps rules byFork V :=
  run_induction (fun _ e h ↦ h.step hr hV e) h events

end Session

end HybridDifficulty
