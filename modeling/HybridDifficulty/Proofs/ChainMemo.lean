import HybridDifficulty.Proofs.AbsoluteSchedule
import Mathlib.Data.List.Basic

/-!
On a chain without forks the window alone names the average. The newest blocks of two tips lie on
one path, so the tip that is further on has passed over just the blocks that came since, and what is
left to average is the same.
-/

namespace HybridDifficulty

open Branch

namespace BlockTree

variable {t : BlockTree} {g g' : Block} {l l' : List Block}

/-- No two blocks share a parent. -/
def Unforked (t : BlockTree) : Prop :=
  ∀ {id id' parent : BlockId}, id < t.size → id' < t.size → (t.branch id).parentId? = some parent →
    (t.branch id').parentId? = some parent → id = id'

theorem Sound.genesis_unique (hs : t.Sound) {id id' : BlockId}
    (hb : t.branches[id]? = some ⟨l, .genesis g⟩)
    (hb' : t.branches[id']? = some ⟨l', .genesis g'⟩) : g = g' := by
  obtain ⟨i, hi⟩ := hs.suffix hb List.nil_suffix
  obtain ⟨i', hi'⟩ := hs.suffix hb' List.nil_suffix
  have h0 : i = 0 := (hs.blocks_eq_nil_iff hi).1 rfl
  have h0' : i' = 0 := (hs.blocks_eq_nil_iff hi').1 rfl
  subst h0 h0'
  rw [hi, Option.some.injEq, Branch.mk.injEq, Root.genesis.injEq] at hi'
  exact hi'.2

theorem Unforked.cons_inj (hu : t.Unforked) {id id' : BlockId} {x y : Block}
    (hb : t.branches[id]? = some ⟨x :: l, .genesis g⟩)
    (hb' : t.branches[id']? = some ⟨y :: l, .genesis g⟩) :
    x = y := by
  have hparent := parentId?_genesis_cons g l x
  have hparent' := parentId?_genesis_cons g l y
  rw [← branch_of_branches hb] at hparent
  rw [← branch_of_branches hb'] at hparent'
  obtain rfl := hu (lt_of_branches hb) (lt_of_branches hb') hparent hparent'
  rw [hb, Option.some.injEq, Branch.mk.injEq, List.cons.injEq] at hb'
  exact hb'.1.1

/-- The lower of two branches is a part of the other one. -/
theorem Unforked.suffix (hu : t.Unforked) (hs : t.Sound) {id id' : BlockId}
    (hb : t.branches[id]? = some ⟨l, .genesis g⟩) (hb' : t.branches[id']? = some ⟨l', .genesis g⟩)
    (hle : l.length ≤ l'.length) : l <:+ l' := by
  induction l generalizing id with
  | nil => exact List.nil_suffix
  | cons x r ih =>
    obtain ⟨p, -, hp⟩ := hs.below hb rfl
    rw [List.length_cons] at hle
    obtain ⟨pre, rfl⟩ := ih hp (by omega)
    -- the block of the longer branch that stands on `r` is `x`
    rcases List.eq_nil_or_concat' pre with rfl | ⟨pre, y, rfl⟩
    · exact absurd hle (Nat.not_succ_le_self _)
    · have hsuffix : y :: r <:+ pre ++ [y] ++ r := ⟨pre, by simp⟩
      obtain ⟨i, hi⟩ := hs.suffix hb' hsuffix
      rw [hu.cons_inj hb hi]
      exact hsuffix

theorem unforked_lineTree {g : Entry} {es : List Entry} (h : ((es ++ [g]).map Entry.hash).Nodup) :
    (lineTree g es).Unforked := by
  have hparent {id parent : BlockId} (hid : id < (lineTree g es).size)
      (hp : ((lineTree g es).branch id).parentId? = some parent) : id = parent + 1 := by
    rw [size_lineTree h] at hid
    have hle : id ≤ es.length := Nat.le_of_lt_succ hid
    have hb := branch_lineTree h (es.length - id)
    rw [Nat.sub_sub_self hle] at hb
    rw [branch_of_branches hb] at hp
    have hlen : (es.drop (es.length - id)).length = id := by
      rw [List.length_drop, Nat.sub_sub_self hle]
    cases hes : es.drop (es.length - id) with
    | nil =>
      rw [hes] at hp
      cases hp
    | cons e rest =>
      rw [hes] at hp hlen
      rw [lineBranch, lineBlocks, parentId?_genesis_cons, headD_lineBlocks_id,
        Option.some.injEq] at hp
      rw [← hlen, ← hp, List.length_cons]
  intro id id' parent hid hid' hp hp'
  rw [hparent hid hp, hparent hid' hp']

end BlockTree

variable {rules : Rules} {t : BlockTree} {a : Algorithm} {g : Block} {pre l : List Block}
  {w w' : Nat} {e e' : KnownAverage}

namespace Absolute

/-- As long as no window ends, new blocks belong to the one that has begun. -/
theorem wholeWindows_append {start : Nat} {pre own : List Block}
    (hpre : ∀ x ∈ pre, start ≤ x.height)
    (h : passed start own / w = passed start (pre ++ own) / w) :
    wholeWindows start w (pre ++ own) = wholeWindows start w own := by
  have hdiv := Nat.div_add_mod (passed start own) w
  have hdiv' := Nat.div_add_mod (passed start (pre ++ own)) w
  rw [← h] at hdiv'
  have hmod : passed start (pre ++ own) % w = pre.length + passed start own % w := by
    have hpassed : passed start (pre ++ own) = passed start own + pre.length := passed_append hpre
    omega
  rw [wholeWindows, wholeWindows, hmod, List.drop_length_add_append]

/-- The tip of a call may be one short of the start height, the blocks above it are not. -/
theorem start_le_of_above {start : Nat} (hl : Climbs g (pre ++ l)) (hstart : start ≤ l.length + 1) :
    ∀ x ∈ ownBlocks a pre, start ≤ x.height := fun _ hx ↦
  hstart.trans (hl.length_lt_height (List.mem_filter.1 hx).1)

theorem AveragedAbove.start_le (h : AveragedAbove rules a w g l e) (hl : Climbs g l) :
    rules.scheduleStart ≤ l.length + 1 :=
  hl.top_height ▸ h.started

/-- Above one path the number of the window decides what is averaged. -/
theorem AveragedAbove.eq_of_append (hl : Climbs g (pre ++ l)) (h : AveragedAbove rules a w g l e)
    (h' : AveragedAbove rules a w' g (pre ++ l) e') (hwindow : e.window = e'.window) :
    e.anchor = e'.anchor ∧ e.average = e'.average := by
  obtain rfl : w = w' := Except.ok.inj (h.window_ok.symm.trans h'.window_ok)
  have hpassed : passed rules.scheduleStart (ownBlocks a l) / w =
      passed rules.scheduleStart (ownBlocks a pre ++ ownBlocks a l) / w := by
    rw [← h.window_eq, hwindow, h'.window_eq, ownBlocks, List.filter_append]
  have hwhole : wholeWindows rules.scheduleStart w (ownBlocks a (pre ++ l)) =
      wholeWindows rules.scheduleStart w (ownBlocks a l) := by
    rw [ownBlocks, List.filter_append]
    exact wholeWindows_append
      (start_le_of_above hl (h.start_le (hl.suffix (List.suffix_append pre l)))) hpassed
  constructor
  · rw [h.anchor_eq, h'.anchor_eq, hwhole]
  · have haverage := h'.average_ok
    rw [hwhole, h.average_ok] at haverage
    exact Except.ok.inj haverage

end Absolute

theorem AverageMemo.decisive_averages (hs : t.Sound) (hu : t.Unforked) (byFork : Bool) :
    Decisive byFork (t.Averages rules) where
  average_eq {a e e'} h h' hwindow _ := by
    obtain ⟨id, g, l, w, hb, h⟩ := h
    obtain ⟨id', g', l', w', hb', h'⟩ := h'
    obtain rfl := hs.genesis_unique hb hb'
    obtain ⟨hl⟩ := hs.grounded hb
    obtain ⟨hl'⟩ := hs.grounded hb'
    rcases Nat.le_total l.length l'.length with hle | hle
    · obtain ⟨pre, rfl⟩ := hu.suffix hs hb hb' hle
      exact (h.eq_of_append hl' h' hwindow).2
    · obtain ⟨pre, rfl⟩ := hu.suffix hs hb' hb hle
      exact (h'.eq_of_append hl h hwindow.symm).2.symm

namespace Session

/-- On a chain without forks the memo of an engine need not tell forks apart: after any run, an
answer is the one that an engine without memory gives on the tree as it stands. -/
theorem next_eq_next_without_memo_of_unforked (hf : rules.fault? = none) (settings : Settings)
    (enabled byFork : Bool) (events : List Event) (tip? : Option BlockId) (c : Candidate) :
    let s := run { engine := { settings, rules, memo := { enabled, byFork } } } events
    s.tree.Unforked → (∀ id ∈ tip?, id < s.tree.size) →
    ∃ r engine lookup, s.engine.next (tip?.map s.tree.branch) c = .ok (r, engine) ∧
      requirement rules c .disabled (tip?.map s.tree.branch) =
        .ok ({ r with lookup }, .disabled) := by
  intro s hu ht
  have hr := Rules.spacing_pos hf
  have hstart : Keeps rules byFork (fun t ↦ t.Averages rules)
      { engine := { settings, rules, memo := { enabled, byFork } } } :=
    ⟨.empty, rfl, AverageMemo.holds_of_empty rfl rfl⟩
  have hs := hstart.run hr (entryLaw_averages rules) events
  have hsound := hs.grown.sound
  obtain ⟨r, m, hreq, -, hplain⟩ :=
    requirement_holds (c := c) hsound hr ((entryLaw_averages rules).stored hsound) hs.holds
      (exists_branch_of_lt ht)
  obtain ⟨lookup, hplain⟩ := hplain (AverageMemo.decisive_averages hsound hu byFork)
  have hreq : requirement s.engine.rules c s.engine.memo (tip?.map s.tree.branch) = .ok (r, m) :=
    hs.rules_eq ▸ hreq
  exact ⟨r, _, lookup, Engine.next_of_requirement hreq, hplain⟩

theorem next_eq_next_without_memo_of_unforked_on_hit :
    let c : Candidate := .ofTag (some .xevan) 8400
    let engine : Engine :=
      { settings := {}, rules := shortRules, memo := { enabled := true, byFork := false } }
    let s := run { engine } (lineEvents BlockTree.numberedGenesis sampleLine ++ [.next (some 12) c])
    ∃ r engine lookup, s.engine.next (some (s.tree.branch 13)) c = .ok (r, engine) ∧
      r.lookup = some .hit ∧ requirement shortRules c .disabled (some (s.tree.branch 13)) =
        .ok ({ r with lookup }, .disabled) := by
  intro c engine s
  let lower : Branch := BlockTree.lineBranch BlockTree.numberedGenesis (sampleLine.drop 1)
  let upper : Branch := BlockTree.lineBranch BlockTree.numberedGenesis sampleLine
  have hhash : ((sampleLine ++ [BlockTree.numberedGenesis]).map Entry.hash).Nodup := by
    decide +kernel
  have hlower : (BlockTree.lineTree BlockTree.numberedGenesis sampleLine).branch 12 = lower :=
    BlockTree.branch_of_branches (BlockTree.branch_lineTree hhash 1)
  have hupper : (BlockTree.lineTree BlockTree.numberedGenesis sampleLine).branch 13 = upper :=
    BlockTree.branch_of_branches (BlockTree.branch_lineTree hhash 0)
  -- the call on the lower tip ends a window and stores its average, the one on the upper tip is
  -- still below the next
  have hhit :
      (engine.next (some lower) c >>= fun p ↦ p.2.next (some upper) c >>= fun q ↦ .ok q.1.lookup) =
      .ok (some .hit) := by decide +kernel
  obtain ⟨⟨r₀, engine'⟩, hnext, hhit⟩ := exists_of_bind_eq_ok hhit
  have hs : s = { tree := .lineTree BlockTree.numberedGenesis sampleLine, engine := engine' } := by
    simp only [s, run_append, run_lineEvents]
    rw [run, List.foldl_cons, List.foldl_nil, step, tip, Option.map_some, hlower, hnext]
    rfl
  have hunforked : s.tree.Unforked := hs ▸ BlockTree.unforked_lineTree hhash
  have hid : ∀ id ∈ some 13, id < s.tree.size := by
    rintro id ⟨⟩
    rw [hs, BlockTree.size_lineTree hhash]
    decide
  have hf : shortRules.fault? = none := by decide +kernel
  have hanswer := next_eq_next_without_memo_of_unforked hf {} true false
    (lineEvents BlockTree.numberedGenesis sampleLine ++ [.next (some 12) c]) (some 13) c
  change s.tree.Unforked → (∀ id ∈ some 13, id < s.tree.size) → ∃ r engine lookup,
    s.engine.next (some (s.tree.branch 13)) c = .ok (r, engine) ∧
      requirement shortRules c .disabled (some (s.tree.branch 13)) =
        .ok ({ r with lookup }, .disabled) at hanswer
  obtain ⟨r, e, lookup, hreq, hplain⟩ := hanswer hunforked hid
  refine ⟨r, e, lookup, hreq, ?_, hplain⟩
  rw [hs, hupper] at hreq
  rw [hreq, ok_bind] at hhit
  exact Except.ok.inj hhit

end Session

end HybridDifficulty
