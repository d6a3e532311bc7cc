import HybridDifficulty.Proofs.ChainMemo

/-!
Along a chain no window is averaged twice. The blocks of a window that has begun stand above what is
averaged, so an entry answers until the window ends, whatever other algorithms ask for meanwhile.
-/

namespace HybridDifficulty

open Branch

variable {rules : Rules} {t : BlockTree} {a : Algorithm} {c : Candidate} {g : Block}
  {pre l l' : List Block} {w k : Nat} {m m' : AverageMemo} {e known : KnownAverage}
  {lookup : Option Lookup}

namespace Absolute

/-- The blocks of an algorithm on a path from its reference on, oldest first. -/
def scheduled (start : Nat) (a : Algorithm) (tip : Branch) : List Block :=
  let own := ownBlocks a tip.blocks
  let reference := (fromReference start own ++ tip.root.genesis?.toList).take 1
  (own.takeWhile (fun x ↦ !decide (x.height < start)) ++ reference).reverse

theorem scheduled_genesis (start : Nat) (a : Algorithm) (g : Block) (l : List Block) :
    scheduled start a ⟨l, .genesis g⟩ =
      ((ownBlocks a l ++ [g]).take (passed start (ownBlocks a l))).reverse := by
  have happend := takeWhile_append_fromReference start (ownBlocks a l)
  simp only [scheduled, Root.genesis?, Option.toList_some, passed]
  generalize fromReference start (ownBlocks a l) = lower at happend ⊢
  generalize (ownBlocks a l).takeWhile (fun x ↦ !decide (x.height < start)) = upper at happend ⊢
  rw [← happend, List.append_assoc, List.take_length_add_append]

theorem passed_le_length (start : Nat) (own : List Block) : passed start own ≤ own.length + 1 :=
  Nat.succ_le_succ (List.takeWhile_sublist _).length_le

theorem length_scheduled (start : Nat) (a : Algorithm) (g : Block) (l : List Block) :
    (scheduled start a ⟨l, .genesis g⟩).length = passed start (ownBlocks a l) := by
  have hle := passed_le_length start (ownBlocks a l)
  simp only [scheduled_genesis, List.length_reverse, List.length_take, List.length_append,
    List.length_singleton]
  omega

theorem getElem?_scheduled {start i : Nat} (hi : i < passed start (ownBlocks a l)) :
    (scheduled start a ⟨l, .genesis g⟩)[passed start (ownBlocks a l) - 1 - i]? =
      some (((ownBlocks a l).drop i).headD g) := by
  have hle := passed_le_length start (ownBlocks a l)
  have hlen := length_scheduled start a g l
  rw [scheduled_genesis] at hlen ⊢
  rw [List.length_reverse] at hlen
  rw [List.getElem?_reverse (by omega), hlen, Nat.sub_sub_self (by omega),
    List.getElem?_take_of_lt hi]
  rcases Nat.lt_or_ge i (ownBlocks a l).length with hlt | hge
  · simp [List.getElem?_append_left hlt, List.headD_eq_head?_getD, List.head?_drop,
      List.getElem?_eq_getElem hlt]
  · have hi : i = (ownBlocks a l).length := by omega
    simp [hi]

/-- The entry of the last whole window on the tip's schedule, bound to that window's newest
block. -/
structure Anchored (rules : Rules) (a : Algorithm) (tip : Branch) (w : Nat)
    (e : KnownAverage) : Prop where
  window_ok : window rules (rules.spacingOf (.tagged a)) = .ok w
  pos : 0 < w ∧ 0 < e.window
  window_eq : e.window = (scheduled rules.scheduleStart a tip).length / w
  anchor_eq : ∃ y, (scheduled rules.scheduleStart a tip)[e.window * w - 1]? = some y ∧
    y.hash = e.anchor

theorem AveragedAbove.anchored (h : AveragedAbove rules a w g l e) (hpos : 0 < e.window)
    (hwindow : known.window = e.window) (hanchor : known.anchor = e.anchor) :
    Anchored rules a ⟨l, .genesis g⟩ w known := by
  have hdiv := Nat.div_add_mod (passed rules.scheduleStart (ownBlocks a l)) w
  have hlt : passed rules.scheduleStart (ownBlocks a l) % w <
      passed rules.scheduleStart (ownBlocks a l) := by
    have hmod := Nat.mod_lt (passed rules.scheduleStart (ownBlocks a l)) h.pos
    have hle := Nat.le_mul_of_pos_right w hpos
    rw [h.window_eq] at hle
    omega
  refine ⟨h.window_ok, ⟨h.pos, hwindow ▸ hpos⟩, ?_, _, ?_, hanchor ▸ h.anchor_eq.symm⟩
  · rw [hwindow, length_scheduled, h.window_eq]
  · rw [wholeWindows, ← getElem?_scheduled hlt, hwindow, h.window_eq, Nat.mul_comm]
    congr 1
    omega

theorem passed_le_append {start : Nat} (hl : Climbs g (pre ++ l)) (hstart : start ≤ l.length + 1) :
    passed start (ownBlocks a l) ≤ passed start (ownBlocks a (pre ++ l)) := by
  have happend : passed start (ownBlocks a pre ++ ownBlocks a l) = _ :=
    passed_append (start_le_of_above hl hstart)
  rw [ownBlocks, ownBlocks, List.filter_append]
  exact happend ▸ Nat.le_add_right _ _

theorem AveragedAbove.window_le (hl : Climbs g (pre ++ l)) (h : AveragedAbove rules a w g l e) :
    e.window ≤ passed rules.scheduleStart (ownBlocks a (pre ++ l)) / w := by
  rw [h.window_eq]
  exact Nat.div_le_div_right
    (passed_le_append hl (h.start_le (hl.suffix (List.suffix_append pre l))))

end Absolute

open Absolute

theorem Candidate.series_tag (c : Candidate) : c.series.tag = c.algorithm? := by
  rw [Candidate.series]
  cases c.algorithm? <;> rfl

/-- What a call above these blocks does with a memo that is in use. -/
inductive Uses (rules : Rules) (m : AverageMemo) (c : Candidate) (g : Block) (l : List Block) :
    Option Lookup → AverageMemo → Prop
  | unused : Uses rules m c g l none m
  | bypassed : c.algorithm? = none → Uses rules m c g l (some .bypassed) m
  | hit {a : Algorithm} {w : Nat} {e known : KnownAverage} : c.algorithm? = some a →
      AveragedAbove rules a w g l e →
      0 < e.window → m.slots.get a = some known → m.answers known e.window e.anchor = true →
      Uses rules m c g l (some .hit) m
  | miss {a : Algorithm} {w : Nat} {e : KnownAverage} : c.algorithm? = some a →
      AveragedAbove rules a w g l e →
      0 < e.window → (∀ known, m.slots.get a = some known →
        m.answers known e.window e.anchor = false) →
      Uses rules m c g l (some .miss) { m with slots := m.slots.set a (some e) }

theorem requirement_uses (hr : 0 < rules.spacing) (hl : Climbs g l) (hm : m.enabled = true)
    (c : Candidate) :
    ∃ r m', requirement rules c m (some ⟨l, .genesis g⟩) = .ok (r, m') ∧
      Uses rules m c g l r.lookup m' := by
  have hgrounded : ∀ b ∈ some (⟨l, .genesis g⟩ : Branch), b.Grounded := by
    rintro _ ⟨⟩
    exact ⟨hl⟩
  rcases requirement_asks (c := c) hr hgrounded with
    ⟨r, hnone, h⟩ | ⟨g, l, e, bits, ⟨⟩, hpos, ha, h⟩
  · exact ⟨r, m, h m, hnone ▸ .unused⟩
  · refine ⟨_, _, h m, ?_⟩
    rw [c.series_tag] at ha ⊢
    simp only [AverageMemo.serve, hm, if_true]
    cases htag : c.algorithm? with
    | none => exact .bypassed htag
    | some a =>
      obtain ⟨w, ha⟩ := ha a htag
      cases hfind : (m.slots.get a).filter (m.answers · e.window e.anchor) with
      | some known =>
        obtain ⟨hknown, hanswers⟩ := Option.filter_eq_some_iff.1 hfind
        simp only [hfind]
        exact .hit htag ha hpos hknown hanswers
      | none =>
        have hmiss :
            Uses rules m c g l (some .miss) { m with slots := m.slots.set a (some e) } := by
          refine .miss htag ha hpos fun known hknown ↦ ?_
          rw [hknown, Option.filter_eq_none_iff] at hfind
          simpa using hfind known rfl
        simpa [hfind, hm] using hmiss

namespace Uses

theorem enabled_eq (h : Uses rules m c g l lookup m') : m'.enabled = m.enabled := by
  cases h <;> rfl

theorem byFork_eq (h : Uses rules m c g l lookup m') : m'.byFork = m.byFork := by
  cases h <;> rfl

/-- A call that looks at the memo leaves behind the entry of its window, unless it was served a
strange one. -/
theorem anchored (h : Uses rules m c g l lookup m') (hc : c.algorithm? = some a)
    (hlookup : lookup ≠ none)
    (hown : lookup = some .miss ∨ m.byFork = true ∨ ∀ known, m.slots.get a = some known →
      ∃ w l', l' <:+ l ∧ AveragedAbove rules a w g l' known) (hl : Climbs g l) :
    ∃ w e, m'.slots.get a = some e ∧ Anchored rules a ⟨l, .genesis g⟩ w e := by
  cases h with
  | unused => exact absurd rfl hlookup
  | bypassed hnone =>
    rw [hc] at hnone
    cases hnone
  | @hit b w e known hb hV hpos hknown hanswers =>
    obtain rfl : b = a := Option.some.inj (hb.symm.trans hc)
    obtain ⟨hwindow, hanchor⟩ := AverageMemo.answers_eq_true hanswers
    refine ⟨w, known, hknown, hV.anchored hpos hwindow ?_⟩
    rcases hown with hmiss | hfork | hown
    · cases hmiss
    · exact hanchor hfork
    · obtain ⟨w', l', ⟨pre, rfl⟩, hV'⟩ := hown known hknown
      exact (hV'.eq_of_append hl hV hwindow).1
  | @miss b w e hb hV hpos hmiss =>
    obtain rfl : b = a := Option.some.inj (hb.symm.trans hc)
    exact ⟨w, e, by simp [PerAlgorithm.get_set], hV.anchored hpos rfl rfl⟩

theorem averagedAbove (h : Uses rules m c g l lookup m') (hc : c.algorithm? = some a)
    (hlookup : lookup = some .miss) (he : m'.slots.get a = some e) :
    ∃ w, AveragedAbove rules a w g l e := by
  cases h with
  | unused | bypassed | hit => cases hlookup
  | @miss b w e' hb hV hpos hmiss =>
    obtain rfl : b = a := Option.some.inj (hb.symm.trans hc)
    simp only [PerAlgorithm.get_set, if_true, Option.some.injEq] at he
    exact ⟨w, he ▸ hV⟩

theorem own (h : Uses rules m c g l lookup m')
    (hown : ∀ known, m.slots.get a = some known → ∃ w l', l' <:+ l ∧
      AveragedAbove rules a w g l' known) :
    ∀ known, m'.slots.get a = some known → ∃ w l', l' <:+ l ∧
      AveragedAbove rules a w g l' known := by
  cases h with
  | unused | bypassed | hit => exact hown
  | @miss b w e hb hV hpos hmiss =>
    intro known hknown
    rw [PerAlgorithm.get_set] at hknown
    split at hknown
    · next hab =>
      subst hab
      obtain rfl := Option.some.inj hknown
      exact ⟨w, l, List.suffix_rfl, hV⟩
    · exact hown known hknown

/-- An entry stays in its slot until its window is over, and until then no call asks for another one
of its window. -/
theorem kept (h : Uses rules m c g (pre ++ l) lookup m') (hl : Climbs g (pre ++ l))
    (hV : AveragedAbove rules a w g l e) (hne : e.average ≠ 0)
    (hk : m.slots.get a = some e ∨
      e.window < passed rules.scheduleStart (ownBlocks a (pre ++ l)) / w) :
    (m'.slots.get a = some e ∨ e.window < passed rules.scheduleStart (ownBlocks a (pre ++ l)) / w) ∧
      (c.algorithm? = some a → lookup = some .miss → ∀ e', m'.slots.get a = some e' →
        e'.window ≠ e.window) := by
  cases h with
  | unused | bypassed | hit => exact ⟨hk, fun _ hmiss ↦ by cases hmiss⟩
  | @miss b w' e' hb hV' hpos hmiss =>
    by_cases hab : a = b
    · subst hab
      obtain rfl : w = w' := Except.ok.inj (hV.window_ok.symm.trans hV'.window_ok)
      have hlt : e.window < passed rules.scheduleStart (ownBlocks a (pre ++ l)) / w := by
        rcases hk with hslot | hlt
        · refine (hV.window_le hl).lt_of_ne fun heq ↦ ?_
          -- an entry of the same window would have answered
          rw [← hV'.window_eq] at heq
          have hanswers := hmiss e hslot
          simp [AverageMemo.answers, heq, hne, (hV.eq_of_append hl hV' heq).1] at hanswers
        · exact hlt
      refine ⟨.inr hlt, fun _ _ e'' he'' ↦ ?_⟩
      simp only [PerAlgorithm.get_set, if_true, Option.some.injEq] at he''
      rw [← he'', hV'.window_eq]
      exact hlt.ne'
    · refine ⟨?_, fun hc _ ↦ absurd (Option.some.inj (hc.symm.trans hb)) hab⟩
      simpa [PerAlgorithm.get_set, hab] using hk

end Uses

/-- A call on a tip, with what it gives and the memo that it leaves. -/
structure Answer where
  tip : BlockId
  candidate : Candidate
  requirement : Requirement
  memo : AverageMemo

/-- The entry that the call has averaged and stored for an algorithm. -/
def Answer.stored? (x : Answer) (a : Algorithm) : Option KnownAverage :=
  if x.candidate.algorithm? = some a ∧ x.requirement.lookup = some .miss then
    x.memo.slots.get a
  else none

/-- Calls one after another on one memo. -/
def answers (rules : Rules) (t : BlockTree) :
    AverageMemo → List (BlockId × Candidate) → Except Fault (List Answer)
  | _, [] => .ok []
  | m, (tip, candidate) :: calls => do
    let (requirement, memo) ← requirement rules candidate m (some (t.branch tip))
    return { tip, candidate, requirement, memo } :: (← answers rules t memo calls)

/-- Calls on tips of which each stands on the one before, the first on the blocks, and what they do
with the memo. -/
inductive Run (rules : Rules) (t : BlockTree) (g : Block) :
    List Block → AverageMemo → List Answer → Prop
  | nil {l : List Block} {m : AverageMemo} : Run rules t g l m []
  | cons {l l' : List Block} {m : AverageMemo} {x : Answer} {xs : List Answer} : l <:+ l' →
      Climbs g l' →
      t.branch x.tip = ⟨l', .genesis g⟩ →
      Uses rules m x.candidate g l' x.requirement.lookup x.memo →
      Run rules t g l' x.memo xs → Run rules t g l m (x :: xs)

theorem exists_run (hr : 0 < rules.spacing) (hs : t.Sound) {calls : List (BlockId × Candidate)}
    {id : BlockId} (hb : t.branches[id]? = some ⟨l, .genesis g⟩) (hm : m.enabled = true)
    (hlt : ∀ call ∈ calls, call.1 < t.size)
    (hchain : (id :: calls.map Prod.fst).IsChain t.Ancestor) :
    ∃ xs, answers rules t m calls = .ok xs ∧ Run rules t g l m xs := by
  induction calls generalizing id l m with
  | nil => exact ⟨[], rfl, .nil⟩
  | cons call calls ih =>
    obtain ⟨tip, c⟩ := call
    rw [List.map_cons, List.isChain_cons_cons] at hchain
    obtain ⟨g', l', hbranch, hb', hl'⟩ := hs.exists_path (hlt _ List.mem_cons_self)
    obtain ⟨l'', hsuffix, hb''⟩ := hchain.1.exists_suffix hs hb'
    obtain ⟨rfl, rfl⟩ : l = l'' ∧ g = g' := by simpa [hb] using hb''
    obtain ⟨r, m', hreq, huses⟩ := requirement_uses hr hl' hm c
    obtain ⟨xs, hxs, hrun⟩ :=
      ih hb' (huses.enabled_eq.trans hm) (fun call hcall ↦ hlt call (List.mem_cons_of_mem _ hcall))
      hchain.2
    refine ⟨⟨tip, c, r, m'⟩ :: xs, ?_, .cons hsuffix hl' hbranch huses hrun⟩
    rw [answers, hbranch, hreq, ok_bind]
    simp only [hxs, ok_bind]
    rfl

namespace Run

variable {xs : List Answer}

/-- What is averaged is not averaged again by the calls that follow. -/
theorem stored?_ne (h : Run rules t g l m xs) (hl : Climbs g l)
    (hV : AveragedAbove rules a w g l' e) (hl' : l' <:+ l) (hne : e.average ≠ 0)
    (hk : m.slots.get a = some e ∨ e.window < passed rules.scheduleStart (ownBlocks a l) / w) :
    ∀ x ∈ xs, ∀ e' ∈ x.stored? a, e'.window ≠ e.window := by
  -- `hk` is the invariant: the entry is still in its slot, or the chain has outgrown its window
  induction h with
  | nil => simp
  | @cons l l₁ m x xs hsuffix hl₁ hbranch huses hrun ih =>
    obtain ⟨pre, hpre⟩ := hl'.trans hsuffix
    have hk₁ : m.slots.get a = some e ∨
        e.window < passed rules.scheduleStart (ownBlocks a l₁) / w := by
      refine hk.imp_right fun hlt ↦ hlt.trans_le (Nat.div_le_div_right ?_)
      have hstart := (hV.start_le (hl.suffix hl')).trans (Nat.succ_le_succ hl'.length_le)
      obtain ⟨pre₁, rfl⟩ := hsuffix
      exact passed_le_append hl₁ hstart
    subst hpre
    obtain ⟨hkept, hnew⟩ := huses.kept hl₁ hV hne hk₁
    intro y hy e' he'
    rcases List.mem_cons.1 hy with rfl | hy
    · rw [Answer.stored?, Option.mem_def, ite_eq_iff] at he'
      obtain ⟨⟨hc, hmiss⟩, he'⟩ | ⟨-, he'⟩ := he'
      · exact hnew hc hmiss e' he'
      · cases he'
    · exact ih hl₁ (List.suffix_append pre l') hkept y hy e' he'

/-- Of two calls that average one window the first has found an average of zero. -/
theorem pairwise_stored? (h : Run rules t g l m xs) (a : Algorithm) :
    xs.Pairwise fun x y ↦ ∀ e ∈ x.stored? a, ∀ e' ∈ y.stored? a, e'.window = e.window →
      e.average = 0 := by
  induction h with
  | nil => exact .nil
  | @cons l l₁ m x xs hsuffix hl₁ hbranch huses hrun ih =>
    refine .cons ?_ ih
    intro y hy e he e' he' hwindow
    by_contra hne
    rw [Answer.stored?, Option.mem_def, ite_eq_iff] at he
    obtain ⟨⟨hc, hmiss⟩, he⟩ | ⟨-, he⟩ := he
    · obtain ⟨w, hV⟩ : ∃ w, AveragedAbove rules a w g l₁ e := huses.averagedAbove hc hmiss he
      exact hrun.stored?_ne hl₁ hV List.suffix_rfl hne (.inl he) y hy e' he' hwindow
    · cases he

theorem anchored (h : Run rules t g l m xs) (a : Algorithm) :
    ∀ x ∈ xs, x.candidate.algorithm? = some a → x.requirement.lookup ≠ none →
      (x.requirement.lookup = some .miss ∨ m.byFork = true ∨ ∀ known, m.slots.get a = some known →
        ∃ w l', l' <:+ l ∧ AveragedAbove rules a w g l' known) →
      ∃ w e, x.memo.slots.get a = some e ∧ Anchored rules a (t.branch x.tip) w e := by
  induction h with
  | nil => simp
  | @cons l l₁ m x xs hsuffix hl₁ hbranch huses hrun ih =>
    have hgrow (hown : ∀ known, m.slots.get a = some known → ∃ w l', l' <:+ l ∧
        AveragedAbove rules a w g l' known) :
        ∀ known, m.slots.get a = some known → ∃ w l', l' <:+ l₁ ∧
          AveragedAbove rules a w g l' known := by
      intro known hknown
      obtain ⟨w, l', hl', hV⟩ := hown known hknown
      exact ⟨w, l', hl'.trans hsuffix, hV⟩
    intro y hy hc hlookup hknown
    rcases List.mem_cons.1 hy with rfl | hy
    · rw [hbranch]
      exact huses.anchored hc hlookup (hknown.imp_right (.imp_right hgrow)) hl₁
    · refine ih y hy hc hlookup (hknown.imp_right (.imp ?_ fun hown ↦ huses.own (hgrow hown)))
      exact huses.byFork_eq.trans

end Run

/-- On a chain, whatever the algorithms of the candidates, each window of each algorithm is averaged
once at most, and the block that an average in use begins with closes the window. -/
theorem answers_average_once (hf : rules.fault? = none) (ht : t.Grown) (hm : m.enabled = true)
    {calls : List (BlockId × Candidate)} (hlt : ∀ call ∈ calls, call.1 < t.size)
    (hchain : (calls.map Prod.fst).IsChain t.Ancestor) :
    ∃ xs, answers rules t m calls = .ok xs ∧ ∀ a,
      (∀ k, (∀ x ∈ xs, ∀ e ∈ x.stored? a, e.window = k → e.average ≠ 0) →
        xs.countP (fun x ↦ (x.stored? a).any (·.window = k)) ≤ 1) ∧
      ∀ x ∈ xs, x.candidate.algorithm? = some a → x.requirement.lookup ≠ none →
        (x.requirement.lookup = some .miss ∨ m.byFork = true ∨ m.slots.get a = none) →
        ∃ w e, x.memo.slots.get a = some e ∧ Anchored rules a (t.branch x.tip) w e := by
  have hs := ht.sound
  have hr := Rules.spacing_pos hf
  cases calls with
  | nil => exact ⟨[], rfl, fun a ↦ ⟨fun k _ ↦ Nat.zero_le 1, fun x hx ↦ nomatch hx⟩⟩
  | cons call calls =>
    obtain ⟨g, l, -, hb, hl⟩ := hs.exists_path (hlt call List.mem_cons_self)
    obtain ⟨xs, hxs, hrun⟩ := exists_run hr hs hb hm hlt (.cons_cons .refl hchain)
    refine ⟨xs, hxs, fun a ↦ ⟨fun k hne ↦ ?_, fun x hx hc hlookup hknown ↦ ?_⟩⟩
    · rw [List.countP_eq_length_filter]
      have hpair := (hrun.pairwise_stored? a).filter fun x ↦ (x.stored? a).any (·.window = k)
      have hmem : ∀ x ∈ xs.filter fun x ↦ (x.stored? a).any (·.window = k), x ∈ xs ∧
          ∃ e ∈ x.stored? a, e.window = k := by
        intro x hx
        simpa [Option.any_eq_true] using List.mem_filter.1 hx
      generalize xs.filter (fun x ↦ (x.stored? a).any (·.window = k)) = ys at hpair hmem
      match ys with
      | [] | [_] => simp
      | x :: y :: ys =>
        obtain ⟨hx, e, he, hek⟩ := hmem x (by simp)
        obtain ⟨-, e', he', hek'⟩ := hmem y (by simp)
        exact absurd (List.rel_of_pairwise_cons hpair List.mem_cons_self e he e' he'
          (hek'.trans hek.symm)) (hne x hx e he hek)
    · refine hrun.anchored a x hx hc hlookup
        (hknown.imp_right (.imp_right fun hnone known hknown ↦ ?_))
      rw [hnone] at hknown
      cases hknown

/-- The second call is below the next window, so it is served what the first one has stored. -/
theorem answers_average_once_on_line :
    let c : Candidate := .ofTag (some .xevan) 8400
    let t := BlockTree.lineTree BlockTree.numberedGenesis Session.sampleLine
    ∃ xs, answers Session.shortRules t {} [(12, c), (13, c)] = .ok xs ∧
      xs.map (·.requirement.lookup) = [some .miss, some .hit] ∧
      xs.countP (fun x ↦ (x.stored? .xevan).any (·.window = 2)) ≤ 1 ∧
      ∀ x ∈ xs, ∃ w e, x.memo.slots.get .xevan = some e ∧
        Anchored Session.shortRules .xevan (t.branch x.tip) w e := by
  intro c t
  have hhash : ((Session.sampleLine ++ [BlockTree.numberedGenesis]).map Entry.hash).Nodup := by
    decide +kernel
  have hgrown : t.Grown := (BlockTree.line_lineTree _ _ hhash).grown
  have hsize : t.size = 14 := BlockTree.size_lineTree hhash
  have hb₁₂ : t.branch 12 = _ := BlockTree.branch_of_branches (BlockTree.branch_lineTree hhash 1)
  have hb₁₃ : t.branch 13 = _ := BlockTree.branch_of_branches (BlockTree.branch_lineTree hhash 0)
  have hf : Session.shortRules.fault? = none := by decide +kernel
  have hlt : ∀ call ∈ [(12, c), (13, c)], call.1 < t.size := by simp [hsize]
  have hchain : ([(12, c), (13, c)].map Prod.fst).IsChain t.Ancestor :=
    .cons_cons (.step (by rw [hb₁₃]; rfl) .refl) (.singleton 13)
  obtain ⟨xs, hxs, honce⟩ := answers_average_once (m := {}) hf hgrown rfl hlt hchain
  obtain ⟨hcount, hanchored⟩ := honce .xevan
  have hrun : (answers Session.shortRules t {} [(12, c), (13, c)] >>= fun xs ↦
      .ok (xs.map fun x ↦
        (x.candidate, x.requirement.lookup, (x.stored? .xevan).all (·.average ≠ 0)))) =
      .ok [(c, some .miss, true), (c, some .hit, true)] := by
    simp only [answers, hb₁₂, hb₁₃]
    decide +kernel
  rw [hxs, ok_bind, Except.ok.injEq] at hrun
  have hcall : ∀ x ∈ xs, x.candidate = c ∧ x.requirement.lookup ≠ none ∧
      ∀ e ∈ x.stored? .xevan, e.average ≠ 0 := by
    intro x hx
    have hx := hrun ▸ List.mem_map_of_mem hx
    simp only [List.mem_cons, List.not_mem_nil, or_false, Prod.mk.injEq, Option.all_eq_true,
      decide_eq_true_eq] at hx
    rcases hx with ⟨hc, hlookup, hne⟩ | ⟨hc, hlookup, hne⟩
    · exact ⟨hc, by simp [hlookup], hne⟩
    · exact ⟨hc, by simp [hlookup], hne⟩
  refine ⟨xs, hxs, ?_, hcount 2 fun x hx e he _ ↦ (hcall x hx).2.2 e he, fun x hx ↦ ?_⟩
  · simpa [Function.comp_def] using congrArg (List.map fun p ↦ p.2.1) hrun
  · obtain ⟨hc, hlookup, -⟩ := hcall x hx
    exact hanchored x hx (hc ▸ Algorithm.ofVersion?_version .xevan) hlookup (.inr (.inl rfl))

end HybridDifficulty
