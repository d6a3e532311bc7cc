import HybridDifficulty.Proofs.MemoEntries

/-!
A memo bound to forks never changes an answer: whatever calls and insertions came before, an entry
holds the average that its anchor's branch still has.
-/

namespace HybridDifficulty

/-- Dropping matches from the top is looking at a lower block. -/
theorem exists_suffix_filter_eq {α : Type} (p : α → Bool) {l r : List α} (h : r <:+ l.filter p) :
    ∃ l', l' <:+ l ∧ l'.filter p = r ∧ l'.head? = r.head? := by
  induction l with
  | nil => exact ⟨[], List.nil_suffix, (List.suffix_nil.1 h).symm, by rw [List.suffix_nil.1 h]⟩
  | cons x l ih =>
    have hlower : r <:+ l.filter p → ∃ l', l' <:+ x :: l ∧ l'.filter p = r ∧
        l'.head? = r.head? := by
      intro h
      obtain ⟨l', hs, hl'⟩ := ih h
      exact ⟨l', hs.trans (List.suffix_cons x l), hl'⟩
    by_cases hx : p x
    · rw [List.filter_cons_of_pos hx] at h
      rcases List.suffix_cons_iff.1 h with rfl | h
      · exact ⟨x :: l, List.suffix_rfl, List.filter_cons_of_pos hx, rfl⟩
      · exact hlower h
    · rw [List.filter_cons_of_neg hx] at h
      exact hlower h

/-- The average of the blocks of an algorithm from the one with the anchor's hash down. -/
def IsAverage (rules : Rules) (t : BlockTree) (a : Algorithm) (anchor : Hash)
    (average : Nat) : Prop :=
  ∃ (id : BlockId) (b : Branch) (x : Block) (w : Nat), t.branches[id]? = some b ∧ b.top = .ok x ∧
    x.hash = anchor ∧ Absolute.window rules (rules.spacingOf (.tagged a)) = .ok w ∧
    Absolute.averageFrom rules (.tagged a) w (b.filter (Series.tagged a).contains) = .ok average

variable {rules : Rules} {t t' : BlockTree} {m : AverageMemo} {a : Algorithm} {anchor : Hash}
  {average average' : Nat}

theorem IsAverage.unique (hs : t.Sound) (h : IsAverage rules t a anchor average)
    (h' : IsAverage rules t a anchor average') : average = average' := by
  obtain ⟨id, b, x, w, hb, hx, rfl, hw, havg⟩ := h
  obtain ⟨id', b', x', w', hb', hx', hh, hw', havg'⟩ := h'
  obtain rfl := hs.eq_of_hash hb hb' hx hx' hh.symm
  obtain rfl : w = w' := Except.ok.inj (hw.symm.trans hw')
  exact Except.ok.inj (havg.symm.trans havg')

theorem IsAverage.mono (he : t.Extends t') (h : IsAverage rules t a anchor average) :
    IsAverage rules t' a anchor average := by
  obtain ⟨id, b, x, w, hb, h⟩ := h
  exact ⟨id, b, x, w, he id b hb, h⟩

namespace AverageMemo

/-- The memo tells forks apart, and each entry holds the average of its anchor. -/
structure Sound (m : AverageMemo) (rules : Rules) (t : BlockTree) : Prop where
  byFork : m.byFork = true
  isAverage : ∀ {a : Algorithm} {e : KnownAverage}, m.slots.get a = some e →
    IsAverage rules t a e.anchor e.average

theorem sound_iff_holds :
    m.Sound rules t ↔ m.Holds true fun a e ↦ IsAverage rules t a e.anchor e.average :=
  ⟨fun h ↦ ⟨h.byFork, h.isAverage⟩, fun h ↦ ⟨h.byFork_eq, h.entry⟩⟩

theorem sound_of_empty (h : m.byFork = true) (hm : m.slots = .replicate none) : m.Sound rules t :=
  sound_iff_holds.2 (holds_of_empty h hm)

theorem decisive_isAverage (hs : t.Sound) :
    Decisive true fun a e ↦ IsAverage rules t a e.anchor e.average where
  average_eq h h' _ hanchor := IsAverage.unique hs (hanchor rfl ▸ h) h'

end AverageMemo

open Branch

variable {c : Candidate} {id : BlockId} {tip? : Option Branch}

theorem isAverage_drop (hs : t.Sound) {w : Nat}
    (hw : Absolute.window rules (rules.spacingOf (.tagged a)) = .ok w) {g : Block} {l : List Block}
    (hb : t.branches[id]? = some ⟨l, .genesis g⟩) (n : Nat)
    (havg : Absolute.averageFrom rules (.tagged a) w
      ⟨(l.filter (Series.tagged a).contains).drop n, .genesis g⟩ =
      .ok average) :
    IsAverage rules t a (((l.filter (Series.tagged a).contains).drop n).headD g).hash average := by
  obtain ⟨l', hl', hfilter, hhead⟩ :=
    exists_suffix_filter_eq (Series.tagged a).contains
      (List.drop_suffix n (l.filter (Series.tagged a).contains))
  obtain ⟨id', hb'⟩ := hs.suffix hb hl'
  refine ⟨id', _, l'.headD g, w, hb', top_genesis g l', ?_, hw, ?_⟩
  · rw [List.headD_eq_head?_getD, List.headD_eq_head?_getD, hhead]
  · rw [filter_genesis, hfilter]
    exact havg

theorem entryLaw_isAverage (rules : Rules) :
    EntryLaw rules fun t a e ↦ IsAverage rules t a e.anchor e.average where
  stored hs h := by
    obtain ⟨id, g, l, w, hb, h⟩ := h
    rw [h.anchor_eq]
    exact isAverage_drop hs h.window_ok hb _ h.average_ok
  mono he h := h.mono he

/-- A sound memo changes nothing but whether a stored average is reported, and stays sound. -/
theorem requirement_transparent (hs : t.Sound) (hm : m.Sound rules t) (hr : 0 < rules.spacing)
    (ht : ∀ b ∈ tip?, ∃ id : BlockId, t.branches[id]? = some b) :
    ∃ r m' lookup, requirement rules c m tip? = .ok (r, m') ∧
      requirement rules c .disabled tip? = .ok ({ r with lookup }, .disabled) ∧
      m'.Sound rules t := by
  obtain ⟨r, m', hmemo, hm', hplain⟩ :=
    requirement_holds (c := c) hs hr ((entryLaw_isAverage rules).stored hs)
    (AverageMemo.sound_iff_holds.1 hm) ht
  obtain ⟨lookup, hplain⟩ := hplain (AverageMemo.decisive_isAverage hs)
  exact ⟨r, m', lookup, hmemo, hplain, AverageMemo.sound_iff_holds.2 hm'⟩

namespace Session

/-- The engine keeps its rules, and its memo holds averages of the tree. -/
structure Remembering (rules : Rules) (s : Session) : Prop where
  grown : s.tree.Grown
  rules_eq : s.engine.rules = rules
  memo : s.engine.memo.Sound rules s.tree

variable {s : Session}

theorem remembering_iff_keeps : s.Remembering rules ↔
    s.Keeps rules true fun t a e ↦ IsAverage rules t a e.anchor e.average :=
  ⟨fun h ↦ ⟨h.grown, h.rules_eq, AverageMemo.sound_iff_holds.1 h.memo⟩,
    fun h ↦ ⟨h.grown, h.rules_eq, AverageMemo.sound_iff_holds.2 h.holds⟩⟩

theorem Remembering.run (hr : 0 < rules.spacing) (h : s.Remembering rules) (events : List Event) :
    (s.run events).Remembering rules :=
  remembering_iff_keeps.2 ((remembering_iff_keeps.1 h).run hr (entryLaw_isAverage rules) events)

theorem remembering_start {settings : Settings} {e₀ : Engine}
    (h : Engine.start settings rules = .ok e₀) (hfork : settings.memoByFork = true) :
    Remembering rules { engine := e₀ } := by
  obtain ⟨-, rfl⟩ := Engine.start_eq_ok h
  exact ⟨.empty, rfl, AverageMemo.sound_of_empty hfork rfl⟩

end Session

/-- After any run of an engine that tells forks apart, an answer is the one that an engine without
memory gives on the tree as it stands; only the report of a look-up differs. -/
theorem Session.next_eq_next_without_memo {settings : Settings} {e₀ : Engine}
    (hstart : Engine.start settings rules = .ok e₀) (hfork : settings.memoByFork = true)
    (events : List Event) (tip? : Option BlockId) (c : Candidate) :
    let s := Session.run { engine := e₀ } events
    (∀ id ∈ tip?, id < s.tree.size) →
    ∃ r engine lookup, s.engine.next (tip?.map s.tree.branch) c = .ok (r, engine) ∧
      requirement rules c .disabled (tip?.map s.tree.branch) =
        .ok ({ r with lookup }, .disabled) := by
  intro s ht
  have hr := Rules.spacing_pos (Engine.start_eq_ok hstart).1
  have hs : s.Remembering rules := (remembering_start hstart hfork).run hr events
  obtain ⟨r, m, lookup, hreq, hreq₀, -⟩ :=
    requirement_transparent (c := c) hs.grown.sound hs.memo hr (exists_branch_of_lt ht)
  have hreq : requirement s.engine.rules c s.engine.memo (tip?.map s.tree.branch) = .ok (r, m) :=
    hs.rules_eq ▸ hreq
  refine ⟨r, { s.engine with memo := m, tally := s.engine.tally.addRequirement r }, lookup,
    ?_, hreq₀⟩
  rw [Engine.next, hreq, ok_bind]
  rfl

namespace Session

/-- Windows of two blocks. -/
def shortRules : Rules := { Rules.testnet with timespan := 300 }

def sampleLine : List Entry := BlockTree.numberedLine (Algorithm.version .xevan) 0x1d0f0000 13

def sideEntry : Entry := BlockTree.numbered (Algorithm.version .xevan) 0x1d0e0000 14

/-- A line of blocks, another block beside the last but one, and a call on each of these two. -/
def forkEvents (c : Candidate) : List Event :=
  lineEvents BlockTree.numberedGenesis sampleLine ++
    [.insert 11 sideEntry, .next (some 14) c, .next (some 12) c]

/-- The call on the fork stores its average, the one on the line replaces that by its own, and the
tip of the line is answered from memory. -/
theorem next_eq_next_without_memo_on_fork :
    let c : Candidate := .ofTag (some .xevan) 8400
    ∃ e₀, Engine.start { network := .testnet } shortRules = .ok e₀ ∧
      (let s := run { engine := e₀ } (forkEvents c)
       let tip := s.tree.branch 13
       ∃ r engine lookup, s.engine.next (some tip) c = .ok (r, engine) ∧ r.lookup = some .hit ∧
        requirement shortRules c .disabled (some tip) = .ok ({ r with lookup }, .disabled)) := by
  intro c
  let e₀ : Engine := { settings := { network := .testnet }, rules := shortRules, memo := {} }
  let t : BlockTree := .forkTree BlockTree.numberedGenesis sampleLine 2 sideEntry
  have hhash : ((sideEntry :: sampleLine ++ [BlockTree.numberedGenesis]).map Entry.hash).Nodup := by
    decide +kernel
  obtain ⟨hfork, hline⟩ := BlockTree.branches_forkTree 2 hhash
  have hb₁₂ : t.branch 12 = _ := BlockTree.branch_of_branches (hline 1)
  have hb₁₃ : t.branch 13 = _ := BlockTree.branch_of_branches (hline 0)
  have hb₁₄ : t.branch 14 = _ := BlockTree.branch_of_branches hfork
  have hhit :
      (e₀.next (some (t.branch 14)) c >>= fun p ↦ p.2.next (some (t.branch 12)) c >>= fun q ↦
      q.2.next (some (t.branch 13)) c >>= fun r ↦ .ok (p.1.lookup, q.1.lookup, r.1.lookup)) =
        .ok (some .miss, some .miss, some .hit) := by
    rw [hb₁₂, hb₁₃, hb₁₄]
    decide +kernel
  obtain ⟨⟨r₀, e₁⟩, hnext₀, hhit⟩ := exists_of_bind_eq_ok hhit
  obtain ⟨⟨r₁, e₂⟩, hnext₁, hhit⟩ := exists_of_bind_eq_ok hhit
  have hs : run { engine := e₀ } (forkEvents c) = { tree := t, engine := e₂ } := by
    have hinsert :
        ((BlockTree.lineTree BlockTree.numberedGenesis sampleLine).insert 11 sideEntry).2 = t := rfl
    rw [forkEvents, run_append, run_lineEvents]
    simp only [run, List.foldl_cons, List.foldl_nil, step, hinsert, tip, Option.map_some,
      hnext₀, hnext₁, after]
  have hstart : Engine.start { network := .testnet } shortRules = .ok e₀ := by
    have hf : shortRules.fault? = none := by decide +kernel
    simp only [Engine.start, hf]
    rfl
  have hanswer := next_eq_next_without_memo hstart rfl (forkEvents c) (some 13) c
  simp only [hs, Option.map_some] at hanswer
  obtain ⟨r, engine, lookup, hreq, hplain⟩ := hanswer fun id hid ↦
    Option.some.inj hid ▸ BlockTree.lt_of_branches (hline 0)
  simp only [hreq, ok_bind, Except.ok.injEq, Prod.mk.injEq] at hhit
  refine ⟨e₀, hstart, ?_⟩
  simp only [hs]
  exact ⟨r, engine, lookup, hreq, hhit.2.2, hplain⟩

end Session

end HybridDifficulty
