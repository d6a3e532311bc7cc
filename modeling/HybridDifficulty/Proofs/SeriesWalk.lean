import HybridDifficulty.Proofs.AncestorLookup
import HybridDifficulty.Proofs.SeriesView

/-!
Walks for the blocks of a series. A walk takes links until a block belongs to the series, and
genesis ends it whether it belongs or not. Walks that set out below what the one before has returned
meet the series from its newest block down.
-/

namespace HybridDifficulty

open Branch

theorem Series.contains_ofTag (tag : Option Algorithm) (stake : Bool) (x : Block) :
    (Series.ofTag tag stake).contains x = true ↔
      (∀ a, tag = some a → x.algorithm? = some a) ∧ (tag = none → x.stake = stake) := by
  cases tag with
  | none => simp [ofTag, contains]
  | some a => simp [ofTag, contains]

namespace BlockTree

/-- What a walk from a block returns. From nowhere it returns nothing. -/
def lastMatch? (t : BlockTree) (p : Block → Bool) : Option BlockId → Except Fault (Option Block)
  | none => .ok none
  | some id => ((t.branch id).seek p).top.map some

/-- Where a walk goes on from a block. It goes no further than a block that matches. -/
def onward? (t : BlockTree) (p : Block → Bool) (id : BlockId) : Except Fault (Option BlockId) := do
  let x ← (t.branch id).top
  return if p x then none else (t.branch id).parentId?

/-- A walk that takes so many links and comes to rest. -/
inductive WalksTo (t : BlockTree) (p : Block → Bool) : BlockId → Nat → BlockId → Prop
  | rest {id : BlockId} : t.onward? p id = .ok none → WalksTo t p id 0 id
  | link {id parent last : BlockId} {n : Nat} : t.onward? p id = .ok (some parent) →
      WalksTo t p parent n last →
      WalksTo t p id (n + 1) last

/-- The blocks that walks return until one returns nothing, each walk but the first from below the
block before. -/
inductive Enumerates (t : BlockTree) (p : Block → Bool) : Option BlockId → List Block → Prop
  | nothing {start : Option BlockId} : t.lastMatch? p start = .ok none → Enumerates t p start []
  | cons {start : Option BlockId} {x : Block} {xs : List Block} :
      t.lastMatch? p start = .ok (some x) →
      Enumerates t p (t.branch x.id).parentId? xs → Enumerates t p start (x :: xs)

variable {t : BlockTree} {p : Block → Bool} {id : BlockId} {g x : Block} {l xs ys : List Block}
  {start start' : Option BlockId}

theorem Enumerates.unique (h : t.Enumerates p start xs) (h' : t.Enumerates p start ys) :
    xs = ys := by
  induction h generalizing ys with
  | nothing hend =>
    cases h' with
    | nothing => rfl
    | cons hx => cases hend.symm.trans hx
  | cons hx _ ih =>
    cases h' with
    | nothing hend => cases hend.symm.trans hx
    | cons hy hrest =>
      rw [hx, Except.ok.injEq, Option.some.injEq] at hy
      subst hy
      rw [ih hrest]

theorem Enumerates.of_eq (h : t.Enumerates p start' xs)
    (hstart : t.lastMatch? p start = t.lastMatch? p start') :
    t.Enumerates p start xs := by
  cases h with
  | nothing hend => exact .nothing (hstart.trans hend)
  | cons hx hrest => exact .cons (hstart.trans hx) hrest

theorem lastMatch?_of_branches (p : Block → Bool) (h : t.branches[id]? = some ⟨l, .genesis g⟩) :
    t.lastMatch? p (some id) = .ok (some ((l.filter p).headD g)) := by
  rw [lastMatch?, branch_of_branches h, seek_genesis, top_genesis, headD_dropWhile_not]
  rfl

theorem onward?_of_branches (p : Block → Bool) (h : t.branches[id]? = some ⟨l, .genesis g⟩) :
    t.onward? p id = .ok (if p (l.headD g) then none else parentId? ⟨l, .genesis g⟩) := by
  rw [onward?, branch_of_branches h, top_genesis]
  rfl

theorem Sound.walksTo (hs : t.Sound) (p : Block → Bool)
    (h : t.branches[id]? = some ⟨l, .genesis g⟩) :
    ∃ n ≤ l.length, t.WalksTo p id n ((l.filter p).headD g).id := by
  induction l generalizing id with
  | nil =>
    have hlowest : parentId? ⟨[], .genesis g⟩ = none := rfl
    have hon := onward?_of_branches p h
    rw [hlowest, ite_self] at hon
    rw [List.filter_nil, hs.id_headD h]
    exact ⟨0, Nat.le_refl 0, .rest hon⟩
  | cons x l ih =>
    have hon := onward?_of_branches p h
    rw [List.headD_cons, parentId?_genesis_cons] at hon
    by_cases hx : p x
    · have hid : x.id = id := hs.id_headD h
      rw [if_pos hx] at hon
      rw [List.filter_cons_of_pos hx, List.headD_cons, hid]
      exact ⟨0, Nat.zero_le _, .rest hon⟩
    · obtain ⟨n, hn, hwalk⟩ := ih (hs.branches_suffix h (List.suffix_cons x l))
      rw [if_neg hx] at hon
      rw [List.filter_cons_of_neg hx]
      exact ⟨n + 1, Nat.succ_le_succ hn, .link hon hwalk⟩

theorem Sound.enumerates (hs : t.Sound) (p : Block → Bool)
    (h : t.branches[id]? = some ⟨l, .genesis g⟩) :
    t.Enumerates p (some id) (l.filter p ++ [g]) := by
  induction l generalizing id with
  | nil =>
    have hg : g.id = id := hs.id_headD h
    refine .cons (lastMatch?_of_branches p h) (.nothing ?_)
    rw [hg, branch_of_branches h]
    rfl
  | cons x l ih =>
    have hbelow := hs.branches_suffix h (List.suffix_cons x l)
    have hlast := lastMatch?_of_branches p h
    by_cases hx : p x
    · -- the walk stays where it starts, and the next one starts a link below
      have hid : x.id = id := hs.id_headD h
      rw [List.filter_cons_of_pos hx] at hlast ⊢
      refine .cons hlast ?_
      rw [hid, branch_of_branches h, parentId?_genesis_cons]
      exact ih hbelow
    · -- the walk passes `x`, so it is the walk from below
      rw [List.filter_cons_of_neg hx] at hlast ⊢
      exact (ih hbelow).of_eq (hlast.trans (lastMatch?_of_branches p hbelow).symm)

/-- A walk returns genesis, below which there is nothing, or the newest match with what is below. -/
theorem Sound.lastMatch?_cases (hs : t.Sound) (p : Block → Bool)
    (h : t.branches[id]? = some ⟨l, .genesis g⟩) :
    ∃ x, t.lastMatch? p (some id) = .ok (some x) ∧
      (l.filter p = [] ∧ (t.branch x.id).parentId? = none ∨
        ∃ r : List Block, l.filter p = x :: r.filter p ∧
          (t.branch x.id).parentId? = some (r.headD g).id ∧
          t.branches[(r.headD g).id]? = some ⟨r, .genesis g⟩) := by
  refine ⟨_, lastMatch?_of_branches p h, ?_⟩
  rcases dropWhile_not_cases l p with ⟨-, hfilter⟩ | ⟨x, r, hdrop, -, hfilter⟩
  · have hlowest : t.branch g.id = ⟨[], .genesis g⟩ :=
      branch_of_branches (hs.branches_suffix h List.nil_suffix)
    rw [hfilter, List.headD_nil, hlowest]
    exact .inl ⟨rfl, rfl⟩
  · have hsuffix : x :: r <:+ l := hdrop ▸ List.dropWhile_suffix _
    have hx : t.branch x.id = ⟨x :: r, .genesis g⟩ :=
      branch_of_branches (hs.branches_suffix h hsuffix)
    rw [hfilter, List.headD_cons, hx, parentId?_genesis_cons]
    exact .inr ⟨r, rfl, rfl, hs.branches_suffix h ((List.suffix_cons x r).trans hsuffix)⟩

/-- The newest two of a series are what two walks return that both end above genesis. -/
theorem Sound.newestTwo?_eq_some_iff (hs : t.Sound) (hid : id < t.size) {y : Block} :
    (t.branch id).newestTwo? p = .ok (some (x, y)) ↔
      t.lastMatch? p (some id) = .ok (some x) ∧
        ∃ below, (t.branch x.id).parentId? = some below ∧
          t.lastMatch? p (some below) = .ok (some y) ∧ (t.branch y.id).parentId?.isSome := by
  obtain ⟨g, l, hbranch, hb, -⟩ := hs.exists_path hid
  rw [hbranch, newestTwo?_genesis, Except.ok.injEq, firstTwo_eq_some_iff]
  obtain ⟨x', hx', hfirst⟩ := hs.lastMatch?_cases p hb
  rw [hx', Except.ok.injEq, Option.some.injEq]
  rcases hfirst with ⟨hfilter, hlowest⟩ | ⟨r, hfilter, hbelow, hb⟩
  · constructor
    · rintro ⟨s, hown⟩
      cases hfilter.symm.trans hown
    · rintro ⟨rfl, below, hparent, -⟩
      cases hlowest.symm.trans hparent
  obtain ⟨y', hy', hsecond⟩ := hs.lastMatch?_cases p hb
  constructor
  · rintro ⟨s, hown⟩
    obtain ⟨rfl, hrest⟩ := List.cons.inj (hfilter.symm.trans hown)
    rcases hsecond with ⟨hfilter, -⟩ | ⟨r', hfilter, hparent, -⟩
    · cases hfilter.symm.trans hrest
    · obtain ⟨rfl, -⟩ := List.cons.inj (hfilter.symm.trans hrest)
      exact ⟨rfl, _, hbelow, hy', by rw [hparent]; rfl⟩
  · rintro ⟨rfl, below, hparent, hy, hyparent⟩
    obtain rfl := Option.some.inj (hbelow.symm.trans hparent)
    obtain rfl := Option.some.inj (Except.ok.inj (hy'.symm.trans hy))
    rcases hsecond with ⟨-, hlowest⟩ | ⟨r', hrest, -⟩
    · rw [hlowest] at hyparent
      cases hyparent
    · exact ⟨_, hfilter.trans (congrArg _ hrest)⟩

/-- They are the first two that walks return one below the other, where genesis counts for none. -/
theorem Sound.newestTwo?_of_enumerates (hs : t.Sound) (hid : id < t.size)
    (h : t.Enumerates p (some id) xs) :
    (t.branch id).newestTwo? p = .ok (firstTwo xs.dropLast) := by
  obtain ⟨g, l, hbranch, hb, -⟩ := hs.exists_path hid
  rw [hbranch, newestTwo?_genesis, h.unique (hs.enumerates p hb), List.dropLast_concat]

theorem Sound.genesis?_eq_some_iff (hs : t.Sound) (h : t.branches[id]? = some ⟨l, .genesis g⟩) :
    t.genesis? = some id ↔ l = [] := by
  rw [hs.genesis?_of_lt (lt_of_branches h), Option.some.injEq, eq_comm]
  exact (hs.blocks_eq_nil_iff h).symm

theorem Sound.mem_blocks_iff (hs : t.Sound) (h : t.branches[id]? = some ⟨l, .genesis g⟩) :
    x ∈ l ↔ t.Reaches id x ∧ t.genesis? ≠ some x.id := by
  rw [hs.reaches_iff h]
  constructor
  · intro hx
    obtain ⟨r, s, rfl⟩ := List.append_of_mem hx
    have hsuffix : x :: s <:+ r ++ x :: s := List.suffix_append r _
    have hne : x :: s ≠ [] := List.cons_ne_nil x s
    exact ⟨⟨x :: s, hsuffix, rfl⟩,
      mt (hs.genesis?_eq_some_iff (hs.branches_suffix h hsuffix)).1 hne⟩
  · rintro ⟨⟨l', hl', rfl⟩, hne⟩
    have hne : l' ≠ [] := mt (hs.genesis?_eq_some_iff (hs.branches_suffix h hl')).2 hne
    obtain ⟨y, r, rfl⟩ := List.exists_cons_of_ne_nil hne
    exact hl'.subset List.mem_cons_self

/-- What the walks of a series return that begin at `id`: the blocks `own`, then genesis `g`, then
nothing. -/
structure SeriesLaws (t : BlockTree) (tag : Option Algorithm) (stake : Bool) (id : BlockId)
    (own : List Block) (g : Block) : Prop where
  enumerates_iff : ∀ xs, t.Enumerates (Series.ofTag tag stake).contains (some id) xs ↔
    xs = own ++ [g]
  mem_own_iff : ∀ x, x ∈ own ↔ (t.Reaches id x ∧ t.genesis? ≠ some x.id) ∧
    (∀ a, tag = some a → x.algorithm? = some a) ∧ (tag = none → x.stake = stake)
  genesis : t.genesis? = some g.id ∧ t.Reaches id g
  /-- The newest block comes first, and no block comes twice. -/
  falling : (own ++ [g]).Pairwise fun x y ↦ y.height < x.height
  /-- From everywhere on the path a walk comes to an end, which is what it returns. -/
  ends : ∀ y, t.Reaches id y →
    ∃ n ≤ y.height, ∃ z, t.WalksTo (Series.ofTag tag stake).contains y.id n z.id ∧
    t.lastMatch? (Series.ofTag tag stake).contains (some y.id) = .ok (some z)

theorem seriesLaws_of_grown (ht : t.Grown) (hid : id < t.size) (tag : Option Algorithm)
    (stake : Bool) :
    ∃ g, t.SeriesLaws tag stake id
      ((t.branch id).filter (Series.ofTag tag stake).contains).blocks g := by
  have hs := ht.sound
  obtain ⟨g, l, hbranch, hb, hl⟩ := hs.exists_path hid
  rw [hbranch, filter_genesis]
  refine ⟨g, ?_⟩
  constructor
  case enumerates_iff =>
    intro xs
    have henum := hs.enumerates (Series.ofTag tag stake).contains hb
    exact ⟨fun h ↦ h.unique henum, fun h ↦ h ▸ henum⟩
  case mem_own_iff =>
    intro x
    rw [List.mem_filter, hs.mem_blocks_iff hb, Series.contains_ofTag]
  case genesis =>
    have hg := hs.branches_suffix hb List.nil_suffix
    exact ⟨(hs.genesis?_eq_some_iff hg).2 rfl, (hs.reaches_iff hb).2 ⟨[], List.nil_suffix, rfl⟩⟩
  case falling =>
    rw [List.pairwise_append]
    refine ⟨hl.pairwise.sublist List.filter_sublist, List.pairwise_singleton _ g, ?_⟩
    intro x hx y hy
    rw [List.mem_singleton.1 hy, hl.root_height]
    exact hl.height_pos (List.mem_filter.1 hx).1
  case ends =>
    intro y hy
    obtain ⟨l', hl', rfl⟩ := (hs.reaches_iff hb).1 hy
    have hb' := hs.branches_suffix hb hl'
    obtain ⟨n, hn, hwalk⟩ := hs.walksTo (Series.ofTag tag stake).contains hb'
    exact ⟨n, (hl.suffix hl').top_height ▸ hn, _, hwalk, lastMatch?_of_branches _ hb'⟩

/-- The path leaves a line below its tip and goes down over a stake block, and genesis is in neither
series. -/
theorem seriesLaws_of_grown_on_fork :
    let xevan := numbered (Algorithm.version .xevan) 0x1d0f0000
    let t := forkTree numberedGenesis [xevan 3, numbered (Algorithm.version .stake) 0x1e00ffff 2,
      xevan 1] 1 (xevan 4)
    t.Grown ∧ 4 < t.size ∧
      (∃ g, t.SeriesLaws (some .xevan) true 4
        [{ xevan 4 with id := 4, height := 3 }, { xevan 1 with id := 1, height := 1 }] g) ∧
      ∃ g, t.SeriesLaws none true 4 [] g := by
  intro xevan t
  have hhash :
      ((xevan 4 :: [xevan 3, numbered (Algorithm.version .stake) 0x1e00ffff 2, xevan 1] ++
        [numberedGenesis]).map Entry.hash).Nodup := by
    decide +kernel
  have hgrown : t.Grown := grown_forkTree 1 hhash
  obtain ⟨hfork, -⟩ := branches_forkTree 1 hhash
  have hid : 4 < t.size := lt_of_branches hfork
  have hb : t.branch 4 = _ := branch_of_branches hfork
  have hxevan : ((t.branch 4).filter (Series.ofTag (some .xevan) true).contains).blocks =
      [{ xevan 4 with id := 4, height := 3 }, { xevan 1 with id := 1, height := 1 }] := by
    rw [hb]
    decide +kernel
  have hnone : ((t.branch 4).filter (Series.ofTag none true).contains).blocks = [] := by
    rw [hb]
    decide +kernel
  refine ⟨hgrown, hid, ?_, ?_⟩
  · rw [← hxevan]
    exact seriesLaws_of_grown hgrown hid (some .xevan) true
  · rw [← hnone]
    exact seriesLaws_of_grown hgrown hid none true

end BlockTree

end HybridDifficulty
