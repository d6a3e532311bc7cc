import HybridDifficulty.Proofs.MemoTransparency
import HybridDifficulty.Proofs.SeriesView
import Mathlib.Data.List.Forall2

/-!
Algorithms that share a tree are retargeted independently: what is required of a candidate stays the
same when the blocks of all other algorithms are replaced.
-/

namespace HybridDifficulty

open Branch

variable {rules : Rules} {c : Candidate} {a : Algorithm} {t t' : BlockTree} {id : BlockId}
  {b b' : Branch}

/-- Trees of one shape that have the same genesis and the same blocks of an algorithm. Where one
tree has a block of another algorithm, or none, the other one has any such block. -/
structure BlockTree.AgreeOn (a : Algorithm) (t t' : BlockTree) : Prop where
  size_eq : t.size = t'.size
  parent_eq : ∀ id, (t.branch id).parentId? = (t'.branch id).parentId?
  genesis_eq : (t.branch 0).top = (t'.branch 0).top
  block_eq : ∀ id x y, (t.branch id).top = .ok x → (t'.branch id).top = .ok y →
    x.algorithm? = some a ∨ y.algorithm? = some a → x = y

/-- Two paths over one genesis, of one length, with the same blocks of the algorithm. -/
inductive Branch.AgreeOn (a : Algorithm) : Branch → Branch → Prop
  | mk {g : Block} {l l' : List Block} : l.length = l'.length → ownBlocks a l = ownBlocks a l' →
      AgreeOn a ⟨l, .genesis g⟩ ⟨l', .genesis g⟩

theorem Branch.AgreeOn.extend (h : b.AgreeOn a b') {x y : Block}
    (hxy : x.algorithm? = some a ∨ y.algorithm? = some a → x = y) :
    (b.extend x).AgreeOn a (b'.extend y) := by
  obtain ⟨hlen, hown⟩ := h
  refine .mk (congrArg (· + 1) hlen) ?_
  by_cases hx : x.algorithm? = some a ∨ y.algorithm? = some a
  · rw [hxy hx]
    simp only [ownBlocks, List.filter_cons, hown]
  · obtain ⟨hx, hy⟩ := not_or.1 hx
    have hx : ¬ (Series.tagged a).contains x := fun h ↦ hx (of_decide_eq_true h)
    have hy : ¬ (Series.tagged a).contains y := fun h ↦ hy (of_decide_eq_true h)
    rw [ownBlocks, ownBlocks, List.filter_cons_of_neg hx, List.filter_cons_of_neg hy]
    exact hown

namespace BlockTree.AgreeOn

/-- Two blocks over agreeing trees that are both genesis or both not. -/
theorem blocks_nil_iff (hs : t.Sound) (hs' : t'.Sound) (hb : t.branches[id]? = some b)
    (hb' : t'.branches[id]? = some b') : b.blocks = [] ↔ b'.blocks = [] := by
  rw [hs.blocks_eq_nil_iff hb, hs'.blocks_eq_nil_iff hb']

theorem branches (h : t.AgreeOn a t') (hs : t.Sound) (hs' : t'.Sound)
    (hb : t.branches[id]? = some b) (hb' : t'.branches[id]? = some b') : b.AgreeOn a b' := by
  induction id using Nat.strongRecOn generalizing b b' with
  | ind id ih =>
    have hparent := h.parent_eq id
    have hnil := blocks_nil_iff hs hs' hb hb'
    have hblock := h.block_eq id
    rw [branch_of_branches hb, branch_of_branches hb'] at hparent hblock
    obtain @⟨g, l, hl⟩ := hs.grounded hb
    obtain @⟨g', l', hl'⟩ := hs'.grounded hb'
    cases l with
    | nil =>
      obtain rfl : l' = [] := hnil.1 rfl
      obtain rfl : id = 0 := (hs.blocks_eq_nil_iff hb).1 rfl
      have hg := h.genesis_eq
      rw [branch_of_branches hb, branch_of_branches hb'] at hg
      obtain rfl : g = g' := Except.ok.inj hg
      exact .mk rfl rfl
    | cons x r =>
      cases l' with
      | nil => exact absurd (hnil.2 rfl) (List.cons_ne_nil x r)
      | cons y r' =>
        -- both links lead to the same place, where the trees agree by induction
        rw [parentId?_genesis_cons, parentId?_genesis_cons, Option.some.injEq] at hparent
        have hr := hs.branches_suffix hb (List.suffix_cons x r)
        have hr' := hs'.branches_suffix hb' (List.suffix_cons y r')
        rw [← hparent] at hr'
        obtain ⟨p, hp, hpr⟩ := hs.below hb (below?_genesis_cons g r x)
        have hlt : (r.headD g).id < id := by rwa [hs.id_headD hpr]
        exact (ih _ hlt hr hr').extend (hblock x y rfl rfl)

end BlockTree.AgreeOn

theorem Branch.AgreeOn.requirement_eq (h : b.AgreeOn a b') (hb : b.Grounded) (hb' : b'.Grounded)
    (hc : c.algorithm? = some a) (m : AverageMemo) :
    requirement rules c m (some b) = requirement rules c m (some b') := by
  obtain ⟨hlen, hown⟩ := h
  obtain ⟨hl⟩ := hb
  obtain ⟨hl'⟩ := hb'
  exact requirement_congr hc hl.root_height hown (by rw [hl.top_height, hl'.top_height, hlen]) m

/-- Replacing the blocks of other algorithms leaves every requirement of a tagged candidate as it
was. -/
theorem requirement_eq_of_agreeOn (hf : rules.fault? = none) (ht : t.Grown) (ht' : t'.Grown)
    (h : t.AgreeOn a t') (hc : c.algorithm? = some a) {tip? : Option BlockId}
    (hid : ∀ id ∈ tip?, id < t.size) :
    ∃ r, requirement rules c .disabled (tip?.map t.branch) = .ok (r, .disabled) ∧
      requirement rules c .disabled (tip?.map t'.branch) = .ok (r, .disabled) := by
  have hmemo : AverageMemo.disabled.Sound rules t := AverageMemo.sound_of_empty rfl rfl
  have hbranch : ∀ b ∈ tip?.map t.branch, ∃ id : BlockId, t.branches[id]? = some b := by
    intro b hb
    obtain ⟨id, rfl, rfl⟩ := Option.map_eq_some_iff.1 hb
    exact ⟨id, BlockTree.branches_of_lt (hid id rfl)⟩
  obtain ⟨r, -, lookup, -, hreq, -⟩ :=
    requirement_transparent (c := c) ht.sound hmemo (Rules.spacing_pos hf) hbranch
  refine ⟨{ r with lookup }, hreq, ?_⟩
  cases tip? with
  | none => exact hreq
  | some id =>
    have hb := BlockTree.branches_of_lt (hid id rfl)
    have hb' := BlockTree.branches_of_lt (h.size_eq ▸ hid id rfl)
    have hagree := h.branches ht.sound ht'.sound hb hb'
    rw [Option.map_some] at hreq ⊢
    rw [← hagree.requirement_eq (ht.sound.grounded hb) (ht'.sound.grounded hb') hc, hreq]

namespace BlockTree

variable {g : Entry} {es es' : List Entry}

/-- Lines in which each entry of the algorithm stands at the same place. -/
theorem agreeOn_lineTree (h : ((es ++ [g]).map Entry.hash).Nodup)
    (h' : ((es' ++ [g]).map Entry.hash).Nodup)
    (hes : List.Forall₂
      (fun e e' ↦ e.algorithm? = some a ∨ e'.algorithm? = some a → e = e') es es') :
    (lineTree g es).AgreeOn a (lineTree g es') := by
  have hlen := hes.length_eq
  have hsize : (lineTree g es).size = (lineTree g es').size := by
    rw [size_lineTree h, size_lineTree h', hlen]
  have hbranch (id : BlockId) (hid : id ≤ es.length) : ∃ fs fs',
      List.Forall₂ (fun e e' ↦ e.algorithm? = some a ∨ e'.algorithm? = some a → e = e') fs fs' ∧
      (lineTree g es).branch id = lineBranch g fs ∧
      (lineTree g es').branch id = lineBranch g fs' := by
    refine ⟨_, _, List.forall₂_drop (es.length - id) hes, ?_, ?_⟩
    · have hb := branch_lineTree h (es.length - id)
      rw [Nat.sub_sub_self hid] at hb
      exact branch_of_branches hb
    · have hb := branch_lineTree h' (es.length - id)
      rw [← hlen, Nat.sub_sub_self hid] at hb
      exact branch_of_branches hb
  have hmissing (id : BlockId) (hid : ¬ id ≤ es.length) :
      (lineTree g es).branch id = .missing id ∧ (lineTree g es').branch id = .missing id := by
    have hge : (lineTree g es).size ≤ id := size_lineTree h ▸ Nat.lt_of_not_le hid
    exact ⟨branch_of_ge hge, branch_of_ge (hsize ▸ hge)⟩
  refine ⟨hsize, fun id ↦ ?_, ?_, fun id x y hx hy hxy ↦ ?_⟩
  · by_cases hid : id ≤ es.length
    · obtain ⟨fs, fs', hfs, hb, hb'⟩ := hbranch id hid
      rw [hb, hb']
      cases hfs with
      | nil => rfl
      | @cons e e' r r' he hr =>
        simp only [lineBranch, lineBlocks, parentId?_genesis_cons, headD_lineBlocks_id,
          hr.length_eq]
    · obtain ⟨hb, hb'⟩ := hmissing id hid
      rw [hb, hb']
  · rw [branch_of_branches (by simpa using branch_lineTree h es.length),
      branch_of_branches (by simpa using branch_lineTree h' es'.length)]
  · by_cases hid : id ≤ es.length
    · obtain ⟨fs, fs', hfs, hb, hb'⟩ := hbranch id hid
      rw [hb] at hx
      rw [hb'] at hy
      cases hfs with
      | nil => exact Except.ok.inj (hx.symm.trans hy)
      | @cons e e' r r' he hr =>
        cases hx
        cases hy
        obtain rfl := he hxy
        rw [hr.length_eq]
    · rw [(hmissing id hid).1] at hx
      cases hx

end BlockTree

def sampleLine (foreign : Entry) : List Entry :=
  let own := BlockTree.numbered (Algorithm.version .xevan) 0x1d0f0000
  [own 3, foreign, own 1]

/-- A stake block and an untagged one in its place. -/
def stakeEntry : Entry :=
  { BlockTree.numbered (Algorithm.version .stake) 0x1e00ffff 2 with stake := true }

def untaggedEntry : Entry := { BlockTree.numbered untaggedVersion 0x1d00ffff 9 with time := -5 }

theorem requirement_eq_of_agreeOn_testnet :
    let c : Candidate := .ofTag (some .xevan) 2400
    let t := BlockTree.lineTree BlockTree.numberedGenesis (sampleLine stakeEntry)
    let t' := BlockTree.lineTree BlockTree.numberedGenesis (sampleLine untaggedEntry)
    t.Grown ∧ t'.Grown ∧ t.AgreeOn .xevan t' ∧ (t.branch 2).top ≠ (t'.branch 2).top ∧
      ∃ r, requirement .testnet c .disabled (some (t.branch 3)) = .ok (r, .disabled) ∧
        requirement .testnet c .disabled (some (t'.branch 3)) = .ok (r, .disabled) := by
  intro c t t'
  have h : ((sampleLine stakeEntry ++ [BlockTree.numberedGenesis]).map Entry.hash).Nodup := by
    decide
  have h' : ((sampleLine untaggedEntry ++ [BlockTree.numberedGenesis]).map Entry.hash).Nodup := by
    decide
  have hagree : t.AgreeOn .xevan t' := by
    apply BlockTree.agreeOn_lineTree h h'
    refine .cons (fun _ ↦ rfl) (.cons (fun hxevan ↦ ?_) (.cons (fun _ ↦ rfl) .nil))
    exact absurd hxevan (by decide)
  have hgrown := (BlockTree.line_lineTree _ _ h).grown
  have hgrown' := (BlockTree.line_lineTree _ _ h').grown
  have hne : (t.branch 2).top ≠ (t'.branch 2).top := by
    have hb : t.branch 2 = _ := BlockTree.branch_of_branches (BlockTree.branch_lineTree h 1)
    have hb' : t'.branch 2 = _ := BlockTree.branch_of_branches (BlockTree.branch_lineTree h' 1)
    rw [hb, hb']
    decide
  have hid : ∀ id ∈ some 3, id < t.size := by
    rintro id ⟨⟩
    exact BlockTree.size_lineTree h ▸ Nat.lt_succ_self 3
  have hf : Rules.testnet.fault? = none := by decide +kernel
  have hc : c.algorithm? = some .xevan := Algorithm.ofVersion?_version .xevan
  exact ⟨hgrown, hgrown', hagree, hne, requirement_eq_of_agreeOn hf hgrown hgrown' hagree
    hc hid⟩

end HybridDifficulty
