import HybridDifficulty.Proofs.TreeCalls

/-!
The ancestor of a block at a height. Links lead down one height at a time, so the path from a block
has one block at each height up to its own, and the lookup finds that one whatever grows on other
branches.
-/

namespace HybridDifficulty

open Branch

namespace Branch

variable {g a : Block} {l : List Block} {m n : Nat}

/-- No walk reaches a height above the top. -/
theorem ancestor?_of_lt (h : Climbs g l) (hn : l.length < n) :
    ancestor? ⟨l, .genesis g⟩ n = .ok none := by
  have htop := h.top_height
  -- already the top is no higher than `n`, so nothing is dropped
  have hstop : l.dropWhile (fun x ↦ !decide (x.height ≤ n)) = l := by
    cases l with
    | nil => rfl
    | cons x l =>
      have hle : x.height ≤ n := Nat.le_of_lt (htop ▸ hn)
      exact List.dropWhile_cons_of_neg (by simp [hle])
  rw [ancestor?, seek_genesis, hstop, top_genesis]
  change Except.ok (if (l.headD g).height = n then some (l.headD g) else none) = _
  rw [if_neg (by omega)]

theorem ancestor?_eq_some (h : Climbs g l) (ha : ancestor? ⟨l, .genesis g⟩ n = .ok (some a)) :
    ∃ l', l' <:+ l ∧ l'.length = n ∧ l'.headD g = a := by
  rcases Nat.lt_or_ge l.length n with hn | hn
  · rw [ancestor?_of_lt h hn] at ha
    cases ha
  · obtain ⟨l', hl', hlen, hanc⟩ := ancestor?_genesis h hn
    rw [hanc, Except.ok.injEq, Option.some.injEq] at ha
    exact ⟨l', hl', hlen, ha⟩

/-- Below a part of a path the whole path finds what the part finds. -/
theorem ancestor?_suffix (h : Climbs g l) {l' : List Block} (hl' : l' <:+ l) (hm : m ≤ l'.length) :
    ancestor? ⟨l', .genesis g⟩ m = ancestor? ⟨l, .genesis g⟩ m := by
  obtain ⟨l₁, h₁, hlen₁, hanc₁⟩ := ancestor?_genesis (h.suffix hl') hm
  obtain ⟨l₂, h₂, hlen₂, hanc₂⟩ := ancestor?_genesis h (Nat.le_trans hm hl'.length_le)
  obtain rfl : l₁ = l₂ := eq_of_suffix_of_length (h₁.trans hl') h₂ (hlen₁.trans hlen₂.symm)
  rw [hanc₁, hanc₂]

end Branch

namespace BlockTree

variable {t : BlockTree} {id : BlockId} {g x y : Block} {l l' : List Block}

theorem Sound.ancestor_of_suffix (hs : t.Sound) (h : t.branches[id]? = some ⟨l, .genesis g⟩)
    (hl : l' <:+ l) :
    t.Ancestor (l'.headD g).id id := by
  induction l generalizing id with
  | nil =>
    rw [List.suffix_nil.1 hl, hs.id_headD h]
    exact .refl
  | cons y l ih =>
    rcases List.suffix_cons_iff.1 hl with rfl | hl
    · rw [hs.id_headD h]
      exact .refl
    · -- the link from the top, then the path from the block below it
      have hparent : (t.branch id).parentId? = some (l.headD g).id := by
        rw [branch_of_branches h, parentId?_genesis_cons]
      exact .step hparent (ih (hs.branches_suffix h (List.suffix_cons y l)) hl)

/-- The block is the one named or the links from that one lead to it. -/
def Reaches (t : BlockTree) (id : BlockId) (x : Block) : Prop :=
  t.Ancestor x.id id ∧ (t.branch x.id).top = .ok x

theorem Sound.reaches_iff (hs : t.Sound) (h : t.branches[id]? = some ⟨l, .genesis g⟩) :
    t.Reaches id x ↔ ∃ l', l' <:+ l ∧ l'.headD g = x := by
  constructor
  · rintro ⟨hpath, htop⟩
    obtain ⟨l', hl', hb⟩ := hpath.exists_suffix hs h
    rw [branch_of_branches hb, top_genesis, Except.ok.injEq] at htop
    exact ⟨l', hl', htop⟩
  · rintro ⟨l', hl', rfl⟩
    refine ⟨hs.ancestor_of_suffix h hl', ?_⟩
    rw [branch_of_branches (hs.branches_suffix h hl'), top_genesis]

/-- A path meets each height once. -/
theorem Sound.reaches_inj (hs : t.Sound) (h : t.branches[id]? = some ⟨l, .genesis g⟩)
    (hl : Climbs g l) (hx : t.Reaches id x) (hy : t.Reaches id y) (hxy : x.height = y.height) :
    x = y := by
  obtain ⟨l₁, h₁, rfl⟩ := (hs.reaches_iff h).1 hx
  obtain ⟨l₂, h₂, rfl⟩ := (hs.reaches_iff h).1 hy
  rw [(hl.suffix h₁).top_height, (hl.suffix h₂).top_height] at hxy
  rw [eq_of_suffix_of_length h₁ h₂ hxy]

/-- What looking up heights from `id`, the block `x`, gives. -/
structure AncestorLaws (t : BlockTree) (id : BlockId) (x : Block) : Prop where
  found : ∀ n ≤ x.height, ∃ a, (t.branch id).ancestor? n = .ok (some a) ∧ a.height = n ∧
    t.Reaches id a ∧
    ∀ y, t.Reaches id y → y.height = n → y = a
  absent : ∀ n, x.height < n → (t.branch id).ancestor? n = .ok none
  composed : ∀ n a, (t.branch id).ancestor? n = .ok (some a) → ∀ m ≤ n,
    (t.branch a.id).ancestor? m = (t.branch id).ancestor? m
  stable : ∀ calls n, ((t.run calls).branch id).ancestor? n = (t.branch id).ancestor? n

theorem ancestorLaws_of_grown (ht : t.Grown) (hid : id < t.size) :
    ∃ x, (t.branch id).top = .ok x ∧ x.id = id ∧ t.AncestorLaws id x := by
  have hs := ht.sound
  obtain ⟨g, l, hbranch, hb, hl⟩ := hs.exists_path hid
  refine ⟨l.headD g, by rw [hbranch, top_genesis], hs.id_headD hb, ?_⟩
  constructor
  case found =>
    intro n hn
    rw [hl.top_height] at hn
    obtain ⟨l', hl', hlen, hanc⟩ := ancestor?_genesis hl hn
    have hheight : (l'.headD g).height = n := by rw [(hl.suffix hl').top_height, hlen]
    have hreach : t.Reaches id (l'.headD g) := (hs.reaches_iff hb).2 ⟨l', hl', rfl⟩
    rw [hbranch]
    exact ⟨_, hanc, hheight, hreach,
      fun y hy hyn ↦ hs.reaches_inj hb hl hy hreach (hyn.trans hheight.symm)⟩
  case absent =>
    intro n hn
    rw [hl.top_height] at hn
    rw [hbranch]
    exact ancestor?_of_lt hl hn
  case composed =>
    intro n a ha m hm
    rw [hbranch] at ha ⊢
    obtain ⟨l', hl', rfl, rfl⟩ := ancestor?_eq_some hl ha
    rw [branch_of_branches (hs.branches_suffix hb hl')]
    exact ancestor?_suffix hl hl' hm
  case stable =>
    intro calls n
    rw [branch_of_branches (ht.extends_run calls id _ hb), hbranch]

/-- The two tips are as high as each other. -/
theorem ancestorLaws_of_grown_on_fork :
    let t := forkTree numberedGenesis (numberedLine untaggedVersion 0x1e0fffff 3) 1
      (numbered untaggedVersion 0x1e0fffff 4)
    t.Grown ∧ 4 < t.size ∧
      (t.branch 3).top.map (·.height) = .ok 3 ∧ (t.branch 4).top.map (·.height) = .ok 3 ∧
      ∃ x, (t.branch 4).top = .ok x ∧ x.id = 4 ∧ t.AncestorLaws 4 x := by
  intro t
  have hhash :
      ((numbered untaggedVersion 0x1e0fffff 4 :: numberedLine untaggedVersion 0x1e0fffff 3 ++
      [numberedGenesis]).map Entry.hash).Nodup := by decide +kernel
  have hgrown : t.Grown := grown_forkTree 1 hhash
  obtain ⟨hfork, hline⟩ := branches_forkTree 1 hhash
  have hid : 4 < t.size := lt_of_branches hfork
  have hb₃ : t.branch 3 = _ := branch_of_branches (hline 0)
  have hb₄ : t.branch 4 = _ := branch_of_branches hfork
  refine ⟨hgrown, hid, ?_, ?_, ancestorLaws_of_grown hgrown hid⟩
  · rw [hb₃]
    rfl
  · rw [hb₄]
    rfl

end BlockTree

end HybridDifficulty
