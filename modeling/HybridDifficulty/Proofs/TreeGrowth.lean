import HybridDifficulty.BlockTree
import HybridDifficulty.Proofs.GroundedBranch

/-!
What holds of every tree that grows from the empty one: each branch stands on genesis, each part of
a branch is a branch of the tree, and hashes name blocks.
-/

namespace HybridDifficulty.BlockTree

variable {t t' : BlockTree} {id : BlockId} {b : Branch} {x : Block}

/-- Calls that fail count as well. -/
inductive Grown : BlockTree → Prop
  | empty : Grown {}
  | plant {t : BlockTree} (e : Entry) : Grown t → Grown (t.plant e).2
  | insert {t : BlockTree} (parent : BlockId) (e : Entry) : Grown t → Grown (t.insert parent e).2

/-- Branches that are there stay there. -/
def Extends (t t' : BlockTree) : Prop :=
  ∀ (id : BlockId) (b : Branch), t.branches[id]? = some b → t'.branches[id]? = some b

theorem Extends.refl (t : BlockTree) : t.Extends t := fun _ _ h ↦ h

theorem branches_of_lt (h : id < t.size) : t.branches[id]? = some (t.branch id) := by
  rw [branch, Array.getElem?_eq_getElem h]
  rfl

theorem branch_of_branches (h : t.branches[id]? = some b) : t.branch id = b := by
  rw [branch, h]; rfl

theorem lt_of_branches (h : t.branches[id]? = some b) : id < t.size :=
  (Array.getElem?_eq_some_iff.1 h).1

theorem branch_of_ge (h : t.size ≤ id) : t.branch id = .missing id := by
  rw [branch, Array.getElem?_eq_none h]
  rfl

/-- What the array of branches, the table of hashes and the place of genesis say about each
other. -/
structure Sound (t : BlockTree) : Prop where
  grounded : ∀ {id : BlockId} {b : Branch}, t.branches[id]? = some b → b.Grounded
  top_id : ∀ {id : BlockId} {b : Branch}, t.branches[id]? = some b → ∃ x, b.top = .ok x ∧ x.id = id
  below : ∀ {id : BlockId} {b b' : Branch}, t.branches[id]? = some b → b.below? = some b' →
    ∃ p < id, t.branches[p]? = some b'
  idOf?_iff : ∀ {h : Hash} {id : BlockId}, t.idOf? h = some id ↔
    ∃ b x, t.branches[id]? = some b ∧ b.top = .ok x ∧ x.hash = h
  genesis?_eq : t.genesis? = t.branches[0]?.map fun _ ↦ 0
  blocks_eq_nil_iff : ∀ {id : BlockId} {b : Branch}, t.branches[id]? = some b →
    (b.blocks = [] ↔ id = 0)

theorem sound_empty : Sound {} where
  grounded h := by simp at h
  top_id h := by simp at h
  below h := by simp at h
  idOf?_iff := by simp [idOf?]
  genesis?_eq := by simp
  blocks_eq_nil_iff h := by simp at h

/-- The tree with one more branch, whose newest block has the hash. -/
def add (t : BlockTree) (b : Branch) (h : Hash) : BlockTree where
  branches := t.branches.push b
  ids := t.ids.insert h t.size
  genesis? := some 0

theorem branches_push {b' : Branch} :
    (t.branches.push b)[id]? = some b' ↔ id = t.size ∧ b = b' ∨ t.branches[id]? = some b' := by
  rw [Array.getElem?_push]
  by_cases hid : id = t.size
  · subst hid
    simp [size]
  · have hne : id ≠ t.branches.size := hid
    simp [hne, hid]

theorem extends_add (t : BlockTree) (b : Branch) (h : Hash) : t.Extends (t.add b h) :=
  fun _ _ hb ↦ branches_push.2 (.inr hb)

theorem size_add (t : BlockTree) (b : Branch) (h : Hash) : (t.add b h).size = t.size + 1 :=
  Array.size_push _

theorem branches_add (t : BlockTree) (b : Branch) (h : Hash) :
    (t.add b h).branches[t.size]? = some b :=
  branches_push.2 (.inl ⟨rfl, rfl⟩)

theorem idOf?_add {h h' : Hash} :
    (t.add b h).idOf? h' = if h = h' then some t.size else t.idOf? h' := by
  simp only [idOf?, add, Std.HashMap.getElem?_insert, beq_iff_eq]

/-- A branch may be added whose block is new and stands on a branch of the tree. -/
theorem Sound.add (hs : t.Sound) (hb : b.Grounded) (htop : b.top = .ok x) (hid : x.id = t.size)
    (hnew : t.idOf? x.hash = none)
    (hbelow : ∀ b', b.below? = some b' → ∃ p < t.size, t.branches[p]? = some b')
    (hnil : b.blocks = [] ↔ t.size = 0) : (t.add b x.hash).Sound where
  grounded h := by
    rcases branches_push.1 h with ⟨-, rfl⟩ | h
    · exact hb
    · exact hs.grounded h
  top_id h := by
    rcases branches_push.1 h with ⟨rfl, rfl⟩ | h
    · exact ⟨x, htop, hid⟩
    · exact hs.top_id h
  below h hbel := by
    rcases branches_push.1 h with ⟨rfl, rfl⟩ | h
    · obtain ⟨p, hp, hpb⟩ := hbelow _ hbel
      exact ⟨p, hp, branches_push.2 (.inr hpb)⟩
    · obtain ⟨p, hp, hpb⟩ := hs.below h hbel
      exact ⟨p, hp, branches_push.2 (.inr hpb)⟩
  idOf?_iff {h id} := by
    rw [idOf?_add]
    by_cases hh : x.hash = h
    · subst hh
      rw [if_pos rfl]
      constructor
      · intro hi
        exact ⟨b, x, branches_push.2 (.inl ⟨(Option.some.inj hi).symm, rfl⟩), htop, rfl⟩
      · rintro ⟨b', y, hb', hy, hyx⟩
        rcases branches_push.1 hb' with ⟨rfl, -⟩ | hb'
        · rfl
        · rw [hs.idOf?_iff.2 ⟨b', y, hb', hy, hyx⟩] at hnew
          cases hnew
    · rw [if_neg hh, hs.idOf?_iff]
      constructor
      · rintro ⟨b', y, hb', hy⟩
        exact ⟨b', y, branches_push.2 (.inr hb'), hy⟩
      · rintro ⟨b', y, hb', hy, hyh⟩
        rcases branches_push.1 hb' with ⟨-, rfl⟩ | hb'
        · rw [htop, Except.ok.injEq] at hy
          exact absurd (hy ▸ hyh) hh
        · exact ⟨b', y, hb', hy, hyh⟩
  genesis?_eq := by
    have h : ∃ b', (t.branches.push b)[0]? = some b' := by
      by_cases h0 : t.size = 0
      · exact ⟨b, branches_push.2 (.inl ⟨h0.symm, rfl⟩)⟩
      · exact ⟨_, branches_push.2 (.inr (branches_of_lt (Nat.pos_of_ne_zero h0)))⟩
    obtain ⟨b', h⟩ := h
    simp only [BlockTree.add, h, Option.map_some]
  blocks_eq_nil_iff h := by
    rcases branches_push.1 h with ⟨rfl, rfl⟩ | h
    · exact hnil
    · exact hs.blocks_eq_nil_iff h

theorem Sound.genesis?_none (hs : t.Sound) : t.genesis? = none ↔ t.size = 0 := by
  rw [hs.genesis?_eq, Option.map_eq_none_iff, Array.getElem?_eq_none_iff, Nat.le_zero]
  rfl

theorem Sound.genesis?_of_lt (hs : t.Sound) (h : id < t.size) : t.genesis? = some 0 := by
  rw [hs.genesis?_eq, branches_of_lt (Nat.zero_lt_of_lt h)]
  rfl

theorem idOf?_empty (h : Hash) : idOf? {} h = none := Std.HashMap.getElem?_empty

theorem plant_empty (e : Entry) :
    let x : Block := { e with id := 0, height := 0 }
    ({} : BlockTree).plant e = (.ok x, add {} ⟨[], .genesis x⟩ x.hash) := by
  simp only [BlockTree.plant, push, idOf?_empty]
  rfl

theorem Sound.idOf?_of_size_eq_zero (hs : t.Sound) (h0 : t.size = 0) (h : Hash) :
    t.idOf? h = none := by
  cases hid : t.idOf? h with
  | none => rfl
  | some id =>
    obtain ⟨b, x, hb, -⟩ := hs.idOf?_iff.1 hid
    exact absurd (lt_of_branches hb) (h0 ▸ Nat.not_lt_zero id)

theorem Sound.plant_cases (hs : t.Sound) (e : Entry) :
    (0 < t.size ∧ t.plant e = (.error (.secondGenesis 0), t)) ∨
    (t.size = 0 ∧ ∃ x : Block, x = { e with id := 0, height := 0 } ∧
      t.plant e = (.ok x, t.add ⟨[], .genesis x⟩ x.hash)) := by
  rcases Nat.eq_zero_or_pos t.size with h0 | h0
  · have hg := hs.genesis?_none.2 h0
    have hnew := hs.idOf?_of_size_eq_zero h0 e.hash
    exact .inr ⟨h0, _, rfl, by simp only [BlockTree.plant, hg, push, hnew, h0, BlockTree.add]⟩
  · exact .inl ⟨h0, by simp only [BlockTree.plant, hs.genesis?_of_lt h0]⟩

/-- A block with a new hash joins on top of one that is there. -/
theorem Sound.insert_eq (hs : t.Sound) {parent : BlockId} {e : Entry} {y : Block}
    (hb : t.branches[parent]? = some b) (hy : b.top = .ok y) (hnew : t.idOf? e.hash = none) :
    let x : Block := { e with id := t.size, height := y.height + 1 }
    t.insert parent e = (.ok x, t.add (b.extend x) x.hash) := by
  have hg := hs.genesis?_of_lt (lt_of_branches hb)
  simp only [BlockTree.insert, branch_of_branches hb, hy, push, hnew, hg]
  rfl

/-- Why a block does not join: its parent is not there, or if it is, the hash is. -/
inductive Rejects (t : BlockTree) (parent : BlockId) (e : Entry) : TreeError → Prop
  | noParent : t.size ≤ parent → Rejects t parent e (.noParent parent)
  | knownHash {existing : BlockId} : parent < t.size → t.idOf? e.hash = some existing →
      Rejects t parent e (.knownHash e.hash existing)

theorem Sound.insert_cases (hs : t.Sound) (parent : BlockId) (e : Entry) :
    (∃ f, t.Rejects parent e f ∧ t.insert parent e = (.error f, t)) ∨
    (t.idOf? e.hash = none ∧ ∃ b y x, t.branches[parent]? = some b ∧ b.top = .ok y ∧
      x = ({ e with id := t.size, height := y.height + 1 } : Block) ∧
      t.insert parent e = (.ok x, t.add (b.extend x) x.hash)) := by
  by_cases hlt : parent < t.size
  · have hb := branches_of_lt hlt
    obtain ⟨y, hy, -⟩ := hs.top_id hb
    cases hnew : t.idOf? e.hash with
    | some i => exact .inl ⟨_, .knownHash hlt hnew, by simp only [BlockTree.insert, hy, push, hnew]⟩
    | none => exact .inr ⟨rfl, _, y, _, hb, hy, rfl, hs.insert_eq hb hy hnew⟩
  · have hge := Nat.le_of_not_lt hlt
    exact .inl ⟨_, .noParent hge, by rw [BlockTree.insert, branch_of_ge hge]; rfl⟩

theorem branches_plant_empty {e : Entry} (h : (({} : BlockTree).plant e).2.branches[id]? = some b) :
    b = ⟨[], .genesis { e with id := 0, height := 0 }⟩ := by
  rw [plant_empty] at h
  rcases branches_push.1 h with ⟨-, rfl⟩ | h
  · rfl
  · cases h

/-- A branch of a tree that has tried to take in a block was there before, or is the new block on
its parent's branch. -/
theorem Sound.branches_insert (hs : t.Sound) {parent : BlockId} {e : Entry}
    (h : (t.insert parent e).2.branches[id]? = some b) :
    t.branches[id]? = some b ∨ ∃ below y, t.branches[parent]? = some below ∧ below.top = .ok y ∧
      b = below.extend { e with id := t.size, height := y.height + 1 } := by
  rcases hs.insert_cases parent e with ⟨f, -, hi⟩ | ⟨-, below, y, x, hbelow, hy, hx, hi⟩ <;>
    rw [hi] at h
  · exact .inl h
  · rcases branches_push.1 h with ⟨-, rfl⟩ | h
    · exact .inr ⟨below, y, hbelow, hy, by rw [hx]⟩
    · exact .inl h

theorem Sound.plant (hs : t.Sound) (e : Entry) : (t.plant e).2.Sound := by
  rcases hs.plant_cases e with ⟨-, h⟩ | ⟨h0, x, hx, h⟩ <;> rw [h]
  · exact hs
  · have hg : Branch.Grounded ⟨[], .genesis x⟩ := ⟨.genesis (by rw [hx])⟩
    have hbelow : ∀ b', Branch.below? ⟨[], .genesis x⟩ = some b' →
        ∃ p < t.size, t.branches[p]? = some b' := by
      intro b' hb'
      cases hb'
    exact hs.add hg rfl (by rw [hx, h0]) (hs.idOf?_of_size_eq_zero h0 x.hash) hbelow
      ⟨fun _ ↦ h0, fun _ ↦ rfl⟩

theorem Sound.insert (hs : t.Sound) (parent : BlockId) (e : Entry) :
    (t.insert parent e).2.Sound := by
  rcases hs.insert_cases parent e with ⟨f, -, h⟩ | ⟨hnew, b, y, x, hb, hy, hx, h⟩ <;> rw [h]
  · exact hs
  · have hlt := lt_of_branches hb
    have hg : (b.extend x).Grounded := (hs.grounded hb).extend hy (by rw [hx])
    have hbelow : ∀ b', (b.extend x).below? = some b' → ∃ p < t.size, t.branches[p]? = some b' := by
      intro b' hb'
      obtain ⟨hc⟩ := hs.grounded hb
      rw [Branch.extend, Branch.below?_genesis_cons, Option.some.injEq] at hb'
      exact ⟨parent, hlt, hb' ▸ hb⟩
    have hnil : (b.extend x).blocks = [] ↔ t.size = 0 :=
      ⟨fun h ↦ absurd h (List.cons_ne_nil _ _), fun h ↦ absurd hlt (h ▸ Nat.not_lt_zero parent)⟩
    exact hs.add hg rfl (by rw [hx]) (by rw [hx]; exact hnew) hbelow hnil

theorem Grown.sound (h : t.Grown) : t.Sound := by
  induction h with
  | empty => exact sound_empty
  | plant e _ ih => exact ih.plant e
  | insert parent e _ ih => exact ih.insert parent e

theorem Sound.exists_path (hs : t.Sound) (h : id < t.size) :
    ∃ g l, t.branch id = ⟨l, .genesis g⟩ ∧ t.branches[id]? = some ⟨l, .genesis g⟩ ∧ Climbs g l := by
  have hb := branches_of_lt h
  have hgrounded := hs.grounded hb
  generalize t.branch id = b at *
  obtain @⟨g, l, hl⟩ := hgrounded
  exact ⟨g, l, rfl, hb, hl⟩

theorem Grown.grounded_tip (h : t.Grown) {tip? : Option BlockId} (hid : ∀ id ∈ tip?, id < t.size) :
    ∀ b ∈ tip?.map t.branch, b.Grounded := by
  intro b hb
  obtain ⟨id, rfl, rfl⟩ := Option.map_eq_some_iff.1 hb
  exact h.sound.grounded (branches_of_lt (hid id rfl))

theorem Sound.extends_plant (hs : t.Sound) (e : Entry) : t.Extends (t.plant e).2 := by
  rcases hs.plant_cases e with ⟨-, h⟩ | ⟨-, x, -, h⟩ <;> rw [h]
  · exact .refl t
  · exact extends_add t _ _

theorem Sound.extends_insert (hs : t.Sound) (parent : BlockId) (e : Entry) :
    t.Extends (t.insert parent e).2 := by
  rcases hs.insert_cases parent e with ⟨f, -, h⟩ | ⟨-, b, y, x, -, -, -, h⟩ <;> rw [h]
  · exact .refl t
  · exact extends_add t _ _

theorem Sound.id_headD (hs : t.Sound) {g : Block} {l : List Block}
    (h : t.branches[id]? = some ⟨l, .genesis g⟩) :
    (l.headD g).id = id := by
  obtain ⟨x, hx, hid⟩ := hs.top_id h
  rw [Branch.top_genesis, Except.ok.injEq] at hx
  rw [hx, hid]

/-- Each part of a branch is a branch. -/
theorem Sound.suffix (hs : t.Sound) {g : Block} {l l' : List Block}
    (h : t.branches[id]? = some ⟨l, .genesis g⟩) (hl : l' <:+ l) :
    ∃ id' : BlockId, t.branches[id']? = some ⟨l', .genesis g⟩ := by
  induction l generalizing id with
  | nil => exact ⟨id, by rw [List.suffix_nil.1 hl, h]⟩
  | cons x l ih =>
    rcases List.suffix_cons_iff.1 hl with rfl | hl
    · exact ⟨id, h⟩
    · obtain ⟨p, -, hp⟩ := hs.below h rfl
      exact ih hp hl

theorem Sound.branches_suffix (hs : t.Sound) {g : Block} {l l' : List Block}
    (h : t.branches[id]? = some ⟨l, .genesis g⟩) (hl : l' <:+ l) :
    t.branches[(l'.headD g).id]? = some ⟨l', .genesis g⟩ := by
  obtain ⟨id', hb⟩ := hs.suffix h hl
  rwa [hs.id_headD hb]

/-- The first block is the second one, or the links from the second one lead to it. -/
inductive Ancestor (t : BlockTree) (id : BlockId) : BlockId → Prop
  | refl : Ancestor t id id
  | step {child parent : BlockId} : (t.branch child).parentId? = some parent →
      Ancestor t id parent →
      Ancestor t id child

theorem Ancestor.exists_suffix (hs : t.Sound) {id' : BlockId} {g : Block} {l : List Block}
    (h : t.Ancestor id id') (hb : t.branches[id']? = some ⟨l, .genesis g⟩) :
    ∃ l', l' <:+ l ∧ t.branches[id]? = some ⟨l', .genesis g⟩ := by
  induction h generalizing l with
  | refl => exact ⟨l, List.suffix_rfl, hb⟩
  | @step child parent hp _ ih =>
    rw [branch_of_branches hb] at hp
    cases l with
    | nil => cases hp
    | cons x r =>
      rw [Branch.parentId?_genesis_cons] at hp
      have hr := hs.branches_suffix hb (List.suffix_cons x r)
      rw [Option.some.inj hp] at hr
      obtain ⟨l', hl', hb'⟩ := ih hr
      exact ⟨l', hl'.trans (List.suffix_cons x r), hb'⟩

/-- A hash stands for one block and so for one branch. -/
theorem Sound.eq_of_hash (hs : t.Sound) {id' : BlockId} {b' : Branch} {x' : Block}
    (h : t.branches[id]? = some b) (h' : t.branches[id']? = some b') (hx : b.top = .ok x)
    (hx' : b'.top = .ok x') (hh : x.hash = x'.hash) :
    b = b' := by
  have hi := hs.idOf?_iff.2 ⟨b, x, h, hx, rfl⟩
  have hi' := hs.idOf?_iff.2 ⟨b', x', h', hx', hh.symm⟩
  have hid : id = id' := Option.some.inj (hi.symm.trans hi')
  exact Option.some.inj (h.symm.trans (hid ▸ h'))

/-- The tree is a single branch whose blocks have these hashes, newest first. -/
structure Line (t : BlockTree) (b : Branch) (hashes : List Hash) : Prop where
  grown : t.Grown
  size_eq : t.size = hashes.length
  tip : t.branches[hashes.length - 1]? = some b
  idOf?_eq : ∀ h ∉ hashes, t.idOf? h = none

theorem line_plant (e : Entry) :
    Line (({} : BlockTree).plant e).2 ⟨[], .genesis { e with id := 0, height := 0 }⟩ [e.hash] where
  grown := .plant e .empty
  size_eq := by rw [plant_empty, size_add]; rfl
  tip := by rw [plant_empty]; exact branches_add _ _ _
  idOf?_eq h hh := by
    have hne : e.hash ≠ h := fun he ↦ hh (he ▸ List.mem_singleton_self _)
    rw [plant_empty]
    exact idOf?_add.trans ((if_neg hne).trans (idOf?_empty h))

theorem Line.insert {h : Hash} {hashes : List Hash} {e : Entry} {y : Block}
    (hl : t.Line b (h :: hashes)) (hy : b.top = .ok y) (he : e.hash ∉ h :: hashes) :
    Line (t.insert hashes.length e).2
      (b.extend { e with id := hashes.length + 1, height := y.height + 1 })
      (e.hash :: h :: hashes) := by
  let x : Block := { e with id := hashes.length + 1, height := y.height + 1 }
  have hi : t.insert hashes.length e = (.ok x, t.add (b.extend x) e.hash) := by
    have hi := hl.grown.sound.insert_eq hl.tip hy (hl.idOf?_eq _ he)
    rw [hl.size_eq] at hi
    exact hi
  refine ⟨.insert _ _ hl.grown, ?_, ?_, fun h' hh' ↦ ?_⟩ <;> rw [hi]
  · exact (size_add _ _ _).trans (congrArg (· + 1) hl.size_eq)
  · have htip := branches_add t (b.extend x) e.hash
    rwa [hl.size_eq] at htip
  · have hne : e.hash ≠ h' := fun heq ↦ hh' (heq ▸ List.mem_cons_self)
    have hmem : h' ∉ h :: hashes := fun hmem ↦ hh' (List.mem_cons_of_mem _ hmem)
    exact idOf?_add.trans ((if_neg hne).trans (hl.idOf?_eq h' hmem))

/-- Blocks over genesis, newest first, each with its place in a line. -/
def lineBlocks : List Entry → List Block
  | [] => []
  | e :: es => { e with id := es.length + 1, height := es.length + 1 } :: lineBlocks es

/-- The tree in which each entry, newest first, joins on the one below it. -/
def lineTree (g : Entry) : List Entry → BlockTree
  | [] => (({} : BlockTree).plant g).2
  | e :: es => ((lineTree g es).insert es.length e).2

def lineBranch (g : Entry) (es : List Entry) : Branch :=
  ⟨lineBlocks es, .genesis { g with id := 0, height := 0 }⟩

theorem headD_lineBlocks_id (g : Entry) (es : List Entry) :
    ((lineBlocks es).headD { g with id := 0, height := 0 }).id = es.length := by
  cases es <;> rfl

theorem top_lineBranch (g : Entry) (es : List Entry) :
    ∃ y, (lineBranch g es).top = .ok y ∧ y.height = es.length := by
  cases es <;> exact ⟨_, rfl, rfl⟩

theorem line_lineTree (g : Entry) (es : List Entry) (h : ((es ++ [g]).map Entry.hash).Nodup) :
    (lineTree g es).Line (lineBranch g es) ((es ++ [g]).map Entry.hash) := by
  induction es with
  | nil => exact line_plant g
  | cons e es ih =>
    rw [List.cons_append, List.map_cons, List.nodup_cons] at h
    obtain ⟨he, hes⟩ := h
    obtain ⟨y, hy, hheight⟩ := top_lineBranch g es
    have hl := ih hes
    have hlen : ((es ++ [g]).map Entry.hash).length = es.length + 1 := by simp
    cases hhashes : (es ++ [g]).map Entry.hash with
    | nil => simp [hhashes] at hlen
    | cons h hs =>
      rw [hhashes] at hl he hlen
      have hn : hs.length = es.length := Nat.succ.inj hlen
      have hi := hl.insert hy he
      rw [hn, hheight] at hi
      rw [List.cons_append, List.map_cons, hhashes]
      exact hi

theorem lineBlocks_drop (es : List Entry) (n : Nat) :
    lineBlocks (es.drop n) = (lineBlocks es).drop n := by
  induction es generalizing n with
  | nil => rw [List.drop_nil, lineBlocks, List.drop_nil]
  | cons e es ih =>
    cases n with
    | zero => rfl
    | succ n => exact ih n

theorem size_lineTree {g : Entry} {es : List Entry} (h : ((es ++ [g]).map Entry.hash).Nodup) :
    (lineTree g es).size = es.length + 1 := by
  rw [(line_lineTree g es h).size_eq, List.length_map, List.length_append, List.length_singleton]

theorem branch_lineTree {g : Entry} {es : List Entry} (h : ((es ++ [g]).map Entry.hash).Nodup)
    (n : Nat) :
    (lineTree g es).branches[es.length - n]? = some (lineBranch g (es.drop n)) := by
  have hl := line_lineTree g es h
  have hs : lineBlocks (es.drop n) <:+ lineBlocks es := lineBlocks_drop es n ▸ List.drop_suffix n _
  have hb := hl.grown.sound.branches_suffix hl.tip hs
  rwa [headD_lineBlocks_id, List.length_drop] at hb

/-- Two lines as long as each other differ in their branches as they do from each block down. -/
theorem branch_lineTree_map {g g' : Entry} {es es' : List Entry}
    (h : ((es ++ [g]).map Entry.hash).Nodup) (h' : ((es' ++ [g']).map Entry.hash).Nodup)
    (hlen : es'.length = es.length) {f : Branch → Branch}
    (hmissing : ∀ i, f (.missing i) = .missing i)
    (hline : ∀ n, lineBranch g' (es'.drop n) = f (lineBranch g (es.drop n))) (i : BlockId) :
    (lineTree g' es').branch i = f ((lineTree g es).branch i) := by
  rcases Nat.lt_or_ge i (es.length + 1) with hi | hi
  · have hb := branch_of_branches (branch_lineTree h (es.length - i))
    have hb' := branch_of_branches (branch_lineTree h' (es.length - i))
    rw [Nat.sub_sub_self (Nat.le_of_lt_succ hi)] at hb
    rw [hlen, Nat.sub_sub_self (Nat.le_of_lt_succ hi)] at hb'
    rw [hb, hb', hline]
  · rw [branch_of_ge (size_lineTree h' ▸ hlen ▸ hi), branch_of_ge (size_lineTree h ▸ hi), hmissing]

/-- The tree of a line with one more block, which stands so many blocks below the tip. -/
def forkTree (g : Entry) (es : List Entry) (n : Nat) (e : Entry) : BlockTree :=
  ((lineTree g es).insert (es.length - n) e).2

theorem forkTree_eq {g : Entry} {es : List Entry} {e : Entry} (n : Nat)
    (h : ((e :: es ++ [g]).map Entry.hash).Nodup) :
    forkTree g es n e = (lineTree g es).add
      ((lineBranch g (es.drop n)).extend
        { e with id := es.length + 1, height := (es.drop n).length + 1 }) e.hash := by
  rw [List.cons_append, List.map_cons, List.nodup_cons] at h
  have hl := line_lineTree g es h.2
  obtain ⟨y, hy, hheight⟩ := top_lineBranch g (es.drop n)
  have hi := hl.grown.sound.insert_eq (branch_lineTree h.2 n) hy (hl.idOf?_eq _ h.1)
  rw [size_lineTree h.2, hheight] at hi
  rw [forkTree, hi]

theorem grown_forkTree {g : Entry} {es : List Entry} {e : Entry} (n : Nat)
    (h : ((e :: es ++ [g]).map Entry.hash).Nodup) : (forkTree g es n e).Grown := by
  rw [List.cons_append, List.map_cons, List.nodup_cons] at h
  exact .insert _ e (line_lineTree g es h.2).grown

theorem branches_forkTree {g : Entry} {es : List Entry} {e : Entry} (n : Nat)
    (h : ((e :: es ++ [g]).map Entry.hash).Nodup) :
    (forkTree g es n e).branches[es.length + 1]? = some
      ((lineBranch g (es.drop n)).extend
        { e with id := es.length + 1, height := (es.drop n).length + 1 }) ∧
    ∀ k, (forkTree g es n e).branches[es.length - k]? = some (lineBranch g (es.drop k)) := by
  have hline := (List.nodup_cons.1 h).2
  rw [forkTree_eq n h]
  refine ⟨?_, fun k ↦ extends_add _ _ _ _ _ (branch_lineTree hline k)⟩
  have hb := branches_add (lineTree g es)
    ((lineBranch g (es.drop n)).extend
      { e with id := es.length + 1, height := (es.drop n).length + 1 }) e.hash
  rwa [size_lineTree hline] at hb

def numbered (version : Int32) (bits : UInt32) (n : UInt8) : Entry where
  hash := ⟨.replicate 32 n⟩
  time := 600 * n.toNat
  bits := bits
  version := version
  stake := false

/-- A genesis block without a tag. -/
def numberedGenesis : Entry := numbered untaggedVersion 0x1e0fffff 0

def numberedLine (version : Int32) (bits : UInt32) : Nat → List Entry
  | 0 => []
  | n + 1 => numbered version bits (.ofNat (n + 1)) :: numberedLine version bits n

def threeBlocks (version : Int32) (bits : UInt32) : BlockTree :=
  let t := (({} : BlockTree).plant (numbered version bits 0)).2
  ((t.insert 0 (numbered version bits 1)).2.insert 1 (numbered version bits 2)).2

def numberedBlock (version : Int32) (bits : UInt32) (n : UInt8) : Block :=
  { numbered version bits n with id := n.toNat, height := n.toNat }

theorem line_threeBlocks (version : Int32) (bits : UInt32) :
    (threeBlocks version bits).Line
      ⟨[numberedBlock version bits 2, numberedBlock version bits 1],
        .genesis (numberedBlock version bits 0)⟩
      [⟨.replicate 32 2⟩, ⟨.replicate 32 1⟩, ⟨.replicate 32 0⟩] := by
  have h₁ : (numbered version bits 1).hash ∉ [(numbered version bits 0).hash] := by
    change (⟨.replicate 32 1⟩ : Hash) ∉ [(⟨.replicate 32 0⟩ : Hash)]
    decide
  have h₂ : (numbered version bits 2).hash ∉
      [(numbered version bits 1).hash, (numbered version bits 0).hash] := by
    change (⟨.replicate 32 2⟩ : Hash) ∉ [(⟨.replicate 32 1⟩ : Hash), (⟨.replicate 32 0⟩ : Hash)]
    decide
  exact ((line_plant _).insert rfl h₁).insert rfl h₂

theorem branch_threeBlocks (version : Int32) (bits : UInt32) :
    (threeBlocks version bits).branch 2 =
      ⟨[numberedBlock version bits 2, numberedBlock version bits 1],
        .genesis (numberedBlock version bits 0)⟩ :=
  branch_of_branches (line_threeBlocks version bits).tip

end HybridDifficulty.BlockTree
