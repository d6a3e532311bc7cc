import HybridDifficulty.Proofs.TreeGrowth

/-!
Calls that grow a tree. A call adds one block on top of what is there, or it is refused and changes
nothing; after any number of them the ids, the links, the heights, the table of hashes and the place
of genesis agree.
-/

namespace HybridDifficulty.BlockTree

inductive Call
  | plant (e : Entry)
  | insert (parent : BlockId) (e : Entry)

def apply (t : BlockTree) : Call → Except TreeError Block × BlockTree
  | .plant e => t.plant e
  | .insert parent e => t.insert parent e

def run (t : BlockTree) (calls : List Call) : BlockTree := calls.foldl (fun t c ↦ (t.apply c).2) t

/-- How many of the calls succeed, one after another. -/
def accepted : BlockTree → List Call → Nat
  | _, [] => 0
  | t, c :: calls => (if (t.apply c).1.isOk then 1 else 0) + accepted (t.apply c).2 calls

/-- The block that a call adds, and its branch. -/
inductive Admits (t : BlockTree) : Call → Block → Branch → Prop
  | plant {e : Entry} {x : Block} : t.size = 0 → x = { e with id := 0, height := 0 } →
      Admits t (.plant e) x ⟨[], .genesis x⟩
  | insert {parent : BlockId} {e : Entry} {x y : Block} : (t.branch parent).top = .ok y →
      t.idOf? e.hash = none →
      x = { e with id := t.size, height := y.height + 1 } →
      Admits t (.insert parent e) x ((t.branch parent).extend x)

inductive Refuses (t : BlockTree) : Call → TreeError → Prop
  | plant {e : Entry} : 0 < t.size → Refuses t (.plant e) (.secondGenesis 0)
  | insert {parent : BlockId} {e : Entry} {f : TreeError} : t.Rejects parent e f →
      Refuses t (.insert parent e) f

/-- What a call gives and what it leaves behind. -/
inductive Outcome (t : BlockTree) (c : Call) : Except TreeError Block × BlockTree → Prop
  | refused {f : TreeError} : t.Refuses c f → Outcome t c (.error f, t)
  | admitted {x : Block} {b : Branch} {t' : BlockTree} : t.Admits c x b → t'.size = t.size + 1 →
      t'.branch t.size = b → (∀ id < t.size, t'.branch id = t.branch id) → Outcome t c (.ok x, t')

/-- What the parts of a tree say about each other. -/
structure Indexed (t : BlockTree) : Prop where
  held_iff : ∀ id, id < t.size ↔ ∃ x, (t.branch id).top = .ok x
  id_eq : ∀ id x, (t.branch id).top = .ok x → x.id = id
  genesis?_eq : t.genesis? = if t.size = 0 then none else some 0
  height_genesis : ∀ x, (t.branch 0).top = .ok x → x.height = 0
  parentId?_eq_none_iff : ∀ id < t.size, (t.branch id).parentId? = none ↔ id = 0
  /-- A predecessor is older by its id and lower by one, and its branch is what lies below. -/
  linked : ∀ id < t.size, id ≠ 0 → ∃ p x y, (t.branch id).parentId? = some p ∧ p < id ∧
    (t.branch id).top = .ok x ∧ (t.branch p).top = .ok y ∧ x.height = y.height + 1 ∧
    (t.branch id).below? = some (t.branch p)
  idOf?_iff : ∀ h id, t.idOf? h = some id ↔ id < t.size ∧ ∃ x, (t.branch id).top = .ok x ∧
    x.hash = h
  hash_injective : ∀ id id' x x', (t.branch id).top = .ok x → (t.branch id').top = .ok x' →
    x.hash = x'.hash → id = id'

variable {t : BlockTree} {c : Call} {x : Block} {b : Branch}

theorem Admits.outcome (h : t.Admits c x b) (hash : Hash) : Outcome t c (.ok x, t.add b hash) := by
  refine .admitted h (size_add t b hash) (branch_of_branches (branches_add t b hash)) fun id hid ↦
    ?_
  exact branch_of_branches (extends_add t b hash _ _ (branches_of_lt hid))

theorem Sound.outcome_apply (hs : t.Sound) (c : Call) : Outcome t c (t.apply c) := by
  cases c with
  | plant e =>
    rw [apply]
    rcases hs.plant_cases e with ⟨h0, h⟩ | ⟨h0, x, hx, h⟩ <;> rw [h]
    · exact .refused (.plant h0)
    · exact (Admits.plant h0 hx).outcome x.hash
  | insert parent e =>
    rw [apply]
    rcases hs.insert_cases parent e with ⟨f, hf, h⟩ | ⟨hnew, b, y, x, hb, hy, hx, h⟩ <;> rw [h]
    · exact .refused (.insert hf)
    · obtain rfl := branch_of_branches hb
      exact (Admits.insert hy hnew hx).outcome x.hash

theorem Grown.apply (h : t.Grown) (c : Call) : (t.apply c).2.Grown := by
  cases c with
  | plant e => exact h.plant e
  | insert parent e => exact h.insert parent e

theorem Grown.run (h : t.Grown) (calls : List Call) : (t.run calls).Grown := by
  induction calls generalizing t with
  | nil => exact h
  | cons c calls ih => exact ih (h.apply c)

theorem Grown.extends_apply (h : t.Grown) (c : Call) : t.Extends (t.apply c).2 := by
  cases c with
  | plant e => exact h.sound.extends_plant e
  | insert parent e => exact h.sound.extends_insert parent e

theorem Grown.extends_run (h : t.Grown) (calls : List Call) : t.Extends (t.run calls) := by
  induction calls generalizing t with
  | nil => exact .refl t
  | cons c calls ih => exact fun id b hb ↦ ih (h.apply c) id b (h.extends_apply c id b hb)

theorem Grown.size_apply (h : t.Grown) (c : Call) :
    (t.apply c).2.size = t.size + if (t.apply c).1.isOk then 1 else 0 := by
  have ho := h.sound.outcome_apply c
  generalize t.apply c = r at ho
  cases ho with
  | refused => rfl
  | admitted _ hsize => exact hsize

theorem Grown.size_run (h : t.Grown) (calls : List Call) :
    (t.run calls).size = t.size + t.accepted calls := by
  induction calls generalizing t with
  | nil => rfl
  | cons c calls ih =>
    have hrest : (t.run (c :: calls)).size = (t.apply c).2.size + (t.apply c).2.accepted calls :=
      ih (h.apply c)
    rw [hrest, h.size_apply c, accepted, Nat.add_assoc]

theorem Sound.exists_top (hs : t.Sound) {id : BlockId} (h : id < t.size) :
    ∃ x, (t.branch id).top = .ok x ∧ x.id = id := hs.top_id (branches_of_lt h)

theorem lt_of_top {id : BlockId} (h : (t.branch id).top = .ok x) : id < t.size := by
  refine Nat.not_le.1 fun hge ↦ ?_
  rw [branch_of_ge hge] at h
  cases h

theorem Sound.linked (hs : t.Sound) {id : BlockId} (h : id < t.size) (h0 : id ≠ 0) :
    ∃ p x y, (t.branch id).parentId? = some p ∧ p < id ∧ (t.branch id).top = .ok x ∧
      (t.branch p).top = .ok y ∧ x.height = y.height + 1 ∧
      (t.branch id).below? = some (t.branch p) := by
  obtain ⟨g, l, hbranch, hb, hl⟩ := hs.exists_path h
  cases hl with
  | genesis => exact absurd ((hs.blocks_eq_nil_iff hb).1 rfl) h0
  | @step r x hr hx =>
    obtain ⟨p, hp, hpb⟩ := hs.below hb rfl
    refine ⟨p, x, r.headD g, ?_, hp, ?_, ?_, ?_, ?_⟩
    · rw [hbranch, Branch.parentId?_genesis_cons, hs.id_headD hpb]
    · rw [hbranch]
      rfl
    · rw [branch_of_branches hpb, Branch.top_genesis]
    · rw [hx, hr.top_height]
    · rw [hbranch, branch_of_branches hpb]
      rfl

theorem Sound.parentId?_eq_none_iff (hs : t.Sound) {id : BlockId} (h : id < t.size) :
    (t.branch id).parentId? = none ↔ id = 0 := by
  obtain ⟨g, l, hbranch, hb, -⟩ := hs.exists_path h
  rw [← hs.blocks_eq_nil_iff hb, hbranch]
  cases l with
  | nil => exact iff_of_true rfl rfl
  | cons y r =>
    rw [Branch.parentId?_genesis_cons]
    exact iff_of_false (Option.some_ne_none _) (List.cons_ne_nil y r)

theorem Sound.height_genesis (hs : t.Sound) (h : (t.branch 0).top = .ok x) : x.height = 0 := by
  obtain ⟨g, l, hbranch, hb, hl⟩ := hs.exists_path (lt_of_top h)
  obtain rfl : l = [] := (hs.blocks_eq_nil_iff hb).2 rfl
  rw [hbranch, Branch.top_genesis, Except.ok.injEq] at h
  rw [← h]
  exact hl.root_height

theorem Sound.lookup_iff (hs : t.Sound) (h : Hash) (id : BlockId) :
    t.idOf? h = some id ↔ id < t.size ∧ ∃ x, (t.branch id).top = .ok x ∧ x.hash = h := by
  rw [hs.idOf?_iff]
  constructor
  · rintro ⟨b, x, hb, hx⟩
    rw [branch_of_branches hb]
    exact ⟨lt_of_branches hb, x, hx⟩
  · rintro ⟨hlt, x, hx⟩
    exact ⟨_, x, branches_of_lt hlt, hx⟩

theorem Sound.indexed (hs : t.Sound) : t.Indexed where
  held_iff id := by
    constructor
    · intro h
      obtain ⟨x, hx, -⟩ := hs.exists_top h
      exact ⟨x, hx⟩
    · rintro ⟨x, hx⟩
      exact lt_of_top hx
  id_eq id x hx := by
    obtain ⟨y, hy, hid⟩ := hs.exists_top (lt_of_top hx)
    rw [hx, Except.ok.injEq] at hy
    rw [hy, hid]
  genesis?_eq := by
    split
    · next h => exact hs.genesis?_none.2 h
    · next h => exact hs.genesis?_of_lt (Nat.pos_of_ne_zero h)
  height_genesis x hx := hs.height_genesis hx
  parentId?_eq_none_iff id h := hs.parentId?_eq_none_iff h
  linked id h h0 := hs.linked h h0
  idOf?_iff := hs.lookup_iff
  hash_injective id id' x x' hx hx' hh := by
    have hi := (hs.lookup_iff x.hash id).2 ⟨lt_of_top hx, x, hx, rfl⟩
    have hi' := (hs.lookup_iff x.hash id').2 ⟨lt_of_top hx', x', hx', hh.symm⟩
    exact Option.some.inj (hi.symm.trans hi')

/-- After any calls on the empty tree its parts agree, it has one block for each call that
succeeded, and the next call is refused without a trace or adds its block and nothing else. -/
theorem indexed_run (calls : List Call) (c : Call) :
    let t := run {} calls
    t.Indexed ∧ t.size = accepted {} calls ∧ Outcome t c (t.apply c) := by
  intro t
  have hgrown : t.Grown := Grown.empty.run calls
  refine ⟨hgrown.sound.indexed, ?_, hgrown.sound.outcome_apply c⟩
  have hsize := Grown.empty.size_run calls
  have hempty : size {} = 0 := rfl
  rwa [hempty, Nat.zero_add] at hsize

end HybridDifficulty.BlockTree
