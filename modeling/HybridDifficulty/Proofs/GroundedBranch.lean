import HybridDifficulty.Branch

/-!
Branches that stand on a genesis block at height zero and climb by one with each block. No walk
along such a branch meets a fault.
-/

namespace HybridDifficulty

/-- The heights of blocks over genesis, newest first: each block is one above the next. -/
inductive Climbs (g : Block) : List Block → Prop
  | genesis : g.height = 0 → Climbs g []
  | step {l : List Block} {x : Block} : Climbs g l → x.height = l.length + 1 → Climbs g (x :: l)

theorem eq_of_suffix_of_length {l l₁ l₂ : List Block} (h₁ : l₁ <:+ l) (h₂ : l₂ <:+ l)
    (h : l₁.length = l₂.length) :
    l₁ = l₂ := (List.suffix_of_suffix_length_le h₁ h₂ (Nat.le_of_eq h)).eq_of_length h

namespace Climbs

variable {g : Block} {l l' : List Block}

theorem root_height (h : Climbs g l) : g.height = 0 := by
  induction h with
  | genesis hg => exact hg
  | step _ _ ih => exact ih

theorem top_height (h : Climbs g l) : (l.headD g).height = l.length := by
  cases h with
  | genesis hg => exact hg
  | step _ hx => exact hx

theorem height_le_of_mem (h : Climbs g l) : ∀ x ∈ l, x.height ≤ l.length := by
  induction h with
  | genesis => exact fun x hx ↦ nomatch hx
  | @step l y _ hy ih =>
    intro x hx
    rw [List.length_cons]
    rcases List.mem_cons.1 hx with rfl | hx
    · exact Nat.le_of_eq hy
    · exact Nat.le_succ_of_le (ih x hx)

theorem pairwise (h : Climbs g l) : l.Pairwise fun x y ↦ y.height < x.height := by
  induction h with
  | genesis => exact .nil
  | @step l y h hy ih =>
    exact .cons (fun x hx ↦ hy ▸ Nat.lt_succ_of_le (h.height_le_of_mem x hx)) ih

theorem suffix (h : Climbs g l) (hs : l' <:+ l) : Climbs g l' := by
  induction h with
  | genesis hg =>
    rw [List.suffix_nil.1 hs]
    exact .genesis hg
  | @step l x h hx ih =>
    rcases List.suffix_cons_iff.1 hs with rfl | hs
    · exact .step h hx
    · exact ih hs

theorem length_lt_height (h : Climbs g (l' ++ l)) {x : Block} (hx : x ∈ l') :
    l.length < x.height := by
  obtain ⟨r, s, rfl⟩ := List.append_of_mem hx
  rw [List.append_assoc, List.cons_append] at h
  have hx := (h.suffix (List.suffix_append r _)).top_height
  simp only [List.headD_cons, List.length_cons, List.length_append] at hx
  omega

theorem height_pos (h : Climbs g l) {x : Block} (hx : x ∈ l) : 0 < x.height :=
  length_lt_height (l := []) (by rwa [List.append_nil]) hx

/-- The first block that is low enough has all heights from its own down below it. -/
theorem dropWhile_height (h : Climbs g l) {n : Nat} (hn : n ≤ l.length) :
    (l.dropWhile fun x ↦ !decide (x.height ≤ n)).length = n := by
  induction h with
  | genesis => exact (Nat.le_zero.1 hn).symm
  | @step l x h hx ih =>
    by_cases hle : l.length + 1 ≤ n
    · have hlen : (x :: l).length = n := by simp only [List.length_cons] at hn ⊢; omega
      rw [List.dropWhile_cons_of_neg (by simp [hx, hle]), hlen]
    · rw [List.dropWhile_cons_of_pos (by simp [hx, hle])]
      exact ih (by omega)

end Climbs

namespace Branch

variable (g : Block) (l : List Block) (p : Block → Bool)

@[simp] theorem unroll_genesis (turns : Nat) : unroll turns ⟨l, .genesis g⟩ = l := rfl

@[simp] theorem filter_genesis : filter p ⟨l, .genesis g⟩ = ⟨l.filter p, .genesis g⟩ := rfl

@[simp] theorem drop_genesis (n : Nat) : drop n ⟨l, .genesis g⟩ = ⟨l.drop n, .genesis g⟩ := rfl

@[simp] theorem descent_genesis (turns : Nat) : descent turns ⟨l, .genesis g⟩ = l ++ [g] := rfl

@[simp] theorem top_genesis : top ⟨l, .genesis g⟩ = .ok (l.headD g) := by cases l <;> rfl

@[simp] theorem seek_genesis : seek p ⟨l, .genesis g⟩ = ⟨l.dropWhile fun x ↦ !p x, .genesis g⟩ := by
  simp only [seek, unroll_genesis]
  split
  · next h => rw [h]; rfl
  · rfl

@[simp] theorem below?_genesis_cons (x : Block) :
    below? ⟨x :: l, .genesis g⟩ = some ⟨l, .genesis g⟩ := rfl

theorem parentId?_genesis_cons (x : Block) :
    parentId? ⟨x :: l, .genesis g⟩ = some (l.headD g).id := by
  cases l <;> rfl

def firstTwo : List Block → Option (Block × Block)
  | x :: y :: _ => some (x, y)
  | _ => none

/-- A walk down to the first match passes nothing that matches. -/
theorem dropWhile_not_cases : (l.dropWhile (fun x ↦ !p x) = [] ∧ l.filter p = []) ∨
    ∃ x r, l.dropWhile (fun x ↦ !p x) = x :: r ∧ p x = true ∧ l.filter p = x :: r.filter p := by
  induction l with
  | nil => exact .inl ⟨rfl, rfl⟩
  | cons x l ih =>
    cases hx : p x with
    | false => simpa [hx] using ih
    | true => exact .inr ⟨x, l, by simp [hx], hx, by simp [hx]⟩

/-- The second walk may end on genesis, which counts for no block even where it matches. -/
@[simp] theorem newestTwo?_genesis :
    newestTwo? p ⟨l, .genesis g⟩ = .ok (firstTwo (l.filter p)) := by
  simp only [newestTwo?, seek_genesis, top_genesis]
  rcases dropWhile_not_cases l p with ⟨hdrop, hfilter⟩ | ⟨x, r, hdrop, -, hfilter⟩
  · rw [hdrop, hfilter]
    rfl
  · rw [hdrop, hfilter]
    simp only [below?_genesis_cons, seek_genesis, top_genesis]
    rcases dropWhile_not_cases r p with ⟨hdrop, hfilter⟩ | ⟨y, s, hdrop, -, hfilter⟩
    · rw [hdrop, hfilter]
      rfl
    · rw [hdrop, hfilter, parentId?_genesis_cons]
      rfl

variable {g l}

theorem exists_cons_cons (h : 2 ≤ l.length) : ∃ x y r, l = x :: y :: r := by
  match l, h with
  | x :: y :: r, _ => exact ⟨x, y, r, rfl⟩

theorem firstTwo_eq_some_iff {x y : Block} : firstTwo l = some (x, y) ↔ ∃ r, l = x :: y :: r := by
  match l with
  | [] | [_] => simp [firstTwo]
  | _ :: _ :: _ => simp [firstTwo]

theorem firstTwo_eq_none_iff : firstTwo l = none ↔ l.length < 2 := by
  match l with
  | [] | [_] => simp [firstTwo]
  | _ :: _ :: _ => simp [firstTwo]

theorem firstTwo_map (f : Block → Block) (l : List Block) :
    firstTwo (l.map f) = (firstTwo l).map (Prod.map f f) := by
  match l with
  | [] | [_] | _ :: _ :: _ => rfl

theorem exists_suffix_of_mem_descent {x : Block} (h : x ∈ l ++ [g]) :
    ∃ l', l' <:+ l ∧ l'.headD g = x := by
  rcases List.mem_append.1 h with h | h
  · obtain ⟨r, s, rfl⟩ := List.append_of_mem h
    exact ⟨x :: s, List.suffix_append r _, rfl⟩
  · rw [List.mem_singleton.1 h]
    exact ⟨[], List.nil_suffix, rfl⟩

theorem ancestor?_genesis (h : Climbs g l) {n : Nat} (hn : n ≤ l.length) :
    ∃ l', l' <:+ l ∧ l'.length = n ∧ ancestor? ⟨l, .genesis g⟩ n = .ok (some (l'.headD g)) := by
  let l' := l.dropWhile fun x ↦ !decide (x.height ≤ n)
  have hs : l' <:+ l := List.dropWhile_suffix _
  have hlen : l'.length = n := h.dropWhile_height hn
  refine ⟨l', hs, hlen, ?_⟩
  have hheight : (l'.headD g).height = n := by rw [(h.suffix hs).top_height, hlen]
  rw [ancestor?, seek_genesis, top_genesis]
  change Except.ok (if (l'.headD g).height = n then some (l'.headD g) else none) = _
  rw [if_pos hheight]

/-- Genesis below, and blocks that climb from it. -/
inductive Grounded : Branch → Prop
  | mk {g : Block} {l : List Block} : Climbs g l → Grounded ⟨l, .genesis g⟩

theorem Grounded.extend {b : Branch} {x y : Block} (h : b.Grounded) (hy : b.top = .ok y)
    (hx : x.height = y.height + 1) : (b.extend x).Grounded := by
  obtain ⟨h⟩ := h
  rw [top_genesis, Except.ok.injEq] at hy
  exact ⟨h.step (by rw [hx, ← hy, h.top_height])⟩

theorem Grounded.exists_top {b : Branch} (h : b.Grounded) : ∃ x, b.top = .ok x := by
  obtain ⟨h⟩ := h
  exact ⟨_, top_genesis _ _⟩

end Branch

end HybridDifficulty
