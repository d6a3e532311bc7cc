import HybridDifficulty.Proofs.CeilingBound
import HybridDifficulty.Proofs.MinDifficultyRule
import HybridDifficulty.Proofs.TreeGrowth
import HybridDifficulty.Rules.Presets

/-!
Trees whose blocks carry the bits that were required of them. Bits of older blocks are handed out
again, so that the ceilings hold on such a tree as a whole or not at all.
-/

namespace HybridDifficulty

open Branch CompactForm

/-- Trees that grow from a genesis block by blocks that have the bits required of them, whatever
memo was asked. -/
inductive Mined (rules : Rules) : BlockTree → Prop
  | plant (e : Entry) : Mined rules (({} : BlockTree).plant e).2
  | mine {t : BlockTree} {id : BlockId} {c : Candidate} {m m' : AverageMemo} {r : Requirement}
      (hash : Hash) (stake : Bool) :
      Mined rules t → id < t.size → rules.admits c.algorithm? →
      requirement rules c m (some (t.branch id)) = .ok (r, m') →
      Mined rules (t.insert id
        { hash, time := c.time, bits := r.bits, version := c.version, stake }).2

/-- Rules that can be run with, that retarget, whose open ceilings the compact form has, and whose
targets fixed by hand keep to the ceiling of stake. -/
structure Rules.Exact (rules : Rules) : Prop where
  fault?_eq : rules.fault? = none
  retargets : rules.atCeiling = false
  two_le : ∀ a, (rules.ceilings.get a).1 ≠ 0 → 2 ≤ (rules.ceilings.get a).1
  target_encode : ∀ a, (rules.ceilings.get a).1 ≠ 0 →
    target (encode (rules.ceilings.get a)) = (rules.ceilings.get a).1
  fixed : ∀ o ∈ rules.fixedTargets, Within (rules.ceilings.get .stake) o.bits

theorem Rules.exact_ofNetwork {n : Network} (h : n ≠ .regtest) : (ofNetwork n).Exact := by
  have hceiling : ∀ a, ((ofNetwork n).ceilings.get a).1 ≠ 0 → 2 ≤ ((ofNetwork n).ceilings.get a).1 ∧
      target (encode ((ofNetwork n).ceilings.get a)) = ((ofNetwork n).ceilings.get a).1 := by
    intro a
    cases n <;> cases a <;> decide +kernel
  refine ⟨?_, ?_, fun a ha ↦ (hceiling a ha).1, fun a ha ↦ (hceiling a ha).2, ?_⟩
  · exact fault?_ofNetwork n
  · cases n with
    | regtest => exact absurd rfl h
    | _ => rfl
  · cases n <;> decide +kernel

variable {rules : Rules} {t : BlockTree} {c : Candidate} {bits : UInt32}

/-- Each block above genesis keeps to the ceiling of its algorithm. -/
def Branch.Bounded (rules : Rules) (b : Branch) : Prop :=
  ∀ x ∈ b.blocks, ∀ a, x.algorithm? = some a → Within (rules.ceilings.get a) x.bits

namespace Rules.Exact

theorem nearest_limit (hr : rules.Exact) {s : Series} (h : 0 < rules.limit s) :
    nearest (rules.limit s) = rules.limit s :=
  have hfloor := CompactForm.target_encode (rules.limit_lt s)
  nearest_eq_of_floor_eq (hfloor.symm.trans (hr.target_encode s.governor (Nat.ne_of_gt h)))

theorem within_of_forces (hr : rules.Exact) (ha : rules.admits c.algorithm?) {b : Branch}
    (hb : b.Grounded) (hbounded : b.Bounded rules) {kind : Forcing}
    (h : Forces rules c b kind bits) :
    Within (rules.limit c.series) bits := by
  cases h with
  | @minDifficulty a bits htag hforced =>
    obtain @⟨g, l, hc⟩ := hb
    rw [rules.limit_of_tag htag]
    rw [htag] at ha
    have h0 : encode (rules.ceiling (some a)) ≠ 0 :=
      encode_ne_zero (rules.ceiling_lt _) (Rules.ceiling_pos ha)
    have hrule := (MinDifficulty.forced?_eq_some_iff hc.root_height h0).1 hforced
    rcases hrule.marker_or_mem with rfl | ⟨x, hx, rfl⟩
    · have hne : (rules.ceilings.get a).1 ≠ 0 := of_decide_eq_true ha
      exact within_marker (rules.ceilings.get a).2 (hr.two_le a hne)
    · obtain ⟨hx, htagx⟩ := List.mem_filter.1 hx
      exact hbounded x hx a (of_decide_eq_true htagx)
  | historical hfixed =>
    obtain ⟨hseries, o, ho, rfl⟩ := exists_of_fixedBits? hfixed
    rw [hseries]
    exact hr.fixed o ho

theorem requirement_within (hr : rules.Exact) (ha : rules.admits c.algorithm?) {b : Branch}
    (hb : b.Grounded) (hbounded : b.Bounded rules) (m : AverageMemo) :
    ∃ r m', requirement rules c m (some b) = .ok (r, m') ∧ r.regime ≠ .disabled ∧
      Within (rules.limit c.series) r.bits := by
  have hpos := Rules.limit_pos hr.fault?_eq ha
  have hgrounded : ∀ b' ∈ some b, b'.Grounded := fun _ h ↦ Option.some.inj h ▸ hb
  obtain ⟨r, m', hreq, hacc⟩ :=
    requirement_accounted (Rules.spacing_pos hr.fault?_eq) ha m hgrounded
  refine ⟨r, m', hreq, hacc.regime_ne_disabled, ?_⟩
  cases hacc with
  | ceiling h =>
    rw [hr.retargets] at h
    rcases h with h | h <;> cases h
  | computed _ hcap => exact hcap.within (hr.nearest_limit hpos).le hpos
  | forced _ htip hforces =>
    exact hr.within_of_forces ha hb hbounded (Option.some.inj htip ▸ hforces)

end Rules.Exact

namespace Mined

theorem grown (h : Mined rules t) : t.Grown := by
  induction h with
  | plant e => exact .plant e .empty
  | mine _ _ _ _ _ _ ih => exact .insert _ _ ih

/-- No block of a mined tree is easier than the ceiling of its algorithm. -/
theorem bounded (hr : rules.Exact) (h : Mined rules t) {id : BlockId} {b : Branch}
    (hb : t.branches[id]? = some b) : b.Bounded rules := by
  induction h generalizing id b with
  | plant e =>
    rw [BlockTree.branches_plant_empty hb]
    exact fun _ hx ↦ nomatch hx
  | @mine t parent c m m' r hash stake ht hid ha hreq ih =>
    have hs := ht.grown.sound
    rcases hs.branches_insert hb with hb | ⟨below, y, hbelow, -, rfl⟩
    · exact ih hb
    · rintro z hz a hza
      rcases List.mem_cons.1 hz with rfl | hz
      · obtain ⟨r', m'', hreq', -, hwithin⟩ :=
          hr.requirement_within ha (hs.grounded hbelow) (ih hbelow) m
        rw [BlockTree.branch_of_branches hbelow, hreq'] at hreq
        cases hreq
        rwa [rules.limit_of_tag hza] at hwithin
      · exact ih hbelow z hz a hza

end Mined

/-- On every mined tree each requirement is found, is no refusal, and is valid and no easier than
the ceiling. -/
theorem Mined.requirement_valid_le_limit (hr : rules.Exact) (ht : Mined rules t) {id : BlockId}
    (hid : id < t.size) (ha : rules.admits c.algorithm?) (m : AverageMemo) :
    ∃ r m', requirement rules c m (some (t.branch id)) = .ok (r, m') ∧ r.regime ≠ .disabled ∧
      (decode r.bits).isValid = true ∧ target r.bits ≤ rules.limit c.series := by
  have hb := BlockTree.branches_of_lt hid
  exact hr.requirement_within ha (ht.grown.sound.grounded hb) (ht.bounded hr hb) m

theorem Mined.requirement_valid_le_limit_on_main :
    let c : Candidate := .ofTag (some .xevan) 600
    ∃ t, Mined .main t ∧ t.size = 2 ∧
      ∃ r m', requirement .main c .disabled (some (t.branch 1)) = .ok (r, m') ∧
      r.regime ≠ .disabled ∧ (decode r.bits).isValid = true ∧
      target r.bits ≤ Rules.main.limit c.series := by
  intro c
  have hr : Rules.main.Exact := Rules.exact_ofNetwork (by decide : Network.main ≠ .regtest)
  have ha : Rules.main.admits c.algorithm? := by decide +kernel
  let g : Entry := BlockTree.numbered c.version 0x1e0fffff 0
  have hline := BlockTree.line_plant g
  have ht : Mined .main (({} : BlockTree).plant g).2 := .plant g
  have hid : 0 < (({} : BlockTree).plant g).2.size := hline.size_eq ▸ Nat.one_pos
  obtain ⟨r, m', hreq, -⟩ := Mined.requirement_valid_le_limit hr ht hid ha .disabled
  let e : Entry := { BlockTree.numbered c.version r.bits 1 with time := c.time }
  have hnew : e.hash ∉ [g.hash] := by
    change (⟨.replicate 32 1⟩ : Hash) ∉ [(⟨.replicate 32 0⟩ : Hash)]
    decide
  have ht' : Mined .main ((({} : BlockTree).plant g).2.insert 0 e).2 :=
    .mine e.hash e.stake ht hid ha hreq
  have hsize := (hline.insert rfl hnew).size_eq
  exact ⟨_, ht', hsize,
    Mined.requirement_valid_le_limit hr ht' (hsize ▸ Nat.lt_succ_self 1) ha .disabled⟩

end HybridDifficulty
