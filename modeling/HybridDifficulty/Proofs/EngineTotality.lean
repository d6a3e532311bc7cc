import HybridDifficulty.Proofs.EngineSession

/-!
An engine that has started answers every call on a tree that was grown: the checked call refuses
disabled algorithms and unknown tips and nothing else, and periodic retargeting finds the start of
each interval.
-/

namespace HybridDifficulty

open Branch

namespace Periodic

variable {rules : Rules} {c : Candidate} {g : Block} {l : List Block}

theorem carryOver_ok (rules : Rules) (c : Candidate) (g : Block) (l : List Block) :
    ∃ bits, carryOver rules c ⟨l, .genesis g⟩ = .ok bits := by
  simp only [carryOver, top_genesis, ok_bind, seek_genesis]
  split
  · exact ⟨_, rfl⟩
  · split <;> exact ⟨_, rfl⟩

/-- At the end of an interval there are enough blocks for a whole one. -/
theorem startOf_ok (hi : 1 ≤ rules.interval) (hc : Climbs g l)
    (hend : ((l.headD g).height + 1 : Int) % rules.interval = 0) :
    ∃ start, startOf rules ⟨l, .genesis g⟩ = .ok start := by
  have hheight := hc.top_height
  have hle : rules.interval ≤ (l.headD g).height + 1 :=
    Int.le_of_dvd (by omega) (Int.dvd_of_emod_eq_zero hend)
  obtain ⟨l', -, -, hanc⟩ :=
    ancestor?_genesis hc (n := ((l.headD g).height - (rules.interval - 1)).toNat) (by omega)
  simp only [startOf, top_genesis, ok_bind,
    if_neg (by omega : ¬((l.headD g).height - (rules.interval - 1) < 0)), hanc]
  exact ⟨_, rfl⟩

theorem next_ok (hi : 1 ≤ rules.interval) (c : Candidate) {b : Branch} (hb : b.Grounded) :
    ∃ bits, next rules c b = .ok bits := by
  obtain @⟨g, l, hc⟩ := hb
  rw [next, top_genesis, ok_bind, if_neg (by omega)]
  split
  · exact carryOver_ok rules c g l
  · next hend =>
    obtain ⟨start, hstart⟩ := startOf_ok hi hc (by omega)
    rw [hstart, ok_bind]
    exact ⟨_, rfl⟩

end Periodic

namespace Engine

variable {e : Engine} {c : Candidate}

theorem checkedNext_of_closed (h : e.rules.ceiling c.algorithm? = 0) (tip? : Option Branch) :
    e.checkedNext tip? c = .ok (.error (.closedAlgorithm c.algorithm?)) := by
  rw [checkedNext, if_pos (by rw [Rules.admits, h]; rfl)]

theorem checkedNext_missing (h : e.rules.admits c.algorithm?) (id : BlockId) :
    e.checkedNext (some (.missing id)) c = .ok (.error (.unknownBlock id)) := by
  rw [checkedNext, if_neg (by rw [h]; exact Bool.false_ne_true)]
  rfl

theorem checkedNext_of_grounded (h : e.rules.admits c.algorithm?) (hr : 0 < e.rules.spacing)
    {tip? : Option Branch} (ht : ∀ b ∈ tip?, b.Grounded) :
    ∃ r e', e.checkedNext tip? c = .ok (.ok (r, e')) ∧ e.next tip? c = .ok (r, e') ∧
      r.regime ≠ .disabled := by
  obtain ⟨r, m, hreq, hacc⟩ := requirement_accounted hr h e.memo ht
  have hnext := next_of_requirement hreq
  refine ⟨r, _, ?_, hnext, hacc.regime_ne_disabled⟩
  rw [checkedNext, if_neg (by rw [h]; exact Bool.false_ne_true), hnext]
  cases tip? with
  | none => rfl
  | some b =>
    obtain ⟨x, hx⟩ := (ht b rfl).exists_top
    rw [Option.map_some, hx]
    rfl

theorem nextPeriodic_ok (hi : 1 ≤ e.rules.interval) {b : Branch} (hb : b.Grounded) :
    ∃ bits e', e.nextPeriodic b c = .ok (bits, e') := by
  obtain ⟨bits, hbits⟩ := Periodic.next_ok hi c hb
  simp only [nextPeriodic, periodicRequirement, settle, hbits, ok_bind]
  exact ⟨_, _, rfl⟩

end Engine

namespace Session

/-- Each call for the candidate has its answer, and a refused one changes nothing. -/
structure Answers (s : Session) (c : Candidate) : Prop where
  closed : s.engine.rules.ceiling c.algorithm? = 0 → ∀ tip? : Option BlockId,
    s.engine.checkedNext (s.tip tip?) c = .ok (.error (.closedAlgorithm c.algorithm?)) ∧
      s.step (.checkedNext tip? c) = s
  unknown : s.engine.rules.ceiling c.algorithm? ≠ 0 → ∀ id : BlockId, s.tree.size ≤ id →
    s.engine.checkedNext (s.tip (some id)) c = .ok (.error (.unknownBlock id)) ∧
      s.step (.checkedNext (some id) c) = s
  known : s.engine.rules.ceiling c.algorithm? ≠ 0 →
    ∀ tip? : Option BlockId, (∀ id ∈ tip?, id < s.tree.size) →
    ∃ r engine, s.engine.checkedNext (s.tip tip?) c = .ok (.ok (r, engine)) ∧
      s.engine.next (s.tip tip?) c = .ok (r, engine) ∧ r.regime ≠ .disabled
  periodic : ∀ id : BlockId, id < s.tree.size →
    ∃ bits engine, s.engine.nextPeriodic (s.tree.branch id) c = .ok (bits, engine)

/-- A started engine is total on every grown tree, whatever it remembers. -/
theorem answers_of_start {settings : Settings} {rules : Rules} {e₀ : Engine}
    (hstart : Engine.start settings rules = .ok e₀) {t : BlockTree} (ht : t.Grown)
    (memo : AverageMemo) (tally : Tally) (c : Candidate) :
    Answers { tree := t, engine := { e₀ with memo, tally } } c := by
  obtain ⟨hf, rfl⟩ := Engine.start_eq_ok hstart
  refine ⟨fun hclosed tip? ↦ ?_, fun hopen id hid ↦ ?_, fun hopen tip? hid ↦ ?_, fun id hid ↦ ?_⟩
  · have h := Engine.checkedNext_of_closed hclosed (tip?.map t.branch)
    exact ⟨h, congrArg (afterChecked _) h⟩
  · have h := Engine.checkedNext_missing (decide_eq_true hopen) id
    rw [← BlockTree.branch_of_ge hid] at h
    exact ⟨h, congrArg (afterChecked _) h⟩
  · exact Engine.checkedNext_of_grounded (decide_eq_true hopen) (Rules.spacing_pos hf)
      (ht.grounded_tip hid)
  · exact Engine.nextPeriodic_ok (Rules.one_le_interval hf)
      (ht.sound.grounded (BlockTree.branches_of_lt hid))

theorem answers_of_start_testnet :
    ∃ e₀ t, Engine.start { network := .testnet } .testnet = .ok e₀ ∧ t.Grown ∧ t.size = 3 ∧
      Answers { tree := t, engine := { e₀ with memo := .disabled, tally := {} } }
        (.ofTag (some .xevan) 1800) := by
  have hstart : Engine.start { network := .testnet } .testnet =
      .ok { settings := { network := .testnet }, rules := .testnet, memo := {} } := rfl
  have hline := BlockTree.line_threeBlocks (Algorithm.version .xevan) 0x1e0fffff
  exact ⟨_, _, hstart, hline.grown, hline.size_eq, answers_of_start hstart hline.grown _ _ _⟩

end Session

end HybridDifficulty
