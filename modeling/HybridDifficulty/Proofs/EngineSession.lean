import HybridDifficulty.Engine
import HybridDifficulty.Proofs.RequirementOutcome
import HybridDifficulty.Proofs.TreeGrowth

/-!
Runs of an engine that answers for a growing tree. Tips are named by their ids, and a call that
fails leaves the tree and the engine as they were.
-/

namespace HybridDifficulty

inductive Event
  | plant (e : Entry)
  | insert (parent : BlockId) (e : Entry)
  | forget
  | next (tip? : Option BlockId) (c : Candidate)
  | checkedNext (tip? : Option BlockId) (c : Candidate)
  | nextPeriodic (tip : BlockId) (c : Candidate)
  | checkWork (hash : Nat) (bits : UInt32) (tag : Option Algorithm)
  | checkHeader (hasher : Hasher) (header : List UInt8) (bits : UInt32) (tag : Option Algorithm)

structure Session where
  tree : BlockTree := {}
  engine : Engine

namespace Engine

variable {e e' : Engine} {settings : Settings} {rules : Rules} {tip? : Option Branch}
  {c : Candidate}

theorem start_eq_ok (h : start settings rules = .ok e) :
    rules.fault? = none ∧ e = {
      settings, rules
      memo := { enabled := settings.useMemo, byFork := settings.memoByFork } } := by
  unfold start at h
  split at h
  · cases h
  · split at h
    · cases h
    · next hf => exact ⟨hf, (Except.ok.inj h).symm⟩

theorem next_of_requirement {r : Requirement} {memo : AverageMemo}
    (h : requirement e.rules c e.memo tip? = .ok (r, memo)) :
    e.next tip? c = .ok (r, { e with memo, tally := e.tally.addRequirement r }) := by
  rw [next, h]
  rfl

theorem next_eq_ok {r : Requirement} (h : e.next tip? c = .ok (r, e')) :
    ∃ memo, requirement e.rules c e.memo tip? = .ok (r, memo) ∧
      e' = { e with memo, tally := e.tally.addRequirement r } := by
  obtain ⟨⟨r', memo⟩, hreq, h⟩ := exists_of_bind_eq_ok h
  cases h
  exact ⟨memo, hreq, rfl⟩

theorem checkedNext_eq_ok {r : Requirement} (h : e.checkedNext tip? c = .ok (.ok (r, e'))) :
    e.next tip? c = .ok (r, e') := by
  rw [checkedNext] at h
  split at h
  · cases h
  · split at h
    · cases h
    · cases hnext : e.next tip? c with
      | error f =>
        rw [hnext] at h
        cases h
      | ok p =>
        rw [hnext] at h
        cases h
        rfl

theorem nextPeriodic_eq_ok {tip : Branch} {bits : UInt32}
    (h : e.nextPeriodic tip c = .ok (bits, e')) :
    ∃ r, periodicRequirement e.rules c tip = .ok r ∧ r.bits = bits ∧
      e' = { e with tally := e.tally.addRequirement r } := by
  obtain ⟨r, hreq, h⟩ := exists_of_bind_eq_ok h
  cases h
  exact ⟨r, hreq, rfl, rfl⟩

theorem checkHeader_eq (e : Engine) (hasher : Hasher) (header : List UInt8) (bits : UInt32)
    (tag : Option Algorithm) :
    ∃ accepted, e.checkHeader hasher header bits tag =
      (accepted, { e with tally := e.tally.addProof accepted }) := by
  rw [checkHeader]
  split <;> exact ⟨_, rfl⟩

end Engine

namespace Session

def tip (s : Session) (tip? : Option BlockId) : Option Branch := tip?.map s.tree.branch

/-- The session after a call. One that faults or is refused changes nothing. -/
def after {α : Type} (s : Session) : Except Fault (α × Engine) → Session
  | .ok (_, engine) => { s with engine }
  | .error _ => s

def afterChecked {α : Type} (s : Session) : Except Fault (Except EngineError (α × Engine)) → Session
  | .ok (.ok (_, engine)) => { s with engine }
  | .ok (.error _) | .error _ => s

def step (s : Session) : Event → Session
  | .plant e => { s with tree := (s.tree.plant e).2 }
  | .insert parent e => { s with tree := (s.tree.insert parent e).2 }
  | .forget => { s with engine := s.engine.forgetAverages }
  | .next tip? c => s.after (s.engine.next (s.tip tip?) c)
  | .checkedNext tip? c => s.afterChecked (s.engine.checkedNext (s.tip tip?) c)
  | .nextPeriodic tip c => s.after (s.engine.nextPeriodic (s.tree.branch tip) c)
  | .checkWork hash bits tag => { s with engine := (s.engine.checkWork hash bits tag).2 }
  | .checkHeader hasher header bits tag =>
    { s with engine := (s.engine.checkHeader hasher header bits tag).2 }

def run (s : Session) (events : List Event) : Session := events.foldl step s

/-- What a step can leave in the memo. -/
inductive Remembers (s : Session) : AverageMemo → Prop
  | same : Remembers s s.engine.memo
  | forget : Remembers s s.engine.memo.forget
  | requirement {tip? : Option BlockId} {c : Candidate} {r : Requirement} {memo : AverageMemo} :
      requirement s.engine.rules c s.engine.memo (s.tip tip?) = .ok (r, memo) → Remembers s memo

variable {s : Session}

theorem after_cases {α : Type} (s : Session) (x : Except Fault (α × Engine)) :
    s.after x = s ∨ ∃ a engine, x = .ok (a, engine) ∧ s.after x = { s with engine } := by
  cases x with
  | error => exact .inl rfl
  | ok p => exact .inr ⟨p.1, p.2, rfl, rfl⟩

theorem afterChecked_cases {α : Type} (s : Session)
    (x : Except Fault (Except EngineError (α × Engine))) :
    s.afterChecked x = s ∨ ∃ a engine, x = .ok (.ok (a, engine)) ∧
      s.afterChecked x = { s with engine } := by
  match x with
  | .error _ | .ok (.error _) => exact .inl rfl
  | .ok (.ok p) => exact .inr ⟨p.1, p.2, rfl, rfl⟩

theorem after_tree {α : Type} (s : Session) (x : Except Fault (α × Engine)) :
    (s.after x).tree = s.tree := by
  cases x <;> rfl

theorem afterChecked_tree {α : Type} (s : Session)
    (x : Except Fault (Except EngineError (α × Engine))) :
    (s.afterChecked x).tree = s.tree := by
  match x with
  | .error _ | .ok (.error _) | .ok (.ok _) => rfl

/-- A step changes nothing in the engine but its counts and its memo. -/
theorem step_engine (s : Session) (e : Event) :
    ∃ memo tally, (s.step e).engine = { s.engine with memo, tally } ∧ s.Remembers memo := by
  have hsame : ∃ memo tally, s.engine = { s.engine with memo, tally } ∧ s.Remembers memo :=
    ⟨_, _, rfl, .same⟩
  have hnext : ∀ {tip? c r engine}, s.engine.next (s.tip tip?) c = .ok (r, engine) →
      ∃ memo tally, engine = { s.engine with memo, tally } ∧ s.Remembers memo := by
    intro tip? c r engine h
    obtain ⟨memo, hreq, h⟩ := Engine.next_eq_ok h
    exact ⟨memo, _, h, .requirement hreq⟩
  cases e with
  | plant | insert => exact hsame
  | forget => exact ⟨_, _, rfl, .forget⟩
  | next tip? c =>
    rcases s.after_cases (s.engine.next (s.tip tip?) c) with h | ⟨r, engine, hr, h⟩ <;> rw [step, h]
    · exact hsame
    · exact hnext hr
  | checkedNext tip? c =>
    rcases s.afterChecked_cases (s.engine.checkedNext (s.tip tip?) c) with
      h | ⟨r, engine, hr, h⟩ <;> rw [step, h]
    · exact hsame
    · exact hnext (Engine.checkedNext_eq_ok hr)
  | nextPeriodic tip c =>
    rcases s.after_cases (s.engine.nextPeriodic (s.tree.branch tip) c) with
      h | ⟨bits, engine, hr, h⟩ <;>
      rw [step, h]
    · exact hsame
    · obtain ⟨r, -, -, hr⟩ := Engine.nextPeriodic_eq_ok hr
      exact ⟨_, _, hr, .same⟩
  | checkWork => exact ⟨_, _, rfl, .same⟩
  | checkHeader hasher header bits tag =>
    obtain ⟨accepted, h⟩ := s.engine.checkHeader_eq hasher header bits tag
    exact ⟨_, _, congrArg Prod.snd h, .same⟩

theorem step_tree (s : Session) (e : Event) :
    (s.step e).tree = s.tree ∨ (∃ x, (s.step e).tree = (s.tree.plant x).2) ∨
      ∃ parent x, (s.step e).tree = (s.tree.insert parent x).2 := by
  cases e with
  | plant x => exact .inr (.inl ⟨x, rfl⟩)
  | insert parent x => exact .inr (.inr ⟨parent, x, rfl⟩)
  | next | nextPeriodic => exact .inl (after_tree _ _)
  | checkedNext => exact .inl (afterChecked_tree _ _)
  | forget | checkWork | checkHeader => exact .inl rfl

theorem step_grown (e : Event) (h : s.tree.Grown) : (s.step e).tree.Grown := by
  rcases s.step_tree e with he | ⟨x, he⟩ | ⟨parent, x, he⟩ <;> rw [he]
  · exact h
  · exact h.plant x
  · exact h.insert parent x

theorem step_extends (e : Event) (h : s.tree.Grown) : s.tree.Extends (s.step e).tree := by
  rcases s.step_tree e with he | ⟨x, he⟩ | ⟨parent, x, he⟩ <;> rw [he]
  · exact .refl s.tree
  · exact h.sound.extends_plant x
  · exact h.sound.extends_insert parent x

theorem exists_branch_of_lt {tip? : Option BlockId} (h : ∀ id ∈ tip?, id < s.tree.size) :
    ∀ b ∈ s.tip tip?, ∃ id : BlockId, s.tree.branches[id]? = some b := by
  intro b hb
  obtain ⟨id, rfl, rfl⟩ := Option.map_eq_some_iff.1 hb
  exact ⟨id, BlockTree.branches_of_lt (h id rfl)⟩

theorem run_induction {P : Session → Prop} (hstep : ∀ s e, P s → P (step s e)) (hs : P s)
    (events : List Event) :
    P (s.run events) := by
  induction events generalizing s with
  | nil => exact hs
  | cons e events ih => exact ih (hstep s e hs)

/-- The insertions that grow a line of blocks, given newest first. -/
def lineEvents (g : Entry) : List Entry → List Event
  | [] => [.plant g]
  | e :: es => lineEvents g es ++ [.insert es.length e]

theorem run_append (s : Session) (events events' : List Event) :
    s.run (events ++ events') = (s.run events).run events' := List.foldl_append

theorem run_lineEvents (engine : Engine) (g : Entry) (es : List Entry) :
    run { engine } (lineEvents g es) = { tree := .lineTree g es, engine } := by
  induction es with
  | nil => rfl
  | cons e es ih => rw [lineEvents, run_append, ih]; rfl

end Session

end HybridDifficulty
