import HybridDifficulty.Proofs.ChainMemo

/-!
What an engine has counted after any calls. A call that returns is counted once, whatever it went
through on the way: its target under its regime or under what forced it, its average as a hit or a
miss, its proof as accepted or rejected.
-/

namespace HybridDifficulty

/-- Only a scheduled target that nothing forces may have used an average. -/
theorem settle_eq_ok {rules : Rules} {c : Candidate} {m m' : AverageMemo} {tip? : Option Branch}
    {choice : Choice} {r : Requirement} (h : settle rules c m tip? choice = .ok (r, m')) :
    r.regime = choice.regime ∧ r.forced = choice.forced.map Prod.fst ∧
      (r.lookup.isSome → r.regime = .scheduled ∧ r.forced = none) := by
  obtain ⟨regime, forced⟩ := choice
  cases forced with
  | some f =>
    cases h
    exact ⟨rfl, rfl, fun h ↦ nomatch h⟩
  | none =>
    cases regime with
    | disabled | ceiling =>
      cases h
      exact ⟨rfl, rfl, fun h ↦ nomatch h⟩
    | periodic =>
      cases tip? with
      | none =>
        cases h
        exact ⟨rfl, rfl, fun h ↦ nomatch h⟩
      | some tip =>
        obtain ⟨bits, -, h⟩ := exists_of_bind_eq_ok h
        cases h
        exact ⟨rfl, rfl, fun h ↦ nomatch h⟩
    | movingAverage | weighted =>
      obtain ⟨bits, -, h⟩ := exists_of_bind_eq_ok h
      cases h
      exact ⟨rfl, rfl, fun h ↦ nomatch h⟩
    | scheduled =>
      obtain ⟨⟨bits, lookup, m''⟩, -, h⟩ := exists_of_bind_eq_ok h
      cases h
      exact ⟨rfl, rfl, fun _ ↦ ⟨rfl, rfl⟩⟩

theorem periodicRequirement_eq_ok {rules : Rules} {c : Candidate} {tip : Branch} {r : Requirement}
    (h : periodicRequirement rules c tip = .ok r) : r.regime = .periodic ∧ r.lookup = none := by
  obtain ⟨⟨r', m⟩, hsettle, h⟩ := exists_of_bind_eq_ok h
  cases h
  obtain ⟨hregime, -, hlookup⟩ := settle_eq_ok hsettle
  refine ⟨hregime, ?_⟩
  cases hr : r'.lookup with
  | none => rfl
  | some lookup =>
    rw [hr] at hlookup
    exact absurd (hregime.symm.trans (hlookup rfl).1) (by decide)

def oneIf (b : Bool) : UInt64 := if b then 1 else 0

namespace Tally

/-- All targets that were given away, those of every regime and the forced ones. -/
def targets (m : Tally) : UInt64 :=
  m.disabled + m.ceiling + m.periodic + m.movingAverage + m.weighted + m.scheduled +
    (m.minDifficulty + m.historical)

def lookups (m : Tally) : UInt64 := m.hits + m.misses

def proofs (m : Tally) : UInt64 := m.accepted + m.rejected

/-- The second tally counts one call more, in which these things happened. -/
structure Adds (m m' : Tally) (target lookup scheduled proof accepted : Bool) : Prop where
  targets : m'.targets = m.targets + oneIf target
  lookups : m'.lookups = m.lookups + oneIf lookup
  scheduled : m'.scheduled = m.scheduled + oneIf scheduled
  proofs : m'.proofs = m.proofs + oneIf proof
  accepted : m'.accepted = m.accepted + oneIf accepted

variable (m : Tally)

theorem adds_nothing : m.Adds m false false false false false := by
  constructor <;> exact (UInt64.add_zero _).symm

theorem adds_proof (accepted : Bool) :
    m.Adds (m.addProof accepted) false false false true accepted := by
  cases accepted <;> constructor <;>
    simp [addProof, oneIf, Tally.targets, Tally.lookups, Tally.proofs] <;> ac_rfl

theorem adds_computed (regime : Regime) :
    m.Adds (m.addComputed regime) true false (regime = .scheduled) false false := by
  cases regime <;> constructor <;>
    simp [addComputed, oneIf, Tally.targets, Tally.lookups, Tally.proofs] <;> ac_rfl

theorem adds_forced (kind : Forcing) : m.Adds (m.addForced kind) true false false false false := by
  cases kind <;> constructor <;>
    simp [addForced, oneIf, Tally.targets, Tally.lookups, Tally.proofs] <;> ac_rfl

variable {m}

theorem Adds.addLookup {m' : Tally} {target scheduled : Bool}
    (h : m.Adds m' target false scheduled false false) (lookup : Option Lookup) :
    m.Adds (lookup.elim m' m'.addLookup) target lookup.isSome scheduled false false := by
  obtain ⟨htargets, hlookups, hscheduled, hproofs, haccepted⟩ := h
  cases lookup with
  | none => exact ⟨htargets, hlookups, hscheduled, hproofs, haccepted⟩
  | some lookup =>
    have hone : (m'.addLookup lookup).lookups = m.lookups + 1 := by
      rw [← UInt64.add_zero m.lookups, ← show m'.lookups = m.lookups + 0 from hlookups]
      cases lookup <;> simp only [Tally.addLookup, Tally.lookups] <;> ac_rfl
    cases lookup <;> exact ⟨htargets, hone, hscheduled, hproofs, haccepted⟩

variable (m)

theorem adds_requirement (r : Requirement) :
    m.Adds (m.addRequirement r) true r.lookup.isSome
      (r.forced.isNone && r.regime = .scheduled) false false := by
  refine Adds.addLookup ?_ r.lookup
  cases r.forced with
  | none => exact m.adds_computed r.regime
  | some kind => exact m.adds_forced kind

end Tally

namespace Engine

variable {e e' : Engine}

inductive Call
  | next (tip? : Option Branch) (c : Candidate)
  | checkedNext (tip? : Option Branch) (c : Candidate)
  | nextPeriodic (tip : Branch) (c : Candidate)
  | retargetPeriodic (tip : Block) (start : Int)
  | checkWork (hash : Nat) (bits : UInt32) (tag : Option Algorithm)
  | checkHeader (hasher : Hasher) (header : List UInt8) (bits : UInt32) (tag : Option Algorithm)
  | forget

inductive Reply
  | requirement (r : Requirement)
  | refusal (f : EngineError)
  | bits (bits : UInt32)
  | verdict (accepted : Bool)
  | done

def perform (e : Engine) : Call → Except Fault (Reply × Engine)
  | .next tip? c => do
    let (r, e) ← e.next tip? c
    return (.requirement r, e)
  | .checkedNext tip? c => do
    match ← e.checkedNext tip? c with
    | .ok (r, e) => return (.requirement r, e)
    | .error f => return (.refusal f, e)
  | .nextPeriodic tip c => do
    let (bits, e) ← e.nextPeriodic tip c
    return (.bits bits, e)
  | .retargetPeriodic tip start => return (.bits (e.retargetPeriodic tip start), e)
  | .checkWork hash bits tag =>
    let (accepted, e) := e.checkWork hash bits tag
    return (.verdict accepted, e)
  | .checkHeader hasher header bits tag =>
    let (accepted, e) := e.checkHeader hasher header bits tag
    return (.verdict accepted, e)
  | .forget => return (.done, e.forgetAverages)

/-- The calls with their replies, one after another, if all of them return. -/
def serve (e : Engine) : List Call → Except Fault (List (Call × Reply) × Engine)
  | [] => return ([], e)
  | call :: calls => do
    let (reply, e) ← e.perform call
    let (log, e) ← serve e calls
    return ((call, reply) :: log, e)

/-- Calls for a target have one unless the checked call refuses. -/
def givesTarget : Call × Reply → Bool
  | (.next .., _) | (.nextPeriodic .., _) | (.checkedNext .., .requirement _) => true
  | _ => false

def usesAverage : Call × Reply → Bool
  | (_, .requirement r) => r.lookup.isSome
  | _ => false

def givesScheduled : Call × Reply → Bool
  | (_, .requirement r) => r.forced.isNone && r.regime = .scheduled
  | _ => false

def checksProof : Call × Reply → Bool
  | (.checkWork .., _) | (.checkHeader .., _) => true
  | _ => false

def acceptsProof : Call × Reply → Bool
  | (.checkWork .., .verdict accepted) | (.checkHeader .., .verdict accepted) => accepted
  | _ => false

/-- A call that returned, by what its reply says happened. -/
structure Counts (m m' : Tally) (x : Call × Reply) : Prop where
  adds : m.Adds m' (givesTarget x) (usesAverage x) (givesScheduled x) (checksProof x)
    (acceptsProof x)
  scheduled : usesAverage x → givesScheduled x

theorem next_counts {tip? : Option Branch} {c : Candidate} {r : Requirement}
    (h : e.next tip? c = .ok (r, e')) :
    e.tally.Adds e'.tally true r.lookup.isSome
      (r.forced.isNone && r.regime = .scheduled) false false ∧
      (r.lookup.isSome → (r.forced.isNone && r.regime = .scheduled) = true) := by
  obtain ⟨memo, hreq, rfl⟩ := next_eq_ok h
  obtain ⟨choice, -, hsettle⟩ := exists_of_bind_eq_ok hreq
  refine ⟨e.tally.adds_requirement r, fun hlookup ↦ ?_⟩
  obtain ⟨hregime, hforced⟩ := (settle_eq_ok hsettle).2.2 hlookup
  rw [hregime, hforced]
  rfl

theorem perform_counts {call : Call} {reply : Reply} (h : e.perform call = .ok (reply, e')) :
    Counts e.tally e'.tally (call, reply) := by
  cases call with
  | next tip? c =>
    obtain ⟨⟨r, e₁⟩, hnext, h⟩ := exists_of_bind_eq_ok h
    cases h
    obtain ⟨hadds, hscheduled⟩ := next_counts hnext
    exact ⟨hadds, hscheduled⟩
  | checkedNext tip? c =>
    obtain ⟨answer, hnext, h⟩ := exists_of_bind_eq_ok h
    match answer with
    | .error f =>
      cases h
      exact ⟨e.tally.adds_nothing, fun h ↦ nomatch h⟩
    | .ok (r, e₁) =>
      cases h
      obtain ⟨hadds, hscheduled⟩ := next_counts (checkedNext_eq_ok hnext)
      exact ⟨hadds, hscheduled⟩
  | nextPeriodic tip c =>
    obtain ⟨⟨bits, e₁⟩, hnext, h⟩ := exists_of_bind_eq_ok h
    cases h
    obtain ⟨r, hr, -, rfl⟩ := nextPeriodic_eq_ok hnext
    obtain ⟨hregime, hlookup⟩ := periodicRequirement_eq_ok hr
    have hadds := e.tally.adds_requirement r
    -- its own regime is not the scheduled one, forced or not
    have hother : (r.forced.isNone && decide (Regime.periodic = .scheduled)) = false :=
      Bool.and_false _
    rw [hregime, hlookup, hother] at hadds
    exact ⟨hadds, fun h ↦ nomatch h⟩
  | retargetPeriodic tip start =>
    cases h
    exact ⟨e.tally.adds_nothing, fun h ↦ nomatch h⟩
  | checkWork hash bits tag =>
    cases h
    exact ⟨e.tally.adds_proof _, fun h ↦ nomatch h⟩
  | checkHeader hasher header bits tag =>
    obtain ⟨accepted, hcheck⟩ := e.checkHeader_eq hasher header bits tag
    simp only [perform, hcheck] at h
    cases h
    exact ⟨e.tally.adds_proof accepted, fun h ↦ nomatch h⟩
  | forget =>
    cases h
    exact ⟨e.tally.adds_nothing, fun h ↦ nomatch h⟩

/-- What the counts say of the calls that returned, modulo the size of a word. -/
structure Accounts (m : Tally) (log : List (Call × Reply)) : Prop where
  targets : m.targets = .ofNat (log.countP givesTarget)
  lookups : m.lookups = .ofNat (log.countP usesAverage)
  scheduled : m.scheduled = .ofNat (log.countP givesScheduled)
  lookups_le : log.countP usesAverage ≤ log.countP givesScheduled
  proofs : m.proofs = .ofNat (log.countP checksProof)
  accepted : m.accepted = .ofNat (log.countP acceptsProof)

theorem ofNat_countP_append (p : Call × Reply → Bool) (log : List (Call × Reply))
    (x : Call × Reply) :
    UInt64.ofNat ((log ++ [x]).countP p) = .ofNat (log.countP p) + oneIf (p x) := by
  rw [List.countP_append, List.countP_singleton, UInt64.ofNat_add, oneIf]
  split <;> rfl

theorem Accounts.perform {log : List (Call × Reply)} {call : Call} {reply : Reply}
    (h : Accounts e.tally log) (hcall : e.perform call = .ok (reply, e')) :
    Accounts e'.tally (log ++ [(call, reply)]) := by
  obtain ⟨hadds, hscheduled⟩ := perform_counts hcall
  constructor
  case targets => rw [hadds.targets, h.targets, ofNat_countP_append]
  case lookups => rw [hadds.lookups, h.lookups, ofNat_countP_append]
  case scheduled => rw [hadds.scheduled, h.scheduled, ofNat_countP_append]
  case proofs => rw [hadds.proofs, h.proofs, ofNat_countP_append]
  case accepted => rw [hadds.accepted, h.accepted, ofNat_countP_append]
  case lookups_le =>
    have hle := h.lookups_le
    -- a call that used an average also gave a scheduled target, so both counts grow together
    rw [List.countP_append, List.countP_append, List.countP_singleton, List.countP_singleton]
    split
    · next hx =>
      rw [if_pos (hscheduled hx)]
      exact Nat.succ_le_succ hle
    · exact Nat.le_add_right_of_le hle

theorem Accounts.serve {log : List (Call × Reply)} (h : Accounts e.tally log) {calls : List Call}
    {log' : List (Call × Reply)} (hserve : e.serve calls = .ok (log', e')) :
    Accounts e'.tally (log ++ log') := by
  -- the calls before these are in `log`, so it varies along the induction
  induction calls generalizing e log log' with
  | nil =>
    cases hserve
    rwa [List.append_nil]
  | cons call calls ih =>
    obtain ⟨⟨reply, e₁⟩, hcall, hserve⟩ := exists_of_bind_eq_ok hserve
    obtain ⟨⟨rest, e₂⟩, hrest, hserve⟩ := exists_of_bind_eq_ok hserve
    cases hserve
    have hall := ih (h.perform hcall) hrest
    rwa [List.append_assoc] at hall

theorem map_fst_serve {calls : List Call} {log : List (Call × Reply)}
    (h : e.serve calls = .ok (log, e')) :
    log.map Prod.fst = calls := by
  induction calls generalizing e log with
  | nil =>
    cases h
    rfl
  | cons call calls ih =>
    obtain ⟨⟨reply, e₁⟩, -, h⟩ := exists_of_bind_eq_ok h
    obtain ⟨⟨rest, e₂⟩, hrest, h⟩ := exists_of_bind_eq_ok h
    cases h
    rw [List.map_cons, ih hrest]

theorem Accounts.lookups_le_scheduled {m : Tally} {log : List (Call × Reply)} (h : Accounts m log)
    (hfull : log.countP givesScheduled < UInt64.size) : m.lookups ≤ m.scheduled := by
  have hle := h.lookups_le
  rw [h.lookups, h.scheduled, UInt64.le_iff_toNat_le,
    UInt64.toNat_ofNat_of_lt' (Nat.lt_of_le_of_lt hle hfull), UInt64.toNat_ofNat_of_lt' hfull]
  exact hle

/-- After any calls that return, what an engine has counted since its start is what happened in
them. -/
theorem accounts_of_start {settings : Settings} {rules : Rules}
    (hstart : start settings rules = .ok e) {calls : List Call} {log : List (Call × Reply)}
    (hserve : e.serve calls = .ok (log, e')) :
    log.map Prod.fst = calls ∧ Accounts e'.tally log ∧
      (log.countP givesScheduled < UInt64.size →
        e'.tally.hits + e'.tally.misses ≤ e'.tally.scheduled) := by
  obtain ⟨-, rfl⟩ := start_eq_ok hstart
  have hempty : Accounts {} [] := ⟨rfl, rfl, rfl, Nat.le_refl 0, rfl, rfl⟩
  have hall := hempty.serve hserve
  exact ⟨map_fst_serve hserve, hall, hall.lookups_le_scheduled⟩

/-- An average that is computed, one that is remembered, a refusal, and both verdicts on a proof. -/
def sampleCalls : List Call :=
  let c : Candidate := .ofTag (some .xevan) 8400
  let lower : Branch := BlockTree.lineBranch BlockTree.numberedGenesis (Session.sampleLine.drop 1)
  let upper : Branch := BlockTree.lineBranch BlockTree.numberedGenesis Session.sampleLine
  [.next (some lower) c, .checkedNext (some upper) c,
    .checkedNext none (.ofTag (some .keccak256) 0), .nextPeriodic upper c,
    .retargetPeriodic (BlockTree.numberedBlock untaggedVersion 0x1e0fffff 0) 0,
    .checkWork 0 0x1d0f0000 (some .xevan), .checkHeader (fun _ _ ↦ none) [] 0x1d0f0000 none,
    .forget]

theorem accounts_of_start_on_samples :
    ∃ e log e', start { network := .testnet } Session.shortRules = .ok e ∧
      e.serve sampleCalls = .ok (log, e') ∧ e'.tally =
      { periodic := 1, scheduled := 2, hits := 1, misses := 1, accepted := 1, rejected := 1 } ∧
      log.map Prod.fst = sampleCalls ∧ Accounts e'.tally log ∧
      e'.tally.hits + e'.tally.misses ≤ e'.tally.scheduled := by
  have hf : Session.shortRules.fault? = none := by decide +kernel
  have hstart : start { network := .testnet } Session.shortRules =
      .ok { settings := { network := .testnet }, rules := Session.shortRules, memo := {} } := by
    rw [start, if_neg (by decide), hf]
  have hrun :
      (serve { settings := { network := .testnet }, rules := Session.shortRules, memo := {} }
          sampleCalls >>= fun p ↦ .ok (p.2.tally, p.1.countP givesScheduled)) =
      .ok ({ periodic := 1, scheduled := 2, hits := 1, misses := 1, accepted := 1, rejected := 1 },
        2) := by
    decide +kernel
  obtain ⟨⟨log, e'⟩, hserve, hcounts⟩ := exists_of_bind_eq_ok hrun
  obtain ⟨htally, hscheduled⟩ := Prod.mk.inj (Except.ok.inj hcounts)
  obtain ⟨hcalls, haccounts, hle⟩ := accounts_of_start hstart hserve
  exact ⟨_, log, e', hstart, hserve, htally, hcalls, haccounts, hle (hscheduled ▸ by decide)⟩

end Engine

end HybridDifficulty
