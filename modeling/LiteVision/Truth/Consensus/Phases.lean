import LiteVision.Truth.Consensus.Votes

/-!
# Phases and locks

The vote handlers look at the view and the type of a vote, never at the phase
of the engine or at its lock. So the order of the phases, and the certificate
behind a new lock, are right in a run exactly when each call that completes a
count happens to come in the right state: `InPhase` and `LockCall` say which.
-/

namespace LiteVision.Truth

open Lib

/-- The calls meant to end the phase `Finalized`. -/
def Op.EndsFinalized : Op → Prop
  | .commit _ | .startNewView .. | .advanceToNextView | .advanceToNextHeight => True
  | .propose .. | .receive .. => False

namespace ConsensusEngine

open Consensus

variable (env : Env) (e : ConsensusEngine)

-- ---------------------------------------------------------------------------
-- Phases
-- ---------------------------------------------------------------------------

/-- `Finalized` is entered with a prevote certificate that matches the new
precommit certificate, and left only by the calls meant to. -/
def PhaseOrder (s : Consensus) (op : Op) : Prop :=
  (s.state ≠ .finalized → (e.step env s op).state = .finalized →
    ∃ p q, (e.step env s op).prevoteQc = some p ∧ (e.step env s op).precommitQc = some q ∧
      p.voteType = .preVote ∧ p.blockHash = q.blockHash ∧ p.height = q.height ∧ p.round = q.round) ∧
  (s.state = .finalized → (e.step env s op).state ≠ .finalized → op.EndsFinalized)

/-- A vote that completes the count comes in phase: a precommit once the
prevotes for its block completed theirs in this view, a prevote before
`Finalized`. -/
def InPhase (s : Consensus) : Op → Prop
  | .receive .preCommit vote _ => s.Admits .preCommit vote → e.Reaches .preCommit vote s →
    s.state ≠ .finalized →
    ∃ p, s.prevoteQc = some p ∧ p.blockHash = vote.blockHash ∧ p.height = s.height ∧
      p.round = s.round
  | .receive .preVote vote _ => s.Admits .preVote vote → e.Reaches .preVote vote s →
    s.state ≠ .finalized
  | _ => True

/-- `prevote_qc` only ever holds certificates of prevotes. -/
def PrevoteSlot (s : Consensus) : Prop := ∀ p, s.prevoteQc = some p → p.voteType = .preVote

variable {env e}

theorem prevoteSlot_step {s : Consensus} {op : Op} (h : PrevoteSlot s) :
    PrevoteSlot (e.step env s op) := by
  cases op with
  | startNewView height round => exact h
  | propose block qc =>
    simp only [step, propose]
    split
    · exact h
    · cases qc <;> exact h
  | receive t vote now =>
    rcases receive_cases env e t vote now s with ⟨-, msg, heq⟩ | ⟨-, -, heq⟩ | ⟨-, -, heq⟩
    · simpa only [step, heq] using h
    · simp only [step, heq]
      exact h
    · simp only [step, heq]
      cases t with
      | preVote =>
        intro p hp
        obtain rfl : e.built env .preVote vote s = p := Option.some.inj hp
        exact built_voteType env e
      | preCommit => exact h
  | commit qc =>
    simp only [step, commit]
    split <;> exact h
  | advanceToNextView => exact h
  | advanceToNextHeight =>
    intro p hp
    simp [step, advanceToNextHeight] at hp

theorem phaseOrder_of_same {s : Consensus} {op : Op} (h : (e.step env s op).state = s.state) :
    e.PhaseOrder env s op :=
  ⟨fun hs hs' => absurd (h ▸ hs') hs, fun hs hs' => absurd (h.trans hs) hs'⟩

theorem phaseOrder_iff_inPhase {s : Consensus} {op : Op} (hslot : PrevoteSlot s) :
    e.PhaseOrder env s op ↔ e.InPhase s op := by
  cases op with
  | startNewView height round =>
    exact ⟨fun _ => trivial, fun _ => ⟨fun _ h => by simp [step, startNewView] at h,
      fun _ _ => trivial⟩⟩
  | propose block qc =>
    refine ⟨fun _ => trivial, fun _ => ?_⟩
    by_cases hs : s.state = .propose
    · refine ⟨fun _ h => ?_, fun h => by simp [hs] at h⟩
      simp [step, propose, hs] at h
    · exact phaseOrder_of_same (by simp [step, propose, hs])
  | receive t vote now =>
    rcases receive_cases env e t vote now s with ⟨ha, msg, heq⟩ | ⟨ha, hr, heq⟩ | ⟨ha, hr, heq⟩
    · refine ⟨fun _ => ?_, fun _ => phaseOrder_of_same (by simp [step, heq])⟩
      cases t <;> exact fun h => absurd h ha
    · refine ⟨fun _ => ?_, fun _ => phaseOrder_of_same (by simp [step, heq, record])⟩
      cases t <;> exact fun _ h => absurd h hr
    · have hstep : e.step env s (.receive t vote now) =
          (s.record vote).certify t (e.built env t vote s) now := by
        simp only [step, heq]
      cases t with
      | preVote =>
        constructor
        · intro h _ _ hs
          exact h.2 hs (by simp [hstep, certify])
        · intro h
          refine ⟨fun _ hs' => by simp [hstep, certify] at hs', fun hs _ => absurd hs (h ha hr)⟩
      | preCommit =>
        constructor
        · intro h _ _ hs
          obtain ⟨p, q, hp, hq, -, hb, hh, hround⟩ := h.1 hs (by simp [hstep, certify])
          rw [hstep] at hp hq
          obtain rfl : e.built env .preCommit vote s = q := Option.some.inj hq
          exact ⟨p, hp, hb.trans (by simp), hh.trans (by simp), hround.trans (by simp)⟩
        · intro h
          refine ⟨fun hs _ => ?_, fun _ hs' => absurd (by simp [hstep, certify]) hs'⟩
          obtain ⟨p, hp, hb, hh, hround⟩ := h ha hr hs
          rw [hstep]
          exact ⟨p, _, hp, rfl, hslot p hp, hb.trans (by simp), hh.trans (by simp),
            hround.trans (by simp)⟩
  | commit qc =>
    refine ⟨fun _ => trivial, fun _ => ⟨fun hs hs' => ?_, fun _ _ => trivial⟩⟩
    simp [step, commit, hs] at hs'
  | advanceToNextView =>
    exact ⟨fun _ => trivial, fun _ => ⟨fun _ h => by simp [step, advanceToNextView] at h,
      fun _ _ => trivial⟩⟩
  | advanceToNextHeight =>
    exact ⟨fun _ => trivial, fun _ => ⟨fun _ h => by simp [step, advanceToNextHeight] at h,
      fun _ _ => trivial⟩⟩

variable (env) in
/-- The phases follow their order in a run just when its calls come in phase. -/
theorem phase_order_iff (validators : List Validator) (viewTimeoutMs : UInt64) (ops : List Op) :
    let e := ConsensusEngine.new validators viewTimeoutMs
    Trace.Always (e.step env) (e.PhaseOrder env) .initial ops ↔
      Trace.Always (e.step env) e.InPhase .initial ops :=
  Trace.always_congr (I := PrevoteSlot) (fun _ _ h => prevoteSlot_step h)
    (fun _ _ h => phaseOrder_iff_inPhase h) (by intro p hp; simp [initial] at hp)

/-- Three precommits, and no prevote, finalize a block of four validators. -/
theorem phase_order_fails :
    ¬ ∀ (env : Env) (validators : List Validator) (viewTimeoutMs : UInt64) (ops : List Op),
      let e := ConsensusEngine.new validators viewTimeoutMs
      Trace.Always (e.step env) (e.PhaseOrder env) .initial ops := by
  intro h
  have hrun := h Sample.env (Sample.validators 4) 3000
    [.receive .preCommit (Sample.vote 0 .preCommit 1) 0,
      .receive .preCommit (Sample.vote 1 .preCommit 1) 0,
      .receive .preCommit (Sample.vote 2 .preCommit 1) 0]
  obtain ⟨p, q, hp, -⟩ := hrun.2.2.1.1 (by decide) (by decide)
  exact absurd (Option.isSome_iff_exists.mpr ⟨p, hp⟩) (by decide)

-- ---------------------------------------------------------------------------
-- Locks
-- ---------------------------------------------------------------------------

variable (env e)

/-- A lock that moves to another block moves with a quorum for that block, and
not back to an earlier round. -/
def LockSafe (s : Consensus) (op : Op) : Prop :=
  ∀ b b', s.lockedBlock = some b → (e.step env s op).lockedBlock = some b' → b' ≠ b →
    ∃ qc, (e.step env s op).lockedQc = some qc ∧ qc.blockHash = b' ∧
      e.threshold ≤ qc.signatures.length ∧ ∀ q, s.lockedQc = some q → q.round ≤ qc.round

/-- What a call that moves the lock must bring: as many signatures as the
threshold for the new block, and a round not before that of the lock. -/
def LockCall (s : Consensus) : Op → Prop
  | .receive .preVote vote _ => s.Admits .preVote vote → e.Reaches .preVote vote s →
    ∀ q, s.lockedQc = some q → q.blockHash ≠ vote.blockHash →
      e.threshold ≤ ((s.record vote).backers .preVote vote.blockHash).card ∧ q.round ≤ s.round
  | .propose _ (some qc) => s.state = .propose →
    ∀ q, s.lockedQc = some q → q.blockHash ≠ qc.blockHash →
      e.threshold ≤ qc.signatures.length ∧ q.round ≤ qc.round
  | _ => True

/-- The lock is on the block of its certificate. -/
def Locked (s : Consensus) : Prop := s.lockedBlock = s.lockedQc.map QuorumCertificate.blockHash

variable {env e}

theorem Locked.eq_some {s : Consensus} (h : Locked s) {b : Bytes 32} :
    s.lockedBlock = some b ↔ ∃ q, s.lockedQc = some q ∧ q.blockHash = b := by
  rw [h, Option.map_eq_some_iff]

theorem locked_step {s : Consensus} {op : Op} (h : Locked s) : Locked (e.step env s op) := by
  cases op with
  | startNewView height round => exact h
  | propose block qc =>
    simp only [step, propose]
    split
    · exact h
    · cases qc with
      | none => exact h
      | some qc => rfl
  | receive t vote now =>
    rcases receive_cases env e t vote now s with ⟨-, msg, heq⟩ | ⟨-, -, heq⟩ | ⟨-, -, heq⟩
    · simpa only [step, heq] using h
    · simp only [step, heq]
      exact h
    · simp only [step, heq]
      cases t with
      | preVote =>
        simp only [Locked, certify, record_lockedBlock, built_blockHash]
        by_cases hl : s.lockedBlock = some vote.blockHash
        · rw [if_pos hl, ← hl]
          exact h
        · rw [if_neg hl]
          simp
      | preCommit => exact h
  | commit qc =>
    simp only [step, commit]
    split <;> exact h
  | advanceToNextView => exact h
  | advanceToNextHeight => rfl

theorem lockSafe_of_same {s : Consensus} {op : Op}
    (h : (e.step env s op).lockedBlock = s.lockedBlock) : e.LockSafe env s op := by
  intro b b' hb hb' hne
  exact absurd (Option.some.inj (hb'.symm.trans (h.trans hb))) hne

theorem lockSafe_iff_of_moves {s : Consensus} {op : Op} {qc : QuorumCertificate} (hlock : Locked s)
    (hb : (e.step env s op).lockedBlock = some qc.blockHash)
    (hq : s.lockedBlock ≠ some qc.blockHash → (e.step env s op).lockedQc = some qc) :
    e.LockSafe env s op ↔ ∀ q, s.lockedQc = some q → q.blockHash ≠ qc.blockHash →
      e.threshold ≤ qc.signatures.length ∧ q.round ≤ qc.round := by
  constructor
  · intro h q hold hne
    have hwas := hlock.eq_some.mpr ⟨q, hold, rfl⟩
    obtain ⟨qc', hnew, -, hlen, hround⟩ := h q.blockHash qc.blockHash hwas hb hne.symm
    obtain rfl := Option.some.inj (hnew.symm.trans (hq (by simpa [hwas] using hne)))
    exact ⟨hlen, hround q hold⟩
  · intro h b b' hwas hmoved hne
    obtain ⟨q, hold, rfl⟩ := hlock.eq_some.mp hwas
    obtain rfl := Option.some.inj (hmoved.symm.trans hb)
    obtain ⟨hlen, hround⟩ := h q hold hne.symm
    refine ⟨qc, hq (by simpa [hwas] using hne.symm), rfl, hlen, fun r hr => ?_⟩
    obtain rfl := Option.some.inj (hr.symm.trans hold)
    exact hround

theorem lockSafe_iff_lockCall {s : Consensus} {op : Op} (hlock : Locked s) :
    e.LockSafe env s op ↔ e.LockCall s op := by
  cases op with
  | startNewView height round => exact ⟨fun _ => trivial, fun _ => lockSafe_of_same rfl⟩
  | propose block qc =>
    by_cases hs : s.state = .propose
    · cases qc with
      | none => exact ⟨fun _ => trivial, fun _ => lockSafe_of_same (by simp [step, propose, hs])⟩
      | some qc =>
        have hb : (e.step env s (.propose block (some qc))).lockedBlock = some qc.blockHash := by
          simp [step, propose, hs]
        have hq : (e.step env s (.propose block (some qc))).lockedQc = some qc := by
          simp [step, propose, hs]
        rw [lockSafe_iff_of_moves hlock hb fun _ => hq]
        exact ⟨fun h _ => h, fun h => h hs⟩
    · refine ⟨fun _ => ?_, fun _ => lockSafe_of_same (by simp [step, propose, hs])⟩
      cases qc with
      | none => trivial
      | some qc => exact fun h => absurd h hs
  | receive t vote now =>
    rcases receive_cases env e t vote now s with ⟨ha, msg, heq⟩ | ⟨ha, hr, heq⟩ | ⟨ha, hr, heq⟩
    · refine ⟨fun _ => ?_, fun _ => lockSafe_of_same (by simp [step, heq])⟩
      cases t with
      | preVote => exact fun h => absurd h ha
      | preCommit => trivial
    · refine ⟨fun _ => ?_, fun _ => lockSafe_of_same (by simp [step, heq])⟩
      cases t with
      | preVote => exact fun _ h => absurd h hr
      | preCommit => trivial
    · have hstep : e.step env s (.receive t vote now) =
          (s.record vote).certify t (e.built env t vote s) now := by
        simp only [step, heq]
      cases t with
      | preCommit =>
        exact ⟨fun _ => trivial, fun _ => lockSafe_of_same (by rw [hstep]; rfl)⟩
      | preVote =>
        have hq : s.lockedBlock ≠ some (e.built env .preVote vote s).blockHash →
            (e.step env s (.receive .preVote vote now)).lockedQc =
              some (e.built env .preVote vote s) := by
          intro hl
          rw [built_blockHash] at hl
          rw [hstep]
          simp [certify, hl]
        rw [lockSafe_iff_of_moves hlock (by rw [hstep]; rfl) hq]
        simp only [LockCall, built_blockHash, built_length, built_round]
        exact ⟨fun h _ _ => h, fun h => h ha hr⟩
  | commit qc =>
    refine ⟨fun _ => trivial, fun _ => lockSafe_of_same ?_⟩
    simp only [step, commit]
    split <;> rfl
  | advanceToNextView => exact ⟨fun _ => trivial, fun _ => lockSafe_of_same rfl⟩
  | advanceToNextHeight =>
    refine ⟨fun _ => trivial, fun _ b b' _ hb' => ?_⟩
    simp [step, advanceToNextHeight] at hb'

variable (env) in
/-- The lock moves safely in a run just when the calls that move it bring what
they must. -/
theorem lock_safe_iff (validators : List Validator) (viewTimeoutMs : UInt64) (ops : List Op) :
    let e := ConsensusEngine.new validators viewTimeoutMs
    Trace.Always (e.step env) (e.LockSafe env) .initial ops ↔
      Trace.Always (e.step env) e.LockCall .initial ops :=
  Trace.always_congr (I := Locked) (fun _ _ h => locked_step h)
    (fun _ _ h => lockSafe_iff_lockCall h) rfl

/-- Three prevotes lock block 1; one of them changed to block 2 moves the lock,
with a certificate of one signature. -/
theorem lock_safe_fails :
    ¬ ∀ (env : Env) (validators : List Validator) (viewTimeoutMs : UInt64) (ops : List Op),
      let e := ConsensusEngine.new validators viewTimeoutMs
      Trace.Always (e.step env) (fun s op => (e.step env s op).height = s.height) .initial ops →
      Trace.Always (e.step env) (e.LockSafe env) .initial ops := by
  intro h
  have hrun := h Sample.env (Sample.validators 4) 3000
    [.receive .preVote (Sample.vote 0 .preVote 1) 0,
      .receive .preVote (Sample.vote 1 .preVote 1) 0,
      .receive .preVote (Sample.vote 2 .preVote 1) 0,
      .receive .preVote (Sample.vote 0 .preVote 2) 0] (by decide)
  obtain ⟨-, -, -, hmove, -⟩ := hrun
  have hlocked : Locked (Trace.exec
      ((ConsensusEngine.new (Sample.validators 4) 3000).step Sample.env) .initial
      [.receive .preVote (Sample.vote 0 .preVote 1) 0,
        .receive .preVote (Sample.vote 1 .preVote 1) 0,
        .receive .preVote (Sample.vote 2 .preVote 1) 0]) :=
    Trace.invariant (I := Locked) (s := Consensus.initial) (fun _ _ hl => locked_step hl) rfl _
  have hcall := (lockSafe_iff_lockCall hlocked).mp hmove (by decide) (by decide)
  obtain ⟨q, hq, hb⟩ := (hlocked.eq_some (b := Bytes.fill 32 1)).mp (by decide)
  have hbad := (hcall q hq (by rw [hb]; decide)).1
  revert hbad
  decide

end ConsensusEngine

end LiteVision.Truth
