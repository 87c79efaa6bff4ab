import LiteVision.Truth.Consensus.Votes

/-!
# The vote map and the history of a run

The engine keeps one vote for each validator, whatever its type. Its abstract
counterpart is the log of the votes accepted since the view was last changed:
`votes_eq_latest` says that the map holds the last vote of each validator in
that log, and so a certificate is a statement about the history.
-/

namespace LiteVision.Truth

open Lib

namespace Consensus

/-- The stored votes belong to the current view, each under its validator. -/
def Current (s : Consensus) : Prop :=
  ∀ id v, s.votes.get id = some v →
    v.height = s.height ∧ v.round = s.round ∧ v.validatorId = id

theorem current_initial : Current initial := by
  intro id v h
  simp [initial] at h

theorem Current.record {s : Consensus} {t : VoteType} {vote : Vote} (h : s.Current)
    (ha : s.Admits t vote) : (s.record vote).Current := by
  intro id v hv
  rw [record_votes] at hv
  rcases Map.of_get_insert hv with ⟨rfl, rfl⟩ | ⟨-, hold⟩
  · exact ⟨ha.1, ha.2.1, rfl⟩
  · exact h id v hold

end Consensus

namespace ConsensusEngine

open Consensus

variable (env : Env) (e : ConsensusEngine)

/-- What a call does to the view and to the votes stored for it: clear them,
leave them, or store one more vote of the view. -/
theorem step_view (s : Consensus) (op : Op) :
    (e.step env s op).votes = .empty ∨
    ((e.step env s op).votes = s.votes ∧ (e.step env s op).height = s.height ∧
      (e.step env s op).round = s.round) ∨
    ∃ t vote now, op = .receive t vote now ∧ s.Admits t vote ∧
      (e.step env s op).votes = (s.record vote).votes ∧ (e.step env s op).height = s.height ∧
      (e.step env s op).round = s.round := by
  cases op with
  | startNewView height round => exact .inl rfl
  | propose block qc =>
    refine .inr (.inl ?_)
    simp only [step, propose]
    split
    · exact ⟨rfl, rfl, rfl⟩
    · cases qc <;> exact ⟨rfl, rfl, rfl⟩
  | receive t vote now =>
    rcases receive_cases env e t vote now s with ⟨-, msg, heq⟩ | ⟨ha, -, heq⟩ | ⟨ha, -, heq⟩
    · exact .inr (.inl (by simp [step, heq]))
    · exact .inr (.inr ⟨t, vote, now, rfl, ha, by simp [step, heq]⟩)
    · exact .inr (.inr ⟨t, vote, now, rfl, ha, by simp [step, heq]⟩)
  | commit qc =>
    refine .inr (.inl ?_)
    simp only [step, commit]
    split <;> exact ⟨rfl, rfl, rfl⟩
  | advanceToNextView => exact .inl rfl
  | advanceToNextHeight => exact .inl rfl

theorem current_step (s : Consensus) (op : Op) (h : s.Current) : (e.step env s op).Current := by
  rcases step_view env e s op with hv | ⟨hv, hh, hr⟩ | ⟨t, vote, now, -, ha, hv, hh, hr⟩
  · intro id v hget
    simp [hv] at hget
  · intro id v hget
    rw [hv] at hget
    rw [hh, hr]
    exact h id v hget
  · intro id v hget
    rw [hv] at hget
    rw [hh, hr]
    exact h.record ha id v hget

theorem current_exec (ops : List Op) : (Trace.exec (e.step env) .initial ops).Current :=
  Trace.invariant (fun s op h => current_step env e s op h) current_initial ops

-- ---------------------------------------------------------------------------
-- The log of a view
-- ---------------------------------------------------------------------------

/-- The vote accepted last from a validator, in a log with the newest vote first. -/
def latest (log : List Vote) (id : Bytes 32) : Option Vote := log.find? fun v => v.validatorId = id

theorem latest_cons (vote : Vote) (log : List Vote) (id : Bytes 32) :
    latest (vote :: log) id = if id = vote.validatorId then some vote else latest log id := by
  by_cases h : id = vote.validatorId
  · simp [latest, h]
  · simp [latest, h, Ne.symm h]

/-- The log after a call: emptied by a change of view, longer by an accepted vote. -/
def logStep (s : Consensus) (log : List Vote) : Op → List Vote
  | .startNewView .. | .advanceToNextView | .advanceToNextHeight => []
  | .receive t vote now =>
    match (e.receive env t vote now s).1 with
    | .ok _ => vote :: log
    | .error _ => log
  | .propose .. | .commit _ => log

/-- The votes accepted in a run since its last change of view, newest first. -/
def viewLog (ops : List Op) : List Vote :=
  (Trace.exec (fun (p : Consensus × List Vote) op => (e.step env p.1 op, e.logStep env p.1 p.2 op))
    (.initial, []) ops).2

theorem exec_logged (p : Consensus × List Vote) (ops : List Op) :
    (Trace.exec (fun (p : Consensus × List Vote) op =>
      (e.step env p.1 op, e.logStep env p.1 p.2 op)) p ops).1 = Trace.exec (e.step env) p.1 ops := by
  induction ops generalizing p with
  | nil => rfl
  | cons op ops ih => exact ih _

theorem logStep_votes (s : Consensus) (log : List Vote) (op : Op)
    (h : ∀ id, s.votes.get id = latest log id) (id : Bytes 32) :
    (e.step env s op).votes.get id = latest (e.logStep env s log op) id := by
  cases op with
  | startNewView height round => simp [step, startNewView, logStep, latest]
  | propose block qc =>
    have hv : (e.step env s (.propose block qc)).votes = s.votes := by
      simp only [step, propose]
      split
      · rfl
      · cases qc <;> rfl
    rw [hv]
    exact h id
  | receive t vote now =>
    rcases receive_cases env e t vote now s with ⟨-, msg, heq⟩ | ⟨-, -, heq⟩ | ⟨-, -, heq⟩
    · simpa [step, logStep, heq] using h id
    · simp [step, logStep, heq, latest_cons, Map.get_insert, h id]
    · simp [step, logStep, heq, latest_cons, Map.get_insert, h id]
  | commit qc =>
    have hv : (step env e s (.commit qc)).votes = s.votes := by
      simp only [step, commit]
      split <;> rfl
    rw [hv]
    exact h id
  | advanceToNextView => simp [step, advanceToNextView, logStep, latest]
  | advanceToNextHeight => simp [step, advanceToNextHeight, logStep, latest]

/-- The vote map refines the log: it holds each validator's latest vote. -/
theorem votes_eq_latest (ops : List Op) (id : Bytes 32) :
    (Trace.exec (e.step env) .initial ops).votes.get id = latest (e.viewLog env ops) id := by
  have hinv : ∀ id, (Trace.exec (fun (p : Consensus × List Vote) op =>
      (e.step env p.1 op, e.logStep env p.1 p.2 op)) (.initial, []) ops).1.votes.get id =
        latest (e.viewLog env ops) id :=
    Trace.invariant (I := fun p : Consensus × List Vote => ∀ id, p.1.votes.get id = latest p.2 id)
      (fun p op h id => logStep_votes env e p.1 p.2 op h id)
      (fun id => by simp [initial, latest]) ops
  have h := hinv id
  rwa [exec_logged] at h

theorem viewLog_concat (ops : List Op) (op : Op) :
    e.viewLog env (ops ++ [op]) =
      e.logStep env (Trace.exec (e.step env) .initial ops) (e.viewLog env ops) op := by
  rw [viewLog, Trace.exec_concat]
  simp only [viewLog, exec_logged]

/-- What the map holds, what a refused call leaves, and what a certificate
lists, for every call of every run. -/
theorem vote_log_fidelity (validators : List Validator) (viewTimeoutMs : UInt64) (ops : List Op) :
    let e := ConsensusEngine.new validators viewTimeoutMs
    let s := Trace.exec (e.step env) .initial ops
    (∀ id v, s.votes.get id = some v →
      v.height = s.height ∧ v.round = s.round ∧ v.validatorId = id) ∧
    ∀ t vote now,
      (∀ msg, (e.receive env t vote now s).1 = .error msg → (e.receive env t vote now s).2 = s) ∧
      ∀ qc, (e.receive env t vote now s).1 = .ok (some qc) →
        (qc.signatures.map Prod.fst).Nodup ∧
        ∀ id signature, (id, signature) ∈ qc.signatures ↔
          ∃ v, latest (e.viewLog env (ops ++ [.receive t vote now])) id = some v ∧
            v.voteType = qc.voteType ∧ v.blockHash = qc.blockHash ∧ v.signature = signature := by
  intro e s
  refine ⟨current_exec env e ops, fun t vote now => ⟨?_, ?_⟩⟩
  · intro msg h
    rcases receive_cases env e t vote now s with ⟨-, _, heq⟩ | ⟨-, -, heq⟩ | ⟨-, -, heq⟩
    · rw [heq]
    · simp [heq] at h
    · simp [heq] at h
  · intro qc h
    obtain ⟨ha, hr, rfl⟩ := receive_some env e h
    have hlog : e.viewLog env (ops ++ [.receive t vote now]) = vote :: e.viewLog env ops := by
      rw [viewLog_concat, logStep, h]
    refine ⟨certificate_nodup, fun id signature => ?_⟩
    rw [built, mem_certificate, certificate_voteType, certificate_blockHash, hlog]
    have hget : (s.record vote).votes.get id = latest (vote :: e.viewLog env ops) id := by
      rw [record_votes, Map.get_insert, latest_cons, votes_eq_latest]
    rw [hget]

end ConsensusEngine

end LiteVision.Truth
