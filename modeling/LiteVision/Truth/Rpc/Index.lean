import LiteVision.Truth.Rpc

/-!
# Looking transactions up

A submitted transaction is indexed under its hash before it goes to the mempool. Nothing is
found that was not handed in under the key it is found under, and a transaction of the
mempool that came over RPC is found at once. `submitted_found`: it is that transaction, as
long as no other one has its hash as an id.
-/

namespace LiteVision.Truth.Rpc

open Lib Tasks

variable {c : Crypto} {bincode : Codec UInt8 Transaction} {actions : List Action}
  {sys : Tasks.System NodeState Acquisition}

/-- The acquisition writes an entry under `key`. -/
def Acquisition.Indexes (key : Bytes 32) : Acquisition → Prop
  | index entries => ∃ entry ∈ entries, entry.1 = key
  | insertBlock _ | pushMempool _ | read => False

theorem spawn_mem_events {task : List Acquisition} :
    .spawn task ∈ actions.map (Action.event c bincode) ↔
      ∃ call ∈ calls actions, task = call.acquisitions c bincode := by
  simp only [List.mem_map, calls, List.mem_filterMap]
  constructor
  · rintro ⟨action, hmem, hevent⟩
    cases action with
    | call call =>
      cases hevent
      exact ⟨call, ⟨_, hmem, rfl⟩, rfl⟩
    | resume task => cases hevent
  · rintro ⟨call, ⟨action, hmem, hcall⟩, rfl⟩
    cases action with
    | call call =>
      cases hcall
      exact ⟨_, hmem, rfl⟩
    | resume task => cases hcall

theorem index_mem_acquisitions {call : Call} {entries : List (Bytes 32 × Transaction)}
    (h : .index entries ∈ call.acquisitions c bincode) : entries = call.entries c bincode := by
  cases call with
  | handleRequest request => cases request <;> simp_all [Call.acquisitions]
  | _ => simpa [Call.acquisitions] using h

theorem of_get_acquire {a : Acquisition} {node : NodeState} {key : Bytes 32} {tx : Transaction}
    (h : (NodeState.acquire a node).2.getTransaction key = some tx) :
    node.getTransaction key = some tx ∨ ∃ entries, a = .index entries ∧ (key, tx) ∈ entries := by
  cases a with
  | index entries =>
    rcases Map.get_foldl_insert Prod.fst Prod.snd h with ⟨entry, hentry, rfl, rfl⟩ | hold
    · exact .inr ⟨entries, rfl, hentry⟩
    · exact .inl hold
  | _ => exact .inl h

theorem isSome_foldl_insert {entries : List (Bytes 32 × Transaction)}
    {txs : Map (Bytes 32) Transaction} {key : Bytes 32}
    (h : (∃ entry ∈ entries, entry.1 = key) ∨ ∃ tx, txs.get key = some tx) :
    ∃ tx, (entries.foldl (fun txs entry => txs.insert entry.1 entry.2) txs).get key = some tx := by
  induction entries generalizing txs with
  | nil => simpa using h
  | cons entry entries ih =>
    refine ih ?_
    rcases h with ⟨found, hmem, rfl⟩ | hold
    · rcases List.mem_cons.mp hmem with rfl | hmem
      · exact .inr ⟨_, Map.get_insert_self ..⟩
      · exact .inl ⟨found, hmem, rfl⟩
    · exact .inr (Map.exists_get_insert entry.1 entry.2 hold)

theorem isSome_acquire {a : Acquisition} {key : Bytes 32} (node : NodeState)
    (h : a.Indexes key ∨ ∃ tx, node.getTransaction key = some tx) :
    ∃ tx, (NodeState.acquire a node).2.getTransaction key = some tx := by
  cases a with
  | index entries => exact isSome_foldl_insert h
  | _ => exact h.resolve_left id

-- ---------------------------------------------------------------------------
-- What is found
-- ---------------------------------------------------------------------------

/-- What is found, and what is about to be written, is from `source`. -/
structure From (source : Set (Bytes 32 × Transaction))
    (sys : Tasks.System NodeState Acquisition) : Prop where
  found : ∀ key tx, sys.state.getTransaction key = some tx → (key, tx) ∈ source
  coming : ∀ task ∈ sys.tasks, ∀ entries, .index entries ∈ task → ∀ entry ∈ entries, entry ∈ source

theorem From.resume {source : Set (Bytes 32 × Transaction)} {i : Nat} {a : Acquisition}
    {rest : List Acquisition} (hget : sys.tasks[i]? = some (a :: rest)) (h : From source sys) :
    From source (sys.resume NodeState.acquire i) := by
  have htask := List.mem_of_getElem? hget
  refine ⟨fun key tx hfound => ?_, fun task hmem entries hindex => ?_⟩
  · rw [System.resume_state hget] at hfound
    rcases of_get_acquire hfound with hold | ⟨entries, rfl, hentry⟩
    · exact h.found key tx hold
    · exact h.coming _ htask entries List.mem_cons_self _ hentry
  · rw [System.resume_eq hget] at hmem
    have hnext : (NodeState.acquire a sys.state).1 = [] := by cases a <;> rfl
    rw [hnext, List.nil_append] at hmem
    rcases List.mem_or_eq_of_mem_set hmem with hold | rfl
    · exact h.coming task hold entries hindex
    · exact h.coming _ htask entries (List.mem_cons_of_mem a hindex)

/-- Nothing is found under a key but what a call handed in under it. -/
theorem found_run {key : Bytes 32} {tx : Transaction}
    (h : (run c bincode actions).state.getTransaction key = some tx) :
    ∃ call ∈ calls actions, (key, tx) ∈ call.entries c bincode := by
  have hfrom : From {entry | ∃ call ∈ calls actions, entry ∈ call.entries c bincode}
      (run c bincode actions) := by
    refine System.run_induction ?_ ?_ ?_
    · exact ⟨fun key tx h => (nomatch h), fun task htask => (nomatch htask)⟩
    · intro sys task htask hsys
      obtain ⟨call, hcall, rfl⟩ := spawn_mem_events.mp htask
      refine ⟨hsys.found, fun task hmem entries hindex entry hentry => ?_⟩
      rcases List.mem_append.mp hmem with hold | hnew
      · exact hsys.coming task hold entries hindex entry hentry
      · obtain rfl := List.mem_singleton.mp hnew
        obtain rfl := index_mem_acquisitions hindex
        exact ⟨call, hcall, hentry⟩
    · exact fun sys i a rest hget hsys => hsys.resume hget
  exact hfrom.found key tx h

/-- An entry of a call is written, or about to be. -/
theorem indexed_run {call : Call} (hcall : call ∈ calls actions) {entry : Bytes 32 × Transaction}
    (hentry : entry ∈ call.entries c bincode) :
    (∃ tx, (run c bincode actions).state.getTransaction entry.1 = some tx) ∨
      (run c bincode actions).Awaits (Acquisition.Indexes entry.1) := by
  induction actions using List.reverseRecOn with
  | nil => cases hcall
  | append_singleton actions action ih =>
    rw [run, List.map_append, System.run, List.map_singleton, Trace.exec_concat, ← System.run,
      ← run]
    cases action with
    | call made =>
      rw [calls, List.filterMap_append, List.mem_append] at hcall
      rcases hcall with hbefore | hnow
      · rcases ih hbefore with hfound | hawaits
        · exact .inl hfound
        · exact .inr (System.awaits_spawn.mpr (.inl hawaits))
      · obtain rfl := List.mem_singleton.mp hnow
        have hindexes : Acquisition.Indexes entry.1 (.index (call.entries c bincode)) :=
          ⟨entry, hentry, rfl⟩
        refine .inr (System.awaits_spawn.mpr (.inr ⟨.index (call.entries c bincode), ?_, hindexes⟩))
        cases call with
        | handleRequest request =>
          cases request with
          | submitTransaction tx => simp [Call.acquisitions]
          | _ => cases hentry
        | _ => simp [Call.acquisitions]
    | resume i =>
      have hbefore := ih (by simpa [calls, List.filterMap_append, Action.call?] using hcall)
      rw [Action.event, System.schedule]
      rcases System.resume_cases NodeState.acquire (run c bincode actions) i with
        hsame | ⟨a, rest, hget⟩
      · rw [hsame]
        exact hbefore
      · rw [System.resume_state hget]
        rcases hbefore with hfound | hawaits
        · exact .inl (isSome_acquire _ (.inr hfound))
        · rcases hawaits.resume_or hget with hstill | htaken
          · exact .inr hstill
          · exact .inl (isSome_acquire _ (.inl htaken))

-- ---------------------------------------------------------------------------
-- Submitted transactions
-- ---------------------------------------------------------------------------

/-- While nothing is found under the hash of `tx`, the calls that will put it in the mempool
are yet to index it. -/
def Ordered (c : Crypto) (bincode : Codec UInt8 Transaction) (tx : Transaction)
    (sys : Tasks.System NodeState Acquisition) : Prop :=
  sys.state.getTransaction (txHash c bincode tx) = none →
    tx ∉ sys.state.mempool ∧ ∀ task ∈ sys.tasks, .pushMempool tx ∈ task →
      task = [.index [(txHash c bincode tx, tx)], .pushMempool tx]

theorem Ordered.resume {tx : Transaction} {i : Nat} {a : Acquisition} {rest : List Acquisition}
    (hget : sys.tasks[i]? = some (a :: rest)) (h : Ordered c bincode tx sys) :
    Ordered c bincode tx (sys.resume NodeState.acquire i) := by
  intro hnone
  rw [System.resume_state hget] at hnone ⊢
  have hbefore : sys.state.getTransaction (txHash c bincode tx) = none := by
    rw [Option.eq_none_iff_forall_ne_some]
    intro found hfound
    obtain ⟨found', hfound'⟩ := isSome_acquire (a := a) _ (.inr ⟨found, hfound⟩)
    rw [hfound'] at hnone
    cases hnone
  obtain ⟨hpool, htasks⟩ := h hbefore
  have htask := htasks _ (List.mem_of_getElem? hget)
  constructor
  · cases a with
    | pushMempool tx' =>
      intro hmem
      rcases List.mem_append.mp hmem with hold | hnew
      · exact hpool hold
      · -- the push of `tx` is not the first step of its task
        obtain rfl := List.mem_singleton.mp hnew
        cases htask List.mem_cons_self
    | _ => exact hpool
  · intro task hmem hpush
    rw [System.resume_eq hget] at hmem
    have hnext : (NodeState.acquire a sys.state).1 = [] := by cases a <;> rfl
    rw [hnext, List.nil_append] at hmem
    rcases List.mem_or_eq_of_mem_set hmem with hold | rfl
    · exact htasks task hold hpush
    · -- the step taken is the one that indexes `tx`, and then it is found
      obtain ⟨rfl, rfl⟩ := List.cons.inj (htask (List.mem_cons_of_mem a hpush))
      obtain ⟨found, hfound⟩ := isSome_acquire sys.state
        (a := .index [(txHash c bincode tx, tx)]) (.inl ⟨_, List.mem_singleton_self _, rfl⟩)
      rw [hfound] at hnone
      cases hnone

theorem ordered_run {tx : Transaction} (hadd : .addTransaction tx ∉ calls actions) :
    Ordered c bincode tx (run c bincode actions) := by
  refine System.run_induction ?_ ?_ ?_
  · exact fun _ => ⟨by simp [NodeState.new], by simp⟩
  · intro sys task htask hsys hnone
    obtain ⟨hpool, htasks⟩ := hsys hnone
    refine ⟨hpool, fun task' hmem hpush => ?_⟩
    rcases List.mem_append.mp hmem with hold | hnew
    · exact htasks task' hold hpush
    · obtain rfl := List.mem_singleton.mp hnew
      obtain ⟨call, hcall, rfl⟩ := spawn_mem_events.mp htask
      cases call with
      | storeBlock block => simp [Call.acquisitions] at hpush
      | addTransaction tx' =>
        have heq : tx = tx' := by simpa [Call.acquisitions] using hpush
        subst heq
        exact absurd hcall hadd
      | handleRequest request =>
        cases request with
        | submitTransaction tx' =>
          have heq : tx = tx' := by simpa [Call.acquisitions] using hpush
          subst heq
          rfl
        | _ => simp [Call.acquisitions] at hpush
  · exact fun sys i a rest hget hsys => hsys.resume hget

theorem exists_of_mem_mempool {tx : Transaction} (hadd : .addTransaction tx ∉ calls actions)
    (hpool : tx ∈ (run c bincode actions).state.mempool) :
    ∃ tx', (run c bincode actions).state.getTransaction (txHash c bincode tx) = some tx' := by
  cases hfound : (run c bincode actions).state.getTransaction (txHash c bincode tx) with
  | some tx' => exact ⟨tx', rfl⟩
  | none => exact absurd hpool (ordered_run hadd hfound).1

/-- However calls interleave: a lookup finds only what some call handed in under that key; once
all calls are through, it finds something under every key that one was handed in under; and at
any time it finds something for a transaction of the mempool that only came over RPC. -/
theorem index_run (c : Crypto) (bincode : Codec UInt8 Transaction) (actions : List Action) :
    (∀ key tx, (run c bincode actions).state.getTransaction key = some tx →
      ∃ call ∈ calls actions, (key, tx) ∈ call.entries c bincode) ∧
    ((run c bincode actions).Idle → ∀ call ∈ calls actions, ∀ entry ∈ call.entries c bincode,
      ∃ tx, (run c bincode actions).state.getTransaction entry.1 = some tx) ∧
    ∀ tx ∈ (run c bincode actions).state.mempool, .addTransaction tx ∉ calls actions →
      ∃ tx', (run c bincode actions).state.getTransaction (txHash c bincode tx) = some tx' := by
  refine ⟨fun key tx => found_run, fun hidle call hcall entry hentry => ?_, fun tx htx hadd => ?_⟩
  · exact (indexed_run hcall hentry).resolve_right hidle.not_awaits
  · exact exists_of_mem_mempool hadd htx

/-- As long as `blake3` does not collide on submitted transactions, and none of the stored or
added ones has the hash of `tx` for an id: a transaction of the mempool that only came over RPC
is found under its hash, whatever else is under way. -/
theorem submitted_found (c : Crypto) (bincode : Codec UInt8 Transaction)
    (inputs : Set (List UInt8)) (hblake3 : Set.InjOn c.blake3 inputs) (actions : List Action)
    (tx : Transaction)
    (hsubmitted : ∀ tx', .handleRequest (.submitTransaction tx') ∈ calls actions →
      bincode.Fits tx' ∧ bincode.write tx' ∈ inputs)
    (hblocks : ∀ block, .storeBlock block ∈ calls actions →
      ∀ tx' ∈ block.transactions, tx'.id ≠ txHash c bincode tx)
    (hadded : ∀ tx', .addTransaction tx' ∈ calls actions →
      tx' ≠ tx ∧ tx'.id ≠ txHash c bincode tx)
    (hpool : tx ∈ (run c bincode actions).state.mempool) :
    (run c bincode actions).state.getTransaction (txHash c bincode tx) = some tx := by
  have hadd : .addTransaction tx ∉ calls actions := fun h => (hadded tx h).1 rfl
  obtain ⟨tx', hget⟩ := exists_of_mem_mempool hadd hpool
  -- the transaction itself was submitted, as it is in the mempool and was not added
  have hown : .handleRequest (.submitTransaction tx) ∈ calls actions := by
    have hmem := (mempool_perm c bincode actions).mem_iff.mp (List.mem_append_left _ hpool)
    obtain ⟨call, hcall, hin⟩ := List.mem_flatMap.mp hmem
    cases call with
    | storeBlock block => cases hin
    | addTransaction tx'' =>
      obtain rfl := List.mem_singleton.mp hin
      exact absurd hcall hadd
    | handleRequest request =>
      cases request with
      | submitTransaction tx'' =>
        obtain rfl := List.mem_singleton.mp hin
        exact hcall
      | _ => cases hin
  obtain ⟨call, hcall, hentry⟩ := found_run hget
  rw [hget]
  cases call with
  | storeBlock block =>
    obtain ⟨tx'', hin, heq⟩ := List.mem_map.mp hentry
    exact absurd (Prod.mk.inj heq).1 (hblocks block hcall tx'' hin)
  | addTransaction tx'' =>
    obtain ⟨hid, -⟩ := Prod.mk.inj (List.mem_singleton.mp hentry)
    exact absurd hid.symm (hadded tx'' hcall).2
  | handleRequest request =>
    cases request with
    | submitTransaction tx'' =>
      obtain ⟨hhash, rfl⟩ := Prod.mk.inj (List.mem_singleton.mp hentry)
      obtain ⟨hfits, hin⟩ := hsubmitted _ hcall
      obtain ⟨hfits', hin'⟩ := hsubmitted _ hown
      have hwrite := hblake3 hin' hin hhash
      rw [(Codec.write_eq_write_iff hfits' hfits).mp hwrite]
    | _ => cases hentry

/-- Two submissions whose locks are taken in turns; byte 76 is the first of the payload. -/
theorem submitted_found_two :
    let c : Crypto :=
      { blake3 := fun bytes => .fill 32 (bytes.getD 76 0), ed25519Verify := fun _ _ _ => true }
    let tx := Transaction.newEscrowRefund c (.fill 32 1)
    let tx' := Transaction.newEscrowRefund c (.fill 32 2)
    (run c Transaction.codec [.call (.handleRequest (.submitTransaction tx)),
      .call (.handleRequest (.submitTransaction tx')), .resume 1, .resume 0, .resume 1,
      .resume 0]).state.getTransaction (.fill 32 1) = some tx := by
  intro c tx tx'
  have hfits (jobId : Bytes 32) : Transaction.codec.Fits (.newEscrowRefund c jobId) := by
    simp [Transaction.codec, TransactionType.codec, Transaction.newEscrowRefund, Transaction.build,
      jobId.property]
  have hinj : Set.InjOn c.blake3 {Transaction.codec.write tx, Transaction.codec.write tx'} := by
    rw [Set.injOn_pair]
    intro heq
    exact absurd heq (by decide)
  refine submitted_found c Transaction.codec _ hinj _ tx ?_ (by simp [calls, Action.call?])
    (by simp [calls, Action.call?]) ?_
  · intro tx'' hmem
    have hcases : tx'' = tx ∨ tx'' = tx' := by simpa [calls, Action.call?] using hmem
    rcases hcases with rfl | rfl
    · exact ⟨hfits _, .inl rfl⟩
    · exact ⟨hfits _, .inr rfl⟩
  · decide

end LiteVision.Truth.Rpc
