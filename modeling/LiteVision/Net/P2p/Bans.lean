import LiteVision.Net.P2p

/-!
# Bans under interleaving

`add_peer` looks for a ban under one lock and inserts under another, and a ban can fall in
between. `bans_hold`: where that does not happen, no banned peer is left once all calls
are done; and where it does, the calls can end with one.
-/

namespace LiteVision.Net

open Lib

/-- The acquisition removes the peer, or its call goes on to do so. -/
def Acquisition.Removes (peerId : Bytes 32) : Acquisition → Prop
  | .removePeer id | .markDisconnected id | .insertBanned id => id = peerId
  | .checkBanned _ | .checkDiscovered _ | .insertPeer _ | .markConnected _ => False

def Acquisition.weight : Acquisition → Nat
  | .insertPeer _ | .markConnected _ | .removePeer _ => 1
  | .checkBanned _ | .checkDiscovered _ | .markDisconnected _ | .insertBanned _ => 2

-- ---------------------------------------------------------------------------
-- One acquisition
-- ---------------------------------------------------------------------------

namespace P2PNetwork

open Acquisition

variable {net : P2PNetwork} {now : UInt64} {a b : Acquisition} {id : Bytes 32}

theorem checkBanned_state (net : P2PNetwork) (peer : Peer) : (net.checkBanned peer).2 = net := by
  unfold checkBanned
  split <;> rfl

theorem checkBanned_next {peer : Peer} (h : b ∈ (net.checkBanned peer).1) : b = .insertPeer peer := by
  unfold checkBanned at h
  split at h
  · cases h
  · exact List.mem_singleton.mp h

theorem acquire_weight (now : UInt64) (a : Acquisition) (net : P2PNetwork) :
    ((acquire now a net).1.map weight).sum < a.weight := by
  cases a with
  | checkBanned | checkDiscovered =>
    simp only [acquire, checkBanned]
    split <;> simp [weight]
  | _ => simp [acquire, weight]

theorem acquire_banned : id ∈ (acquire now a net).2.banned ↔ id ∈ net.banned ∨ a = .insertBanned id := by
  cases a <;> simp [acquire, checkBanned_state, or_comm, eq_comm]

theorem acquire_peers : (acquire now a net).2.peers.get id ≠ none ↔
    (∃ peer, a = .insertPeer peer ∧ peer.id = id) ∨
      net.peers.get id ≠ none ∧ a ≠ .removePeer id := by
  cases a with
  | insertPeer peer =>
    by_cases hid : id = peer.id
    · simp [acquire, hid]
    · simp [acquire, Map.get_insert, hid, Ne.symm hid]
  | checkBanned | checkDiscovered => simp [acquire, checkBanned_state]
  | markConnected peerId | markDisconnected peerId =>
    by_cases hid : id = peerId <;> simp [acquire, Map.get_modify, hid]
  | removePeer peerId =>
    by_cases hid : id = peerId
    · simp [acquire, hid]
    · simp [acquire, Map.get_erase, hid, Ne.symm hid]
  | insertBanned peerId => simp [acquire]

theorem acquire_removes (h : a.Removes id) :
    a = .removePeer id ∨ ∃ b ∈ (acquire now a net).1, b.Removes id := by
  cases a with
  | removePeer peerId => exact .inl (congrArg Acquisition.removePeer h)
  | markDisconnected peerId | insertBanned peerId =>
    exact .inr ⟨.removePeer peerId, List.mem_singleton_self _, h⟩
  | checkBanned | checkDiscovered | insertPeer | markConnected => exact h.elim

theorem removes_of_next (hb : b ∈ (acquire now a net).1) (h : b.Removes id) : a.Removes id := by
  cases a with
  | checkBanned peer =>
    rw [checkBanned_next hb] at h
    exact h.elim
  | checkDiscovered info =>
    rw [checkBanned_next hb] at h
    exact h.elim
  | markDisconnected peerId | insertBanned peerId =>
    rw [List.mem_singleton.mp hb] at h
    exact h
  | insertPeer | markConnected | removePeer => cases hb

end P2PNetwork

-- ---------------------------------------------------------------------------
-- Runs
-- ---------------------------------------------------------------------------

namespace Sessions

open Acquisition P2PNetwork

/-- No banned peer is there. -/
def BansHold (sys : Sessions) : Prop := ∀ id ∈ sys.state.banned, sys.state.peers.get id = none

/-- A banned peer is there only as long as some call is yet to remove it. -/
def BansPending (sys : Sessions) : Prop :=
  ∀ id ∈ sys.state.banned, sys.state.peers.get id = none ∨ sys.Awaits (Removes id)

/-- A banned peer is there and no call is to remove it. -/
def Evades (sys : Sessions) (id : Bytes 32) : Prop :=
  id ∈ sys.state.banned ∧ sys.state.peers.get id ≠ none ∧ ¬ sys.Awaits (Removes id)

/-- A peer that gets inserted has not been banned since it was checked, or a call is yet
to remove it. -/
def InsertsUnbanned (sys : Sessions) : Action → Prop
  | .call .. => True
  | .resume task _ => ∀ peer rest, sys.tasks[task]? = some (.insertPeer peer :: rest) →
      peer.id ∈ sys.state.banned → sys.Awaits (Removes peer.id)

variable {c : Crypto} {sys : Sessions} {id : Bytes 32}

theorem bansPending_schedule {a : Action} (h : BansPending sys) (ha : InsertsUnbanned sys a) :
    BansPending (schedule c sys a) := by
  cases a with
  | call call now =>
    intro id hid
    exact (h id hid).imp_right fun hawaits => Tasks.System.awaits_spawn.mpr (.inl hawaits)
  | resume task now =>
    rcases Tasks.System.resume_cases (acquire now) sys task with hsame | ⟨a, rest, hget⟩
    · rw [schedule, hsame]
      exact h
    · intro id hid
      rw [schedule, Tasks.System.resume_state hget] at hid ⊢
      have hawaits : sys.Awaits (Removes id) → (acquire now a sys.state).2.peers.get id = none ∨
          (schedule c sys (.resume task now)).Awaits (Removes id) := by
        intro hold
        by_cases hremove : a = .removePeer id
        · exact .inl (by simp [hremove, acquire])
        · exact .inr (hold.resume hget fun hr => (acquire_removes hr).resolve_left hremove)
      rcases acquire_banned.mp hid with hbanned | rfl
      · rcases h id hbanned with habsent | hold
        · by_cases hafter : (acquire now a sys.state).2.peers.get id = none
          · exact .inl hafter
          · -- it was not there before, so this is its insertion
            rcases acquire_peers.mp hafter with ⟨peer, rfl, rfl⟩ | ⟨hbefore, -⟩
            · exact hawaits (ha peer rest hget hbanned)
            · exact absurd habsent hbefore
        · exact hawaits hold
      · exact .inr (Tasks.System.awaits_of_next hget (List.mem_singleton_self _) rfl)

theorem evades_resume {task : Nat} {now : UInt64} (h : Evades sys id) :
    Evades (schedule c sys (.resume task now)) id := by
  rcases Tasks.System.resume_cases (acquire now) sys task with hsame | ⟨a, rest, hget⟩
  · rw [schedule, hsame]
    exact h
  · obtain ⟨hbanned, hpresent, hno⟩ := h
    have ha : ¬ a.Removes id := fun hr =>
      hno ⟨_, List.mem_of_getElem? hget, a, List.mem_cons_self, hr⟩
    rw [Evades, schedule, Tasks.System.resume_state hget]
    refine ⟨acquire_banned.mpr (.inl hbanned), acquire_peers.mpr (.inr ⟨hpresent, ?_⟩), ?_⟩
    · rintro rfl
      exact ha rfl
    · intro hawaits
      rcases Tasks.System.awaits_of_resume hget hawaits with hold | ⟨b, hb, hr⟩
      · exact hno hold
      · exact ha (removes_of_next hb hr)

theorem exists_evades {a : Action} (h : ¬ InsertsUnbanned sys a) :
    ∃ id, Evades (schedule c sys a) id := by
  cases a with
  | call => exact absurd trivial h
  | resume task now =>
    simp only [InsertsUnbanned, not_forall] at h
    obtain ⟨peer, rest, hget, hbanned, hno⟩ := h
    refine ⟨peer.id, ?_, ?_, ?_⟩
    · rw [schedule, Tasks.System.resume_state hget]
      exact hbanned
    · rw [schedule, Tasks.System.resume_state hget]
      simp [acquire]
    · intro hawaits
      rcases Tasks.System.awaits_of_resume hget hawaits with hold | ⟨b, hb, -⟩
      · exact hno hold
      · cases hb

theorem bansHold_of_idle (h : BansPending sys) (hidle : sys.Idle) : BansHold sys :=
  fun id hid => (h id hid).resolve_right hidle.not_awaits

variable (c) in
/-- Whatever evades a ban is still there when all calls are done. -/
theorem exists_idle_evading (h : Evades sys id) :
    ∃ finish : List Nat,
      let done := Trace.exec (schedule c) sys (finish.map fun task => .resume task 0)
      done.Idle ∧ ¬ BansHold done := by
  obtain ⟨order, hidle⟩ := Tasks.System.exists_idle (acquire_weight 0) sys
  have hfold : Trace.exec (schedule c) sys (order.map fun task => .resume task 0) =
      order.foldl (Tasks.System.resume (acquire 0)) sys := List.foldl_map
  have hresumes : Trace.Always (schedule c) (fun _ a => ∃ task now, a = .resume task now) sys
      (order.map fun task => .resume task 0) := by
    refine Trace.always_of_forall_mem fun a ha _ => ?_
    obtain ⟨task, -, rfl⟩ := List.mem_map.mp ha
    exact ⟨task, 0, rfl⟩
  have hevades := hresumes.exec (I := fun sys : Sessions => Evades sys id)
    (by rintro sys _ hsys ⟨task, now, rfl⟩; exact evades_resume hsys) h
  exact ⟨order, hfold ▸ hidle, fun hhold => hevades.2.1 (hhold id hevades.1)⟩

/-- In a run in which no peer gets inserted past its ban, no banned peer is there whenever
all calls are done. Where one does, the calls in progress can end with a banned peer. -/
theorem bans_hold (c : Crypto) (run : List Action) :
    (Trace.Always (schedule c) InsertsUnbanned initial run →
      ∀ before, before <+: run → (Trace.exec (schedule c) initial before).Idle →
        BansHold (Trace.exec (schedule c) initial before)) ∧
    ∀ a, ¬ InsertsUnbanned (Trace.exec (schedule c) initial run) a →
      ∃ finish : List Nat,
        let done := Trace.exec (schedule c) initial
          (run ++ a :: finish.map fun task => .resume task 0)
        done.Idle ∧ ¬ BansHold done := by
  constructor
  · rintro hrun before ⟨rest, rfl⟩ hidle
    have hbefore := ((Trace.always_append before rest).mp hrun).1
    refine bansHold_of_idle ?_ hidle
    exact hbefore.exec (I := fun sys : Sessions => BansPending sys)
      (fun _ _ h ha => bansPending_schedule h ha) (fun id hid => by cases hid)
  · intro a ha
    obtain ⟨id, hevades⟩ := exists_evades (c := c) ha
    obtain ⟨finish, hdone⟩ := exists_idle_evading c hevades
    refine ⟨finish, ?_⟩
    rw [Trace.exec_append, Trace.exec_cons]
    exact hdone

/-- A peer is banned before it is added, and another one is added. -/
theorem bans_hold_banned_first :
    let c : Crypto := { blake3 := fun _ => .fill 32 0, ed25519Verify := fun _ _ _ => true }
    let peer (b : UInt8) : Peer := .new (.fill 32 b) "127.0.0.1" 8080 0
    let run : List Action := [.call (.banPeer (.fill 32 2)) 0, .resume 0 0,
      .call (.addPeer (peer 2)) 0, .resume 1 0, .resume 0 0, .call (.addPeer (peer 3)) 0,
      .resume 2 0, .resume 2 0]
    Trace.Always (schedule c) InsertsUnbanned initial run ∧
      BansHold (Trace.exec (schedule c) initial run) := by
  intro c peer run
  have hrun : Trace.Always (schedule c) InsertsUnbanned initial run := by
    refine ⟨trivial, ?_, trivial, ?_, ?_, trivial, ?_, ?_, trivial⟩
    · rintro _ _ ⟨⟩
    · rintro _ _ ⟨⟩
    · rintro _ _ ⟨⟩
    · rintro _ _ ⟨⟩
    · rintro _ _ ⟨⟩ hbanned
      exact absurd hbanned (by decide)
  exact ⟨hrun, (bans_hold c run).1 hrun run List.prefix_rfl (by unfold Tasks.System.Idle; decide)⟩

/-- A peer is banned and removed between the check for a ban and its insertion. -/
theorem bans_hold_fails :
    ¬ ∀ (c : Crypto) (run : List Action), (Trace.exec (schedule c) initial run).Idle →
      BansHold (Trace.exec (schedule c) initial run) := by
  intro h
  let c : Crypto := { blake3 := fun _ => .fill 32 0, ed25519Verify := fun _ _ _ => true }
  have hhold := h c [.call (.addPeer (.new (.fill 32 2) "127.0.0.1" 8080 0)) 0, .resume 0 0,
    .call (.banPeer (.fill 32 2)) 0, .resume 1 0, .resume 1 0, .resume 0 0]
    (by unfold Tasks.System.Idle; decide)
  exact absurd (hhold (.fill 32 2) (by decide)) (by decide)

end Sessions

end LiteVision.Net
