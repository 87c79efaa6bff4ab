import LiteVision.Net.P2p

/-!
# Discovered peers

The peers that another one lists are inserted as new ones, whether or not they are there. So
a peer that is there stays as it is just when it looks like the last of those that are listed
under its id, or has been banned.
-/

namespace LiteVision.Net

open Lib

/-- What a peer is known by: all but the time it was last seen. -/
structure Peer.SameFields (peer peer' : Peer) : Prop where
  address : peer'.address = peer.address
  port : peer'.port = peer.port
  status : peer'.status = peer.status
  latencyMs : peer'.latencyMs = peer.latencyMs
  version : peer'.version = peer.version

/-- The peer looks as if it had just been discovered with the port. -/
structure Peer.AsListed (peer : Peer) (listenPort : UInt16) : Prop where
  address : peer.address = ""
  port : peer.port = listenPort
  status : peer.status = .connecting
  latencyMs : peer.latencyMs = 0
  version : peer.version = 1

structure Listed where
  info : PeerInfo
  now : UInt64

def Listed.peer (listed : Listed) : Peer :=
  .new listed.info.peerId "" listed.info.listenPort listed.now

theorem Peer.sameFields_listed {peer : Peer} {listed : Listed} :
    peer.SameFields listed.peer ↔ peer.AsListed listed.info.listenPort :=
  ⟨fun h => ⟨h.address.symm, h.port.symm, h.status.symm, h.latencyMs.symm, h.version.symm⟩,
    fun h => ⟨h.address.symm, h.port.symm, h.status.symm, h.latencyMs.symm, h.version.symm⟩⟩

namespace P2PNetwork

variable {net : P2PNetwork} {listed : Listed} {peers : List Listed} {id : Bytes 32}

-- ---------------------------------------------------------------------------
-- Calls that are not interrupted
-- ---------------------------------------------------------------------------

def addPeer (net : P2PNetwork) (peer : Peer) : P2PNetwork :=
  if peer.id ∈ net.banned then net else { net with peers := net.peers.insert peer.id peer }

def handleDiscoveryResponse (net : P2PNetwork) (peers : List Listed) : P2PNetwork :=
  peers.foldl (fun net listed => net.addPeer listed.peer) net

def getActivePeers (it : Map.Iteration (Bytes 32) Peer) (net : P2PNetwork) : List Peer :=
  ((it.entries net.peers).map Prod.snd).filter fun peer => peer.status = .connected

theorem exists_times (net : P2PNetwork) (peers : List Listed) :
    ∃ times : List UInt64,
      times.foldl (fun sys now => sys.resume (acquire now) 0)
        (⟨net, [peers.map fun listed => .checkDiscovered listed.info]⟩ : Sessions) =
      ⟨net.handleDiscoveryResponse peers, [[]]⟩ := by
  induction peers generalizing net with
  | nil => exact ⟨[], rfl⟩
  | cons listed peers ih =>
    obtain ⟨times, hrest⟩ := ih (net.addPeer listed.peer)
    have hid : listed.peer.id = listed.info.peerId := rfl
    by_cases hbanned : listed.info.peerId ∈ net.banned
    · refine ⟨listed.now :: times, ?_⟩
      have hadd : net.addPeer listed.peer = net := if_pos hbanned
      have hcheck : (⟨net, [(listed :: peers).map fun listed => .checkDiscovered listed.info]⟩ :
          Sessions).resume (acquire listed.now) 0 =
          ⟨net, [peers.map fun listed => .checkDiscovered listed.info]⟩ := by
        simp [Tasks.System.resume, acquire, checkBanned, Peer.new, hbanned]
      rw [hadd] at hrest
      rw [List.foldl_cons, hcheck, hrest, handleDiscoveryResponse, handleDiscoveryResponse,
        List.foldl_cons, hadd]
    · refine ⟨listed.now :: listed.now :: times, ?_⟩
      have hcheck : (⟨net, [(listed :: peers).map fun listed => .checkDiscovered listed.info]⟩ :
          Sessions).resume (acquire listed.now) 0 =
          ⟨net, [.insertPeer listed.peer ::
            peers.map fun listed => .checkDiscovered listed.info]⟩ := by
        simp [Tasks.System.resume, acquire, checkBanned, Peer.new, hbanned, Listed.peer]
      have hinsert : (⟨net, [.insertPeer listed.peer ::
          peers.map fun listed => .checkDiscovered listed.info]⟩ :
          Sessions).resume (acquire listed.now) 0 =
          ⟨net.addPeer listed.peer, [peers.map fun listed => .checkDiscovered listed.info]⟩ := by
        simp [Tasks.System.resume, acquire, addPeer, hid, hbanned]
      rw [List.foldl_cons, hcheck, List.foldl_cons, hinsert, hrest, handleDiscoveryResponse,
        handleDiscoveryResponse, List.foldl_cons]

theorem exists_uninterrupted (c : Crypto) (now : UInt64) (peerId : Bytes 32) (net : P2PNetwork)
    (peers : List Listed) :
    let call := Call.handleDiscoveryResponse peerId (peers.map Listed.info)
    ∃ times : List UInt64,
      times.foldl (fun sys now => sys.resume (acquire now) 0)
        (⟨net, [call.acquisitions c now]⟩ : Sessions) =
      ⟨net.handleDiscoveryResponse peers, [[]]⟩ := by
  have htask := exists_times net peers
  rwa [← Function.comp_def Acquisition.checkDiscovered, ← List.map_map] at htask

-- ---------------------------------------------------------------------------
-- What the call leaves
-- ---------------------------------------------------------------------------

def lastListed (peers : List Listed) (id : Bytes 32) : Option Listed :=
  peers.reverse.find? fun listed => listed.info.peerId = id

theorem handleDiscoveryResponse_concat (net : P2PNetwork) (peers : List Listed)
    (listed : Listed) : net.handleDiscoveryResponse (peers ++ [listed]) =
      (net.handleDiscoveryResponse peers).addPeer listed.peer := by
  rw [handleDiscoveryResponse, List.foldl_concat]
  rfl

theorem banned_handleDiscoveryResponse (net : P2PNetwork) (peers : List Listed) :
    (net.handleDiscoveryResponse peers).banned = net.banned := by
  induction peers using List.reverseRecOn with
  | nil => rfl
  | append_singleton peers listed ih =>
    rw [handleDiscoveryResponse_concat, addPeer]
    split
    · exact ih
    · exact ih

theorem get_handleDiscoveryResponse (net : P2PNetwork) (peers : List Listed) (id : Bytes 32) :
    (net.handleDiscoveryResponse peers).peers.get id =
      if id ∈ net.banned then net.peers.get id
      else ((lastListed peers id).map Listed.peer).or (net.peers.get id) := by
  induction peers using List.reverseRecOn with
  | nil => simp [handleDiscoveryResponse, lastListed]
  | append_singleton peers listed ih =>
    have hid : listed.peer.id = listed.info.peerId := rfl
    rw [handleDiscoveryResponse_concat, addPeer, banned_handleDiscoveryResponse, hid]
    have hlast : lastListed (peers ++ [listed]) id =
        if listed.info.peerId = id then some listed else lastListed peers id := by
      simp only [lastListed, List.reverse_append, List.reverse_singleton, List.singleton_append,
        List.find?_cons]
      by_cases hsame : listed.info.peerId = id <;> simp [hsame]
    rw [hlast]
    by_cases hsame : listed.info.peerId = id
    · subst hsame
      rw [if_pos rfl]
      split
      · rename_i hbanned
        rw [ih, if_pos hbanned]
      · exact Map.get_insert_self ..
    · rw [if_neg hsame, ← ih]
      split
      · rfl
      · exact Map.get_insert_ne _ _ (Ne.symm hsame)

-- ---------------------------------------------------------------------------
-- Peers that are not disturbed
-- ---------------------------------------------------------------------------

/-- Those that are there stay as they are, none that is banned comes in, and the active ones
are the same. -/
structure Undisturbed (net after : P2PNetwork) : Prop where
  kept : ∀ id peer, net.peers.get id = some peer →
    ∃ peer', after.peers.get id = some peer' ∧ peer.SameFields peer'
  added : ∀ id, net.peers.get id = none → (after.peers.get id).isSome → id ∉ net.banned
  active : ∀ it, (getActivePeers it after).Perm (getActivePeers it net)

/-- Whoever is there and not banned is as the last entry for it says. -/
def KnownAsListed (net : P2PNetwork) (peers : List Listed) : Prop :=
  ∀ id peer listed, net.peers.get id = some peer → id ∉ net.banned →
    lastListed peers id = some listed → peer.AsListed listed.info.listenPort

theorem getActivePeers_perm {net' : P2PNetwork} (it : Map.Iteration (Bytes 32) Peer)
    (h : ∀ id, (net'.peers.get id).filter (fun peer => peer.status = .connected) =
      (net.peers.get id).filter fun peer => peer.status = .connected) :
    (getActivePeers it net').Perm (getActivePeers it net) := by
  have hperm := it.filter_perm (fun peer => decide (peer.status = .connected)) h
  rw [getActivePeers, getActivePeers, List.filter_map, List.filter_map]
  exact hperm.map Prod.snd

/-- Discovery disturbs no peer just when each peer is as it is listed. -/
theorem discovery_undisturbed_iff (net : P2PNetwork) (peers : List Listed) :
    net.Undisturbed (net.handleDiscoveryResponse peers) ↔ net.KnownAsListed peers := by
  constructor
  · intro h id peer listed hget hbanned hlast
    obtain ⟨peer', hget', hsame⟩ := h.kept id peer hget
    rw [get_handleDiscoveryResponse, if_neg hbanned, hlast] at hget'
    obtain rfl := Option.some.inj hget'
    exact Peer.sameFields_listed.mp hsame
  · intro h
    refine ⟨fun id peer hget => ?_, fun id hget hafter hbanned => ?_,
      fun it => getActivePeers_perm it fun id => ?_⟩
    · rw [get_handleDiscoveryResponse]
      split
      · exact ⟨peer, hget, rfl, rfl, rfl, rfl, rfl⟩
      · rename_i hbanned
        cases hlast : lastListed peers id with
        | none => exact ⟨peer, hget, rfl, rfl, rfl, rfl, rfl⟩
        | some listed =>
          exact ⟨listed.peer, rfl, Peer.sameFields_listed.mpr (h id peer listed hget hbanned hlast)⟩
    · rw [get_handleDiscoveryResponse, if_pos hbanned, hget] at hafter
      cases hafter
    · rw [get_handleDiscoveryResponse]
      split
      · rfl
      · rename_i hbanned
        cases hlast : lastListed peers id with
        | none => rfl
        | some listed =>
          -- neither the new peer nor the one it replaces is active
          cases hget : net.peers.get id with
          | none => rfl
          | some peer =>
            have hstatus := (h id peer listed hget hbanned hlast).status
            simp [Option.filter, hstatus, Listed.peer, Peer.new]

/-- A connected peer that another one lists. -/
theorem discovery_undisturbed_fails :
    ¬ ∀ (net : P2PNetwork) (peers : List Listed),
      net.Undisturbed (net.handleDiscoveryResponse peers) := by
  intro h
  let peer : Peer := ⟨.fill 32 1, "10.0.0.1", 9100, .connected, 5, 20, 1⟩
  let net : P2PNetwork := ⟨Map.empty.insert (.fill 32 1) peer, ∅⟩
  obtain ⟨peer', hget, hsame⟩ :=
    (h net [⟨⟨.fill 32 1, 9100, 1, []⟩, 6⟩]).kept (.fill 32 1) peer (Map.get_insert_self ..)
  rw [get_handleDiscoveryResponse, if_neg (Finset.notMem_empty _)] at hget
  obtain rfl := Option.some.inj hget
  exact nomatch hsame.status

end P2PNetwork

end LiteVision.Net
