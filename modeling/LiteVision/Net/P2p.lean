import LiteVision.Bytes
import LiteVision.Lib.Map
import LiteVision.Lib.Tasks
import LiteVision.Lib.Trace

/-!
# The peer network

The peers and the banned ids of `P2PNetwork`, each behind a lock of its own. A call takes
the locks one after another and holds at most one of them, so it is the list of its
acquisitions; calls interleave between them. The clock is an input.
-/

namespace LiteVision.Net

open Lib

inductive PeerStatus where
  | connecting
  | handshaking
  | connected
  | disconnected
  | banned
  deriving DecidableEq

structure Peer where
  id : Bytes 32
  address : String
  port : UInt16
  status : PeerStatus
  lastSeen : UInt64
  latencyMs : UInt64
  version : UInt32
  deriving DecidableEq

def Peer.new (id : Bytes 32) (address : String) (port : UInt16) (now : UInt64) : Peer where
  id
  address
  port
  status := .connecting
  lastSeen := now
  latencyMs := 0
  version := 1

structure PeerInfo where
  peerId : Bytes 32
  listenPort : UInt16
  version : UInt32
  capabilities : List String
  deriving DecidableEq

/-- What is behind the two locks. -/
structure P2PNetwork where
  peers : Map (Bytes 32) Peer
  banned : Finset (Bytes 32)
  deriving DecidableEq

def P2PNetwork.new : P2PNetwork where
  peers := .empty
  banned := ∅

-- ---------------------------------------------------------------------------
-- Lock acquisitions
-- ---------------------------------------------------------------------------

inductive Acquisition where
  | checkBanned (peer : Peer)
  | checkDiscovered (info : PeerInfo)
  | insertPeer (peer : Peer)
  | markConnected (peerId : Bytes 32)
  | markDisconnected (peerId : Bytes 32)
  | insertBanned (peerId : Bytes 32)
  | removePeer (peerId : Bytes 32)
  deriving DecidableEq

namespace P2PNetwork

/-- The first half of `add_peer`: without a ban it goes on to the second one. -/
def checkBanned (net : P2PNetwork) (peer : Peer) : List Acquisition × P2PNetwork :=
  if peer.id ∈ net.banned then ([], net) else ([.insertPeer peer], net)

/-- What an acquisition leaves, and the ones its call goes on to ahead of the rest. -/
def acquire (now : UInt64) : Acquisition → P2PNetwork → List Acquisition × P2PNetwork
  | .checkBanned peer, net => net.checkBanned peer
  | .checkDiscovered info, net => net.checkBanned (.new info.peerId "" info.listenPort now)
  | .insertPeer peer, net => ([], { net with peers := net.peers.insert peer.id peer })
  | .markConnected peerId, net =>
    ([], { net with peers := net.peers.modify peerId fun peer =>
      { peer with status := .connected, lastSeen := now } })
  | .markDisconnected peerId, net =>
    ([.removePeer peerId], { net with peers := net.peers.modify peerId fun peer =>
      { peer with status := .disconnected } })
  | .insertBanned peerId, net =>
    ([.removePeer peerId], { net with banned := insert peerId net.banned })
  | .removePeer peerId, net => ([], { net with peers := net.peers.erase peerId })

end P2PNetwork

-- ---------------------------------------------------------------------------
-- Calls
-- ---------------------------------------------------------------------------

inductive Call where
  | addPeer (peer : Peer)
  | connect (address : String) (port : UInt16)
  | handleDiscoveryResponse (peerId : Bytes 32) (peers : List PeerInfo)
  | removePeer (peerId : Bytes 32)
  | disconnect (peerId : Bytes 32)
  | banPeer (peerId : Bytes 32)

def endpointId (c : Crypto) (address : String) (port : UInt16) : Bytes 32 :=
  c.blake3 (address.toUTF8.data.toList ++ (Bytes.ofU16 port).val)

/-- The acquisitions of a call that is made at `now`. -/
def Call.acquisitions (c : Crypto) (now : UInt64) : Call → List Acquisition
  | .addPeer peer => [.checkBanned peer]
  | .connect address port =>
    let peerId := endpointId c address port
    [.checkBanned (.new peerId address port now), .markConnected peerId]
  | .handleDiscoveryResponse _ peers => peers.map .checkDiscovered
  | .removePeer peerId => [.removePeer peerId]
  | .disconnect peerId => [.markDisconnected peerId]
  | .banPeer peerId => [.insertBanned peerId]

abbrev Sessions := Tasks.System P2PNetwork Acquisition

/-- A step of the scheduler: a call is made, or one goes on to its next acquisition. -/
inductive Action where
  | call (call : Call) (now : UInt64)
  | resume (task : Nat) (now : UInt64)

namespace Sessions

def initial : Sessions := { state := .new, tasks := [] }

def schedule (c : Crypto) (sys : Sessions) : Action → Sessions
  | .call call now => sys.spawn (call.acquisitions c now)
  | .resume task now => sys.resume (P2PNetwork.acquire now) task

end Sessions

end LiteVision.Net
