import Mathlib.Data.Finset.Card
import Mintpool.P2P

/-!
# The swarm

What `SwarmController` does besides gossip: it carries out the controller's commands, decides
whom to dial, keeps the number of its connections within a limit and announces itself.

Addresses are `libp2p`'s, and how they are written is a class. Kademlia, relays and the other
protocols of the swarm run by themselves; what they do to its state, any input may do.
-/

namespace Mintpool

/-! ## Addresses -/

/-- `libp2p::multiaddr::Protocol` -/
inductive Protocol where
  | p2p (peerId : PeerId)
  | p2pCircuit
  | other (text : String)
  deriving DecidableEq, Repr

/-- `libp2p::Multiaddr` -/
structure Multiaddr where
  components : List Protocol
  deriving DecidableEq, Repr

namespace Multiaddr

/-- `Multiaddr::with` -/
def withProtocol (a : Multiaddr) (protocol : Protocol) : Multiaddr := ⟨a.components ++ [protocol]⟩

/-- The last peer id of the address. -/
def peerId (a : Multiaddr) : Option PeerId :=
  a.components.foldl (fun last component =>
    match component with
    | .p2p key => some key
    | _ => last) none

def isRelayed (a : Multiaddr) : Bool := a.components.any (fun component => component = .p2pCircuit)

end Multiaddr

/-- Addresses and peer ids as text. -/
class MultiaddrText where
  /-- `str::parse::<Multiaddr>` -/
  parse : String → Option Multiaddr
  display : Multiaddr → String
  /-- `PeerId::to_string` -/
  displayPeerId : PeerId → String

/-- `as_bytes` of a string that is published. -/
class FromStr (Text : Type) [Codec Text] where
  ofString : String → Text
  asString_ofString : ∀ s : String, Codec.asString (ofString s) = s

/-! ## The state of the swarm -/

structure Connection where
  /-- `ConnectionId` -/
  id : Nat
  peerId : PeerId
  /-- `close_connection` has been called on it. -/
  closing : Bool := false
  deriving DecidableEq, Repr

/-- `libp2p::Swarm`, as far as the code looks at it. -/
structure Swarm where
  localPeerId : PeerId
  listeners : List Multiaddr := []
  /-- The established connections. -/
  connections : List Connection := []
  /-- `all_mesh_peers` -/
  gossipsubPeers : List PeerId := []
  deriving Repr

/-- What goes back to the API and the terminal, as far as it is modelled. -/
structure NetworkState where
  localPeerId : PeerId
  /-- `network_info.num_peers()` -/
  numPeers : Nat
  gossipsubPeers : List PeerId
  listeners : List Multiaddr
  deriving DecidableEq, Repr

structure MintpoolNodeInfo where
  peerId : PeerId
  addr : List Multiaddr
  deriving DecidableEq, Repr

/-- `DialOpts` -/
structure DialOpts where
  peerId : Option PeerId
  addresses : List Multiaddr
  /-- `PeerCondition::DisconnectedAndNotDialing` -/
  onlyIfDisconnected : Bool
  deriving DecidableEq, Repr

namespace Swarm

/-- The peers with an established connection, each counted once. -/
def numPeers (s : Swarm) : Nat := (s.connections.map Connection.peerId).toFinset.card

def makeNetworkState (s : Swarm) : NetworkState :=
  ⟨s.localPeerId, s.numPeers, s.gossipsubPeers, s.listeners⟩

def nodeInfo (s : Swarm) : MintpoolNodeInfo := ⟨s.localPeerId, s.listeners⟩

/-- Closing is only begun here; the connection is there until it has been closed. -/
def closeConnection (s : Swarm) (id : Nat) : Swarm :=
  { s with connections := s.connections.map (fun c =>
      if c.id = id then { c with closing := true } else c) }

/-- Whether the connection was rejected, and the swarm afterwards. -/
def rejectConnectionIfOverMax (peerLimit : Nat) (s : Swarm) (id : Nat) : Bool × Swarm :=
  if peerLimit < s.makeNetworkState.numPeers then (true, s.closeConnection id) else (false, s)

/-- What `safe_dial` passes to `dial`, if it dials. -/
def safeDial (peerLimit : Nat) (s : Swarm) (address : Multiaddr) : Option DialOpts :=
  if peerLimit ≤ s.makeNetworkState.gossipsubPeers.length then none
  else
    match address.peerId with
    | some peerId => some ⟨some peerId, [address], true⟩
    | none => some ⟨none, [address], false⟩

/-! ## Commands -/

section Commands

variable {Text : Type} [Codec Text] [FromStr Text] [MultiaddrText] [Unicode]

/-- The message `announce_self` publishes. -/
def announceSelf (s : Swarm) : Message Text :=
  let value :=
    match s.listeners with
    | address :: _ => MultiaddrText.display (address.withProtocol (.p2p s.localPeerId))
    | [] => MultiaddrText.displayPeerId s.localPeerId
  ⟨s.localPeerId, announceTopic, FromStr.ofString value⟩

/-- What a command makes the swarm do. -/
inductive Action (Text : Type) where
  | dial (opts : DialOpts)
  | replyNetworkState (state : NetworkState)
  | replyNodeInfo (info : MintpoolNodeInfo)
  | publish (message : Message Text)
  | sendRequest (peerId : PeerId) (query : QueryOptions)
  | nothing

/-- `SwarmController::handle_command`. For a sync `chosen` is the peer that was drawn at random
among the mesh peers, and `none` if there are none. -/
def handleCommand (peerLimit : Nat) (s : Swarm) (chosen : Option PeerId) :
    SwarmCommand → Action Text
  | .connectToPeer address =>
      match MultiaddrText.parse address with
      | some addr => (s.safeDial peerLimit addr).elim .nothing .dial
      | none => .nothing
  | .returnNetworkState => .replyNetworkState s.makeNetworkState
  | .announceSelf => .publish s.announceSelf
  | .broadcast message => .publish (broadcastMessage s.localPeerId message)
  | .returnNodeInfo => .replyNodeInfo s.nodeInfo
  | .sendOnchainMintFound claim => .publish (broadcastClaim s.localPeerId claim)
  | .sync query => chosen.elim .nothing (fun peerId => .sendRequest peerId query)

/-- `choose` -/
def Chooses (peers : List PeerId) : Option PeerId → Prop
  | some peerId => peerId ∈ peers
  | none => peers = []

end Commands

/-! ## Connections coming and going -/

/-- An event of the swarm that `handle_swarm_event` checks the limit at. -/
inductive ConnectionEvent where
  | incomingConnection (id : Nat)
  | connectionEstablished (id : Nat)
  deriving DecidableEq, Repr

def ConnectionEvent.id : ConnectionEvent → Nat
  | incomingConnection id | connectionEstablished id => id

end Swarm

/-- The swarm, with the events that have not been handled, oldest first. -/
structure Connections where
  swarm : Swarm
  events : List Swarm.ConnectionEvent := []
  /-- `peer_limit` -/
  peerLimit : Nat

namespace Connections

inductive Input where
  /-- Somebody dials the node. -/
  | incoming (id : Nat)
  /-- A connection is established, dialled by either side. -/
  | established (id : Nat) (peerId : PeerId)
  | closed (id : Nat)
  /-- The next event is handled. -/
  | handle
  deriving DecidableEq, Repr

inductive Step (s : Connections) : Input → Connections → Prop
  | incoming (id : Nat) :
      Step s (.incoming id) { s with events := s.events ++ [.incomingConnection id] }
  | established (id : Nat) (peerId : PeerId) (hnew : ∀ c ∈ s.swarm.connections, c.id ≠ id) :
      Step s (.established id peerId) { s with
        swarm := { s.swarm with connections := s.swarm.connections ++ [⟨id, peerId, false⟩] }
        events := s.events ++ [.connectionEstablished id] }
  | closed (id : Nat) :
      Step s (.closed id) { s with
        swarm := { s.swarm with connections := s.swarm.connections.filter (fun c => c.id ≠ id) } }
  | handle {event : Swarm.ConnectionEvent} {events : List Swarm.ConnectionEvent}
      (hnext : s.events = event :: events) :
      Step s .handle { s with
        swarm := (s.swarm.rejectConnectionIfOverMax s.peerLimit event.id).2, events }

/-- The swarm runs through these inputs. -/
abbrev Run : Connections → List Input → Connections → Prop := Lib.Run Step

end Connections

end Mintpool
