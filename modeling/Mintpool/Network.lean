import Mintpool.P2P

/-!
# The network

Peers publish messages, and forward what they receive to their neighbours: a message
reaches a node over any number of hops. It carries its author's signature all the
way, while the *propagation source* that a receiver sees is only the last neighbour.

Whom a peer's neighbours are at a moment, in what order messages arrive, when an id is
forgotten and how the swarm and the controller of a node take turns are all up to the
schedule. A peer need not be running this code to publish: anyone may publish any
bytes on any topic.

`marks` is a record that no peer keeps: which marks a node that trusts has made on
account of gossip, and who authored the claim.
-/

namespace Mintpool

variable {Text : Type} [Codec Text] [Libp2p]

/-- An event on its way from the swarm to the controller, and the author of the message
it came in. -/
structure SwarmEvent where
  event : P2PEvent
  author : PeerId

structure Peer (Text : Type) where
  peerId : PeerId
  controller : Controller Text
  /-- `duplicate_cache` -/
  seen : SeenCache := []
  /-- The messages given to `handle_gossipsub_event`, oldest first. -/
  handled : List (Message Text) := []
  /-- The channel from the swarm to the controller, oldest first. -/
  events : List SwarmEvent := []

namespace Peer

/-- `premint_names`, which the swarm controller takes from the configuration. -/
def premintNames (p : Peer Text) : List PremintName := p.controller.config.premintNames

/-- `gossipsub.publish`; a message with an id in the cache is a duplicate. -/
def publish (p : Peer Text) (message : Message Text) : Option (Peer Text) :=
  (p.seen.insert (gossipsubMessageId message)).map (fun seen => { p with seen })

variable [Unicode]

/-- Hand a message to `handle_gossipsub_event`. -/
def handle (p : Peer Text) (propagationSource : PeerId) (message : Message Text) : Peer Text :=
  match handleGossipsubEvent p.premintNames propagationSource message with
  | .ok (.send event) =>
      { p with handled := p.handled ++ [message], events := p.events ++ [⟨event, message.source⟩] }
  | _ => { p with handled := p.handled ++ [message] }

/-- A message arrives. One with an id in the cache goes no further, and one on a topic
without a subscription is not delivered to the application. -/
def receive (p : Peer Text) (propagationSource : PeerId) (message : Message Text) :
    Option (Peer Text) :=
  (p.seen.insert (gossipsubMessageId message)).map (fun seen =>
    if (subscriptions p.premintNames).contains message.topic then
      handle { p with seen } propagationSource message
    else { p with seen })

end Peer

/-! ## One publisher and one subscriber -/

/-- A peer that publishes claims and a neighbour of it. -/
structure Link (Text : Type) where
  publisher : Peer Text
  subscriber : Peer Text

inductive LinkInput where
  | broadcastClaim (claim : InclusionClaim)
  /-- The two caches forget these ids. -/
  | expire (publisher subscriber : List String)
  deriving DecidableEq, Repr

/-- A claim is published and, unless that fails, arrives at the neighbour. -/
def Link.step [Unicode] (l : Link Text) : LinkInput → Link Text
  | .broadcastClaim claim =>
      let message := broadcastClaim l.publisher.peerId claim
      match l.publisher.publish message with
      | none => l
      | some publisher =>
          { publisher
            subscriber := (l.subscriber.receive publisher.peerId message).getD l.subscriber }
  | .expire publisherIds subscriberIds =>
      { publisher := { l.publisher with seen := l.publisher.seen.expire publisherIds }
        subscriber := { l.subscriber with seen := l.subscriber.seen.expire subscriberIds } }

/-! ## Any number of peers -/

/-- A message between neighbours. -/
structure Envelope (Text : Type) where
  propagationSource : PeerId
  receiver : PeerId
  message : Message Text

/-- A node's table changed because of a gossiped claim. -/
structure GossipMark where
  node : PeerId
  claim : InclusionClaim
  author : PeerId

structure World (Text : Type) where
  peers : PeerId → Peer Text
  wire : List (Envelope Text) := []
  marks : List GossipMark := []

namespace World

def setPeer (w : World Text) (n : PeerId) (p : Peer Text) : PeerId → Peer Text :=
  fun i => if i = n then p else w.peers i

/-- What happens next in the network. -/
inductive Input (Text : Type) where
  /-- A peer publishes a message to its neighbours. -/
  | publish (author : PeerId) (topic : String) (data : Text) (neighbours : List PeerId)
  /-- A message on the wire arrives, and is passed on if it is new. -/
  | arrive (envelope : Envelope Text) (neighbours : List PeerId)
  | expire (n : PeerId) (ids : List String)
  /-- The controller of a node takes the next event from its swarm. -/
  | takeEvent (n : PeerId)
  /-- It takes a command or a tick instead, or the swarm's sync protocol. -/
  | other (n : PeerId) (input : Controller.Input)

/-- Inputs of a controller that do not come from gossip. -/
def notGossip : Controller.Input → Bool
  | .event (.mintSeenOnchain _) => false
  | .event (.premintReceived _) => false
  | _ => true

/-- The mark to record, if a node that trusts changed its table because of this event. -/
def gossipMark [DecidableEq Text] (n : PeerId) (before after : Controller Text)
    (taken : SwarmEvent) : List GossipMark :=
  match taken.event with
  | .mintSeenOnchain peerClaim =>
      if before.config.chainInclusionMode = .trust ∧ after.store.table ≠ before.store.table then
        [⟨n, peerClaim.claim, taken.author⟩]
      else []
  | _ => []

variable [Alloy] [Unicode] [DecidableEq Text]

inductive Step (w : World Text) : Input Text → World Text → Prop
  | publish (author : PeerId) (topic : String) (data : Text) (neighbours : List PeerId)
      {p : Peer Text} (h : (w.peers author).publish ⟨author, topic, data⟩ = some p) :
      Step w (.publish author topic data neighbours)
        { w with
          peers := w.setPeer author p
          wire := w.wire ++ neighbours.map (fun n => ⟨author, n, ⟨author, topic, data⟩⟩) }
  | arrive (envelope : Envelope Text) (neighbours : List PeerId) {p : Peer Text}
      (hwire : envelope ∈ w.wire)
      (h : (w.peers envelope.receiver).receive envelope.propagationSource envelope.message
        = some p) :
      Step w (.arrive envelope neighbours)
        { w with
          peers := w.setPeer envelope.receiver p
          wire := w.wire ++ neighbours.map (fun n => ⟨envelope.receiver, n, envelope.message⟩) }
  | expire (n : PeerId) (ids : List String) :
      Step w (.expire n ids)
        { w with peers := w.setPeer n { w.peers n with seen := (w.peers n).seen.expire ids } }
  | takeEvent (n : PeerId) {taken : SwarmEvent} {rest : List SwarmEvent} {c : Controller Text}
      (hnext : (w.peers n).events = taken :: rest)
      (h : Controller.HandleEvent (w.peers n).controller taken.event (.ret c)) :
      Step w (.takeEvent n)
        { w with
          peers := w.setPeer n { w.peers n with controller := c, events := rest }
          marks := w.marks ++ gossipMark n (w.peers n).controller c taken }
  | other (n : PeerId) (input : Controller.Input) {c : Controller Text}
      (hinput : notGossip input = true) (h : Controller.Step (w.peers n).controller input c) :
      Step w (.other n input)
        { w with peers := w.setPeer n { w.peers n with controller := c } }

/-- A network of nodes that have just been started. -/
def new (config : PeerId → Config) (rules : PeerId → RulesEngine Text) : World Text where
  peers n := { peerId := n, controller := .new (config n) (rules n) }

/-- The network runs through these inputs. -/
abbrev Run : World Text → List (Input Text) → World Text → Prop := Lib.Run Step

end World

end Mintpool
