import Mintpool.Network
import Mintpool.Swarm

/-!
# A network of nodes

Any number of nodes that all run this code, with what is on its way between them: gossip
messages, requests for premints and the answers to them. Nobody else is on the network, so
what is on it has been put there by a node, and this file has no input for anything else.
Commands come from outside, and chains answer what they like.

As in `Network`, the schedule decides whom a message is forwarded to, what is delivered and
what is lost, when an id is forgotten and which node and which of its tasks goes next. A message
may arrive more than once and requests and answers at most once. A node whose controller panics
takes no further step.
-/

namespace Mintpool

/-- A node asks another for premints. -/
structure SyncRequest where
  requester : PeerId
  responder : PeerId
  query : QueryOptions
  deriving DecidableEq, Repr

/-- And is answered. A response that is an error does nothing at the requester. -/
structure SyncAnswer where
  responder : PeerId
  requester : PeerId
  premints : List PremintTypes
  deriving DecidableEq, Repr

structure Cluster (Text : Type) where
  peers : PeerId → Peer Text
  wire : List (Envelope Text) := []
  requests : List SyncRequest := []
  answers : List SyncAnswer := []

namespace Cluster

variable {Text : Type}

def setPeer (w : Cluster Text) (n : PeerId) (p : Peer Text) : PeerId → Peer Text :=
  fun i => if i = n then p else w.peers i

inductive Input (Text : Type) where
  /-- A controller takes a command. -/
  | command (n : PeerId) (m : Moment) (command : ControllerCommands)
  /-- Its sync ticker ticks. -/
  | syncTick (n : PeerId) (m : Moment)
  /-- A controller takes an event from its swarm. -/
  | takeEvent (n : PeerId)
  /-- A swarm takes a command from its controller. -/
  | takeCommand (n : PeerId) (swarm : Swarm) (chosen : Option PeerId) (neighbours : List PeerId)
  /-- A gossip message arrives, and is passed on if it is new. -/
  | arrive (envelope : Envelope Text) (neighbours : List PeerId)
  | requestArrives (request : SyncRequest)
  | answerArrives (answer : SyncAnswer)
  | expire (n : PeerId) (ids : List String)

section Step

variable [Alloy] [Codec Text] [FromStr Text] [Libp2p] [MultiaddrText] [Unicode]

/-- The answer that handling an event leads to. -/
def answersTo (n : PeerId) (c : Controller Text) (taken : SwarmEvent) : List SyncAnswer :=
  match taken.event with
  | .syncRequest query => [⟨n, taken.author, c.answerSyncRequest query⟩]
  | _ => []

/-- The network after a swarm has done what a command asked for. Dialling and replying change
nothing here, and a publication that gossipsub takes for a duplicate is dropped. -/
def performed (w : Cluster Text) (n : PeerId) (neighbours : List PeerId) :
    Swarm.Action Text → Cluster Text
  | .publish message =>
      match (w.peers n).publish message with
      | none => w
      | some p =>
          { w with
            peers := w.setPeer n p
            wire := w.wire ++ neighbours.map (fun receiver => ⟨n, receiver, message⟩) }
  | .sendRequest peerId query => { w with requests := w.requests ++ [⟨n, peerId, query⟩] }
  | .dial _ | .replyNetworkState _ | .replyNodeInfo _ | .nothing => w

/-- The controller of a node, replaced. -/
def setController (w : Cluster Text) (n : PeerId) (c : Controller Text) : Cluster Text :=
  { w with peers := w.setPeer n { w.peers n with controller := c } }

/-- The peers once an event is put on the channel to a node's controller. -/
def tellController (w : Cluster Text) (n : PeerId) (event : SwarmEvent) : PeerId → Peer Text :=
  w.setPeer n { w.peers n with events := (w.peers n).events ++ [event] }

inductive Step (w : Cluster Text) : Input Text → Cluster Text → Prop
  | command (n : PeerId) (m : Moment) {command : ControllerCommands} {reply : Reply}
      {result : Except Report Unit} {c : Controller Text}
      (h : (w.peers n).controller.handleCommand m command = .ret (reply, result, c)) :
      Step w (.command n m command) (w.setController n c)
  | syncTick (n : PeerId) (m : Moment) {c : Controller Text}
      (h : (w.peers n).controller.requestSync m = .ret c) :
      Step w (.syncTick n m) (w.setController n c)
  | takeEvent (n : PeerId) {taken : SwarmEvent} {rest : List SwarmEvent} {c : Controller Text}
      (hnext : (w.peers n).events = taken :: rest)
      (h : Controller.HandleEvent (w.peers n).controller taken.event (.ret c)) :
      Step w (.takeEvent n)
        { w with
          peers := w.setPeer n { w.peers n with controller := c, events := rest }
          answers := w.answers ++ answersTo n (w.peers n).controller taken }
  | takeCommand (n : PeerId) (swarm : Swarm) (chosen : Option PeerId) (neighbours : List PeerId)
      (peerLimit : Nat) {command : SwarmCommand} {rest : List SwarmCommand}
      (hswarm : swarm.localPeerId = n) (hchosen : Swarm.Chooses swarm.gossipsubPeers chosen)
      (hnext : (w.peers n).controller.swarmCommands = command :: rest) :
      Step w (.takeCommand n swarm chosen neighbours)
        ((w.setController n { (w.peers n).controller with swarmCommands := rest }).performed n
          neighbours (swarm.handleCommand peerLimit chosen command))
  | arrive (envelope : Envelope Text) (neighbours : List PeerId) {p : Peer Text}
      (hwire : envelope ∈ w.wire)
      (h : (w.peers envelope.receiver).receive envelope.propagationSource envelope.message
        = some p) :
      Step w (.arrive envelope neighbours)
        { w with
          peers := w.setPeer envelope.receiver p
          wire := w.wire ++ neighbours.map (fun n => ⟨envelope.receiver, n, envelope.message⟩) }
  | requestArrives (request : SyncRequest) (hrequest : request ∈ w.requests) :
      Step w (.requestArrives request)
        { w with
          peers := w.tellController request.responder
            ⟨.syncRequest request.query, request.requester⟩
          requests := w.requests.erase request }
  | answerArrives (answer : SyncAnswer) (hanswer : answer ∈ w.answers) :
      Step w (.answerArrives answer)
        { w with
          peers := w.tellController answer.requester
            ⟨.syncResponse answer.premints, answer.responder⟩
          answers := w.answers.erase answer }
  | expire (n : PeerId) (ids : List String) :
      Step w (.expire n ids)
        { w with peers := w.setPeer n { w.peers n with seen := (w.peers n).seen.expire ids } }

/-- The network runs through these inputs. -/
abbrev Run : Cluster Text → List (Input Text) → Cluster Text → Prop := Lib.Run Step

end Step

/-- A network of nodes that have just been started. -/
def new (config : PeerId → Config) (rules : PeerId → RulesEngine Text) : Cluster Text where
  peers n := { peerId := n, controller := .new (config n) (rules n) }

end Cluster

end Mintpool
