import Mintpool.Lib.Channel
import Mintpool.P2P

/-!
# The two tasks of a node

`start_p2p_services` runs the swarm and the controller as two tasks. They talk over bounded
channels, one in each direction, and the controller takes commands from outside over a third.
A `send` waits while its channel is full, and a task that waits in the middle of handling
something takes nothing from any channel.

A step here is what a task does from one such wait to the next. Waiting for the database
or a chain is no wait in this sense, because it ends without the other task.
-/

namespace Mintpool

open Lib (Channel)

/-- What goes back to a node that asked for premints. -/
inductive SyncResponse where
  | premints (premints : List PremintTypes)
  | error (err : String)
  deriving DecidableEq, Repr

/-- Where the swarm's task is. -/
inductive SwarmTask where
  /-- In the `select!` of `run_loop`. -/
  | select
  /-- In `event_sender.send(event)`. -/
  | send (event : P2PEvent)
  /-- In `make_sync_response_query`, at `recv.await`. -/
  | recv (result : Option (List PremintTypes))
  deriving DecidableEq, Repr

/-- Where the controller's task is. -/
inductive ControllerTask where
  /-- In the `select!` of `run_loop`. -/
  | select
  /-- In `swarm_command_sender.send(command)`. -/
  | send (command : SwarmCommand)
  /-- Ended by a panic, which drops the controller's ends of all channels. -/
  | panicked
  deriving DecidableEq, Repr

namespace SwarmTask

section Gossip

variable {Text : Type} [Codec Text] [Libp2p] [Unicode]

/-- Up to the send in `handle_gossipsub_event`, if there is one. -/
def handleMessage (premintNames : List PremintName) (propagationSource : PeerId)
    (message : Message Text) : SwarmTask :=
  match handleGossipsubEvent premintNames propagationSource message with
  | .ok (.send event) => .send event
  | _ => .select

end Gossip

/-- The same for a response in `handle_request_response_event`. -/
def handleResponse : SyncResponse → SwarmTask
  | .premints premints => .send (.syncResponse premints)
  | .error _ => .select

/-- What is next when the event has been sent: for a sync request, its answer. -/
def afterSend : P2PEvent → SwarmTask
  | .syncRequest _ => .recv none
  | _ => .select

/-- The controller has handled this event, and answered it if it was a sync request. -/
def answered {Text : Type} [Alloy] [Codec Text] (task : SwarmTask) (controller : Controller Text) :
    P2PEvent → SwarmTask
  | .syncRequest query =>
      if task = .recv none then .recv (some (controller.answerSyncRequest query)) else task
  | _ => task

end SwarmTask

/-- Where the controller is when it has sent these commands, or tried to. -/
def ControllerTask.of : List SwarmCommand → ControllerTask
  | [] => .select
  | command :: _ => .send command

/-- The response to a request whose event could not be sent. -/
def makeSyncResponseError : P2PEvent → List SyncResponse
  | .syncRequest _ => [.error "Controller error"]
  | _ => []

/-- The node, with what is under way between its two tasks. -/
structure P2PServices (Text : Type) where
  /-- `event_send`, `event_recv` -/
  events : Channel P2PEvent
  /-- `swrm_cmd_send`, `swrm_recv` -/
  swarmCommands : Channel SwarmCommand
  /-- `ext_cmd_send`, `ext_cmd_recv` -/
  externalCommands : Channel ControllerCommands
  /-- `premint_names` of the swarm controller. -/
  premintNames : List PremintName
  swarmTask : SwarmTask := .select
  controller : Controller Text
  controllerTask : ControllerTask := .select
  /-- The answers to other nodes' requests, oldest first. -/
  responses : List SyncResponse := []

/-- How many items each channel has room for; without any, `channel` panics. -/
structure Capacities where
  events : Nat := 1024
  swarmCommands : Nat := 1024
  externalCommands : Nat := 1024
  eventsPos : 0 < events := by decide
  swarmCommandsPos : 0 < swarmCommands := by decide
  externalCommandsPos : 0 < externalCommands := by decide

def startP2PServices {Text : Type} (capacities : Capacities) (config : Config)
    (rules : RulesEngine Text) : P2PServices Text where
  events := .new capacities.events capacities.eventsPos
  swarmCommands := .new capacities.swarmCommands capacities.swarmCommandsPos
  externalCommands := .new capacities.externalCommands capacities.externalCommandsPos
  premintNames := config.premintNames
  controller := .new config rules

namespace P2PServices

/-- What happens next. -/
inductive Input (Text : Type) where
  /-- A `ControllerInterface` sends a command. -/
  | sendCommand (command : ControllerCommands)
  /-- The swarm takes a gossip message. -/
  | message (propagationSource : PeerId) (message : Message Text)
  /-- The swarm takes another node's request for premints. -/
  | syncRequest (query : QueryOptions)
  /-- The swarm takes the response to a request of this node. -/
  | syncResponse (response : SyncResponse)
  /-- The swarm takes any other event or a tick, neither of which it tells the controller. -/
  | otherEvent
  /-- The swarm takes a command. -/
  | swarmCommand
  /-- The swarm's send comes to an end. -/
  | swarmSend
  /-- The swarm gets the answer that it waits for. -/
  | swarmRecv
  /-- The controller takes an event. -/
  | event
  /-- The controller takes a command. -/
  | command (m : Moment)
  /-- The sync ticker of the controller ticks. -/
  | syncTick (m : Moment)
  /-- The controller's send comes to an end. -/
  | controllerSend

section Step

variable {Text : Type} [Alloy] [Codec Text] [Libp2p] [Unicode]

/-- The controller as it starts to handle something: it has sent nothing yet. -/
def idle (c : Controller Text) : Controller Text := { c with swarmCommands := [] }

/-- The controller has handled something, up to the send if there is one. -/
def handled (s : P2PServices Text) : Outcome (Controller Text) → P2PServices Text
  | .ret controller =>
      { s with controller, controllerTask := .of controller.swarmCommands }
  | .panic =>
      { s with
        controllerTask := .panicked
        events := s.events.drop
        externalCommands := s.externalCommands.drop }

/-- What `handle_command` makes of the controller. -/
def commandOutcome (c : Controller Text) (m : Moment) (command : ControllerCommands) :
    Outcome (Controller Text) :=
  match c.handleCommand m command with
  | .ret (_, _, c') => .ret c'
  | .panic => .panic

inductive Step (s : P2PServices Text) : Input Text → P2PServices Text → Prop
  | sendCommand (command : ControllerCommands) {externalCommands : Channel ControllerCommands}
      (hopen : s.controllerTask ≠ .panicked)
      (h : s.externalCommands.send command = some externalCommands) :
      Step s (.sendCommand command) { s with externalCommands }
  | message (propagationSource : PeerId) (message : Message Text)
      (hswarm : s.swarmTask = .select) :
      Step s (.message propagationSource message)
        { s with swarmTask := .handleMessage s.premintNames propagationSource message }
  | syncRequest (query : QueryOptions) (hswarm : s.swarmTask = .select) :
      Step s (.syncRequest query) { s with swarmTask := .send (.syncRequest query) }
  | syncResponse (response : SyncResponse) (hswarm : s.swarmTask = .select) :
      Step s (.syncResponse response) { s with swarmTask := .handleResponse response }
  | otherEvent (hswarm : s.swarmTask = .select) : Step s .otherEvent s
  | swarmCommand {command : SwarmCommand} {swarmCommands : Channel SwarmCommand}
      (hswarm : s.swarmTask = .select) (h : s.swarmCommands.recv = some (command, swarmCommands)) :
      Step s .swarmCommand { s with swarmCommands }
  /-- Without a sender, `recv` returns `None` at once, and the loop goes round. -/
  | swarmCommandClosed (hswarm : s.swarmTask = .select) (hempty : s.swarmCommands.recv = none)
      (hclosed : s.controllerTask = .panicked) : Step s .swarmCommand s
  | swarmSend {event : P2PEvent} {events : Channel P2PEvent} (hswarm : s.swarmTask = .send event)
      (hopen : s.controllerTask ≠ .panicked) (h : s.events.send event = some events) :
      Step s .swarmSend { s with events, swarmTask := .afterSend event }
  | swarmSendClosed {event : P2PEvent} (hswarm : s.swarmTask = .send event)
      (hclosed : s.controllerTask = .panicked) :
      Step s .swarmSend
        { s with
          swarmTask := .select
          responses := s.responses ++ makeSyncResponseError event }
  | swarmRecv {premints : List PremintTypes} (hswarm : s.swarmTask = .recv (some premints)) :
      Step s .swarmRecv
        { s with swarmTask := .select, responses := s.responses ++ [.premints premints] }
  | swarmRecvClosed (hswarm : s.swarmTask = .recv none)
      (hclosed : s.controllerTask = .panicked) :
      Step s .swarmRecv
        { s with swarmTask := .select, responses := s.responses ++ [.error "Channel error"] }
  | event {event : P2PEvent} {events : Channel P2PEvent} {outcome : Outcome (Controller Text)}
      (hcontroller : s.controllerTask = .select) (h : s.events.recv = some (event, events))
      (hevent : Controller.HandleEvent (idle s.controller) event outcome) :
      Step s .event
        (handled { s with events, swarmTask := s.swarmTask.answered s.controller event } outcome)
  | command (m : Moment) {command : ControllerCommands}
      {externalCommands : Channel ControllerCommands} (hcontroller : s.controllerTask = .select)
      (h : s.externalCommands.recv = some (command, externalCommands)) :
      Step s (.command m)
        (handled { s with externalCommands } (commandOutcome (idle s.controller) m command))
  | syncTick (m : Moment) (hcontroller : s.controllerTask = .select) :
      Step s (.syncTick m) (handled s ((idle s.controller).requestSync m))
  | controllerSend {command : SwarmCommand} {swarmCommands : Channel SwarmCommand}
      (hcontroller : s.controllerTask = .send command)
      (h : s.swarmCommands.send command = some swarmCommands) :
      Step s .controllerSend { s with swarmCommands, controllerTask := .select }

/-- The node runs through these inputs. -/
abbrev Run : P2PServices Text → List (Input Text) → P2PServices Text → Prop := Lib.Run Step

end Step

end P2PServices

end Mintpool
