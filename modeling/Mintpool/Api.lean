import Mintpool.Controller
import Mintpool.Lib.Channel
import Mintpool.Swarm

/-!
# The HTTP API

Every request is served by a task of its own. A handler reads the database itself, over the
pool that it shares with the controller, and has the controller do everything else: it sends a
command over the channel that the terminal and the mint checkers use too, and may wait for a
reply. So what a client sees depends on how the handlers, the controller and the premints of a
sync response are interleaved, and a step here is what one of them does between two awaits.

Parsing a request and writing a response is `axum`'s. Of the swarm the model has when it
replies, and that it may end.
-/

namespace Mintpool

open Lib (Channel)

/-! ## Requests and responses -/

/-- `axum::http::StatusCode` -/
inductive StatusCode where
  | ok
  | badRequest
  | unauthorized
  | notFound
  | internalServerError
  deriving DecidableEq, Repr

inductive APIResponse where
  | rulesError (evaluation : Results)
  | error (message : String)
  | success (message : String)

/-- `NodeInfoResponse`, as far as the network state is modelled. -/
structure NodeInfoResponse where
  localPeerId : String
  numPeers : Nat
  gossipsubPeers : List String
  listeners : List String
  deriving DecidableEq, Repr

structure SummaryResponse where
  activePremintCount : Nat
  totalPremintCount : Nat
  nodeInfo : NodeInfoResponse
  deriving DecidableEq, Repr

/-- The body of a response, before it is written out. -/
inductive Body where
  | empty
  | text (text : String)
  | premints (premints : List PremintTypes)
  | premint (premint : PremintTypes)
  | api (response : APIResponse)
  | summary (summary : SummaryResponse)

structure Response where
  status : StatusCode
  body : Body

/-- The routes, each with what its handler is given. -/
inductive Route where
  | health
  | listAll (params : QueryOptions)
  | getOne (params : QueryOptions)
  | getByIdAndKind (kind id : String)
  | submitPremint (premint : PremintTypes)
  | summary
  | adminAddPeer (peer : String)
  | adminSubmitPremint (premint : PremintTypes)
  | adminSync
  deriving DecidableEq, Repr

structure Request where
  route : Route
  /-- The value of the `Authorization` header. -/
  authorization : Option (List UInt8) := none
  deriving DecidableEq, Repr

/-! ## Admin routes -/

/-- What the code takes from the http crate. -/
class Http where
  /-- `HeaderValue::to_str` -/
  toStr : List UInt8 → Option String

def isVisibleAscii (b : UInt8) : Bool := (32 ≤ b && b < 127) || b = 9

/-- The documented behaviour: a value is text if it is visible ASCII. -/
class LawfulHttp [Http] : Prop where
  toStr_eq : ∀ value : List UInt8, Http.toStr value
    = if value.all isVisibleAscii then
        some (String.ofList (value.map fun b => Char.ofNat b.toNat)) else none

/-- A library to evaluate with. -/
@[reducible] def asciiHttp : Http where
  toStr value :=
    if value.all isVisibleAscii then
      some (String.ofList (value.map fun b => Char.ofNat b.toNat)) else none

instance : @LawfulHttp asciiHttp := @LawfulHttp.mk asciiHttp fun _ => rfl

/-- The response that a request is turned away with. -/
def authMiddleware [Http] (apiSecret : Option String) (authorization : Option (List UInt8)) :
    Option Response :=
  match apiSecret with
  | none => some ⟨.unauthorized, .text "Unauthorized"⟩
  | some secret =>
      match authorization with
      | some auth =>
          if (Http.toStr auth).getD "" ≠ secret then
            some ⟨.unauthorized, .text "Unauthorized. Invalid secret"⟩
          else none
      | none =>
          some ⟨.unauthorized, .text "Unauthorized. Set Header Authorization: <secret>"⟩

/-- The routes of `with_admin_routes`. -/
def Route.isAdmin : Route → Bool
  | .adminAddPeer _ | .adminSubmitPremint _ | .adminSync => true
  | .health | .listAll _ | .getOne _ | .getByIdAndKind _ _ | .submitPremint _ | .summary => false

/-! ## What the handlers make of it -/

/-- `downcast_ref::<Results>()` -/
def BroadcastError.results : BroadcastError → Option Results
  | .insert (.rejected evaluation) => some evaluation
  | .insert (.evaluate _) | .insert (.store _) | .swarm _ => none

/-- `to_string`, of the outermost error. -/
def BroadcastError.text : BroadcastError → String
  | .insert (.evaluate report) => report.text
  | .insert (.rejected _) => "Premint failed validation"
  | .insert (.store _) => "Failed to store premint"
  | .swarm _ => "Error broadcasing premint: SendError { .. }"

/-- What `submit_premint` makes of the reply. -/
def submitPremint : Except BroadcastError Unit → Response
  | .ok _ => ⟨.ok, .api (.success "Premint submitted")⟩
  | .error e =>
      match e.results with
      | some evaluation => ⟨.badRequest, .api (.rulesError evaluation)⟩
      | none => ⟨.badRequest, .api (.error e.text)⟩

/-- The response when the command cannot be sent, or its reply channel is dropped. -/
def Route.channelClosed : Route → Response
  | .submitPremint _ | .adminSubmitPremint _ | .adminAddPeer _ =>
      ⟨.internalServerError, .api (.error "channel closed")⟩
  | _ => ⟨.internalServerError, .empty⟩

/-- What `HandleErrorLayer` makes of a request that took more than ten seconds. -/
def timedOut : Response := ⟨.internalServerError, .text "Unhandled error: Elapsed(())"⟩

/-- `NodeInfoResponse::from` -/
def NodeInfoResponse.of [MultiaddrText] (state : NetworkState) : NodeInfoResponse where
  localPeerId := MultiaddrText.displayPeerId state.localPeerId
  numPeers := state.numPeers
  gossipsubPeers := state.gossipsubPeers.map MultiaddrText.displayPeerId
  listeners := state.listeners.map MultiaddrText.display

/-- What a handler does first. -/
inductive Begun where
  | respond (response : Response)
  | send (command : ControllerCommands)

section Begin

variable {Text : Type} [Alloy] [Codec Text]

def Route.begin (db : PremintStorage Text) : Route → Begun
  | .health => .respond ⟨.ok, .text "OK"⟩
  | .listAll params => .respond ⟨.ok, .premints (db.listAllWithOptions params)⟩
  | .getOne params =>
      match db.getOne params with
      | .ok premint => .respond ⟨.ok, .premint premint⟩
      | .error _ => .respond ⟨.internalServerError, .text "Failed to get one premint"⟩
  | .getByIdAndKind kind id =>
      match db.getForIdAndKind id ⟨kind⟩ with
      | .ok premint => .respond ⟨.ok, .premint premint⟩
      | .error _ => .respond ⟨.notFound, .text "Failed to get premint"⟩
  | .submitPremint premint | .adminSubmitPremint premint => .send (.broadcast premint)
  | .summary => .send .returnNetworkState
  | .adminAddPeer peer => .send (.connectToPeer peer)
  | .adminSync => .send .sync

def Request.begin [Http] (apiSecret : Option String) (db : PremintStorage Text)
    (request : Request) : Begun :=
  if request.route.isAdmin then
    match authMiddleware apiSecret request.authorization with
    | some response => .respond response
    | none => request.route.begin db
  else request.route.begin db

end Begin

/-! ## The server -/

inductive HandlerState where
  /-- Waiting for its turn, for the database or for room in the channel. -/
  | called
  /-- At `recv.await`. -/
  | receiving
  /-- In `summary`, before it has counted the premints. -/
  | counting (state : NetworkState)
  /-- In `summary`, before it has counted the active ones. -/
  | countingActive (state : NetworkState) (total : Nat)
  | responded (response : Response)

/-- A request that is being served. -/
structure Handler where
  request : Request
  state : HandlerState

/-- What a handler is to do when its command has been sent. -/
def Route.afterSend : Route → HandlerState
  | .adminAddPeer _ => .responded ⟨.ok, .api (.success "Peer added")⟩
  | .adminSync => .responded ⟨.ok, .empty⟩
  | _ => .receiving

/-- The handler, told what it waits for; if it has timed out, there is nobody to tell. -/
def Handler.receive (h : Handler) (next : Route → HandlerState) : Handler :=
  match h.state with
  | .receiving => { h with state := next h.request.route }
  | _ => h

/-- What the controller is in the middle of. -/
inductive Activity (Text : Type) where
  /-- In the `select!` of `run_loop`. -/
  | select
  /-- It has stored a submitted premint, and is going to broadcast it. -/
  | broadcasting (message : PremintTypes) (id : Option Nat)
  /-- It is inserting the premints of a sync response. -/
  | inserting (premints : List PremintTypes) (batch : Batch Text)
  | panicked

/-- The node, as its API sees it. -/
structure Api (Text : Type) where
  apiSecret : Option String
  /-- The handlers of all requests that have arrived, under a number each. -/
  handlers : Nat → Option Handler := fun _ => none
  /-- The commands, each with the number of the request that it was sent for, if any. -/
  commands : Channel (Option Nat × ControllerCommands)
  controller : Controller Text
  activity : Activity Text := .select
  /-- The requests for which the swarm has been asked for its state, and has not replied. -/
  asked : List Nat := []

namespace Api

variable {Text : Type}

/-- `start_api`, with room for 1024 commands. -/
def start (config : Config) (rules : RulesEngine Text) (apiSecret : Option String) : Api Text where
  apiSecret := apiSecret
  commands := .new 1024 (by decide)
  controller := .new config rules

/-- What a query sees. -/
def db (s : Api Text) : PremintStorage Text :=
  match s.activity with
  | .inserting _ batch => batch.shared
  | _ => s.controller.store

def setHandler (s : Api Text) (id : Nat) (h : Handler) : Api Text :=
  { s with handlers := fun n => if n = id then some h else s.handlers n }

/-- Tell the handlers of these requests what they wait for. -/
def tell (handlers : Nat → Option Handler) (ids : Nat → Bool) (next : Route → HandlerState)
    (n : Nat) : Option Handler :=
  if ids n then (handlers n).map (fun h => h.receive next) else handlers n

/-- A reply channel is dropped. -/
def dropped (route : Route) : HandlerState := .responded route.channelClosed

/-- The reply over the channel of a broadcast command. -/
def replied (result : Except BroadcastError Unit) (_ : Route) : HandlerState :=
  .responded (submitPremint result)

/-- The controller's task ends, and takes the commands in its channel with it. -/
def panic (s : Api Text) : Api Text :=
  { s with
    handlers :=
          tell s.handlers (fun n => s.commands.items.any (fun item => item.1 = some n)) dropped
    activity := .panicked
    commands := s.commands.drop }

/-- The swarm's task ends. -/
def endSwarm (s : Api Text) : Api Text :=
  { s with
    handlers := tell s.handlers (fun n => s.asked.contains n) dropped
    controller := { s.controller with swarmOpen := false }
    asked := [] }

inductive Input where
  | arrive (id : Nat) (request : Request)
  /-- A handler responds, or sends its command. -/
  | handle (id : Nat)
  /-- A query of `summary`. -/
  | count (id : Nat)
  | timeout (id : Nat)
  /-- A command from elsewhere is put on the channel. -/
  | sendCommand (command : ControllerCommands)
  /-- The controller takes a command. -/
  | command (m : Moment)
  /-- It goes on to broadcast a premint that it has stored. -/
  | broadcast
  | event (event : P2PEvent)
  /-- A piece of one of the tasks that insert a sync response. -/
  | insert (i : Nat) (m : Moment)
  /-- All of them are done. -/
  | inserted
  | syncTick (m : Moment)
  /-- The swarm replies with its state. -/
  | networkState (id : Nat) (state : NetworkState)
  | swarmEnds

section Step

variable [Alloy] [Codec Text] [Libp2p] [MultiaddrText] [Http]

/-- The controller has handled something. -/
def handled (s : Api Text) : Outcome (Controller Text) → Api Text
  | .ret controller => { s with controller }
  | .panic => s.panic

/-- `handle_command`, for a command that no handler waits for. -/
def forward (s : Api Text) (m : Moment) (command : ControllerCommands) : Api Text :=
  match s.controller.handleCommand m command with
  | .ret (_, _, controller) => { s with controller }
  | .panic => s.panic

/-- `handle_command`, up to the broadcast of a premint. -/
def handleCommand (s : Api Text) (m : Moment) (id : Option Nat) : ControllerCommands → Api Text
  | .broadcast message =>
      match s.controller.validateAndInsert m message with
      | (.ok _, controller) => { s with controller, activity := .broadcasting message id }
      | (.error error, controller) =>
          { s with
            controller
            handlers := tell s.handlers (fun n => id = some n) (replied (.error (.insert error))) }
  | .returnNetworkState =>
      match s.controller.sendSwarm .returnNetworkState with
      | (.ok _, controller) => { s with controller, asked := s.asked ++ id.toList }
      | (.error _, _) => { s with handlers := tell s.handlers (fun n => id = some n) dropped }
  | command => s.forward m command

/-- The rest of it. -/
def broadcast (s : Api Text) (message : PremintTypes) (id : Option Nat) : Api Text :=
  match s.controller.sendSwarm (.broadcast message) with
  | (.ok _, controller) =>
      { s with
        controller
        activity := .select
        handlers := tell s.handlers (fun n => id = some n) (replied (.ok ())) }
  | (.error report, controller) =>
      { s with
        controller
        activity := .select
        handlers := tell s.handlers (fun n => id = some n) (replied (.error (.swarm report))) }

inductive Step (s : Api Text) : Input → Api Text → Prop
  | arrive (id : Nat) (request : Request) (hnew : s.handlers id = none) :
      Step s (.arrive id request) (s.setHandler id ⟨request, .called⟩)
  | respond (id : Nat) {request : Request} {response : Response}
      (hcalled : s.handlers id = some ⟨request, .called⟩)
      (h : request.begin s.apiSecret s.db = .respond response) :
      Step s (.handle id) (s.setHandler id ⟨request, .responded response⟩)
  | send (id : Nat) {request : Request} {command : ControllerCommands}
      {commands : Channel (Option Nat × ControllerCommands)}
      (hcalled : s.handlers id = some ⟨request, .called⟩)
      (h : request.begin s.apiSecret s.db = .send command) (hopen : s.activity ≠ .panicked)
      (hsend : s.commands.send (some id, command) = some commands) :
      Step s (.handle id) { s.setHandler id ⟨request, request.route.afterSend⟩ with commands }
  | sendClosed (id : Nat) {request : Request} {command : ControllerCommands}
      (hcalled : s.handlers id = some ⟨request, .called⟩)
      (h : request.begin s.apiSecret s.db = .send command) (hclosed : s.activity = .panicked) :
      Step s (.handle id) (s.setHandler id ⟨request, .responded request.route.channelClosed⟩)
  | countTotal (id : Nat) {request : Request} {state : NetworkState}
      (hcounting : s.handlers id = some ⟨request, .counting state⟩) :
      Step s (.count id)
        (s.setHandler id ⟨request, .countingActive state s.db.table.rows.length⟩)
  | countActive (id : Nat) {request : Request} {state : NetworkState} {total : Nat}
      (hcounting : s.handlers id = some ⟨request, .countingActive state total⟩) :
      Step s (.count id) (s.setHandler id ⟨request, .responded ⟨.ok, .summary {
        activePremintCount := s.db.table.rows.countP (fun r => !r.seenOnChain)
        totalPremintCount := total
        nodeInfo := .of state }⟩⟩)
  | timeout (id : Nat) {h : Handler} (hhandler : s.handlers id = some h)
      (hwaits : ∀ response, h.state ≠ .responded response) :
      Step s (.timeout id) (s.setHandler id ⟨h.request, .responded timedOut⟩)
  | sendCommand (command : ControllerCommands)
      {commands : Channel (Option Nat × ControllerCommands)} (hopen : s.activity ≠ .panicked)
      (hsend : s.commands.send (none, command) = some commands) :
      Step s (.sendCommand command) { s with commands }
  | command (m : Moment) {id : Option Nat} {command : ControllerCommands}
      {commands : Channel (Option Nat × ControllerCommands)} (hselect : s.activity = .select)
      (hrecv : s.commands.recv = some ((id, command), commands)) :
      Step s (.command m) ({ s with commands }.handleCommand m id command)
  | broadcast {message : PremintTypes} {id : Option Nat}
      (hbroadcasting : s.activity = .broadcasting message id) :
      Step s .broadcast (s.broadcast message id)
  | event {event : P2PEvent} {outcome : Outcome (Controller Text)} (hselect : s.activity = .select)
      (hsync : ∀ premints, event ≠ .syncResponse premints)
      (hevent : Controller.HandleEvent s.controller event outcome) :
      Step s (.event event) (s.handled outcome)
  | syncResponse (premints : List PremintTypes) (hselect : s.activity = .select) :
      Step s (.event (.syncResponse premints))
        { s with activity := .inserting premints (.start s.controller.store premints) }
  | insert (i : Nat) (m : Moment) {premints : List PremintTypes} {batch batch' : Batch Text}
      (hinserting : s.activity = .inserting premints batch)
      (hstep : batch.step s.controller.rules i m = some batch') :
      Step s (.insert i m) { s with activity := .inserting premints batch' }
  | inserted {premints : List PremintTypes} {batch : Batch Text}
      (hinserting : s.activity = .inserting premints batch) (hdone : batch.isDone = true) :
      Step s .inserted
        { s with activity := .select, controller := { s.controller with store := batch.shared } }
  | syncTick (m : Moment) (hselect : s.activity = .select) :
      Step s (.syncTick m) (s.handled (s.controller.requestSync m))
  | networkState (id : Nat) (state : NetworkState) (hasked : id ∈ s.asked) :
      Step s (.networkState id state)
        { s with
          handlers := tell s.handlers (fun n => n = id) (fun _ => .counting state)
          asked := s.asked.erase id }
  | swarmEnds : Step s .swarmEnds s.endSwarm

/-- The node runs through these inputs. -/
abbrev Run : Api Text → List Input → Api Text → Prop := Lib.Run Step

end Step

end Api

end Mintpool
