import Mintpool.Config
import Mintpool.Insert

/-!
# The controller

The controller owns the store and handles one event or command at a time. Events
come from the swarm, and so ultimately from peers; commands come from the API, the
terminal and the mint checkers. Handling a sync response is the one place where the
outcome depends on a schedule, so handling is a relation; a panic is an outcome of
its own.
-/

namespace Mintpool

inductive SwarmCommand where
  | connectToPeer (address : String)
  | returnNetworkState
  | announceSelf
  | broadcast (message : PremintTypes)
  | returnNodeInfo
  | sendOnchainMintFound (claim : InclusionClaim)
  | sync (query : QueryOptions)
  deriving DecidableEq, Repr

/-- Events from the swarm. -/
inductive P2PEvent where
  | networkState
  | premintReceived (premint : PremintTypes)
  | mintSeenOnchain (claim : PeerInclusionClaim)
  | syncRequest (query : QueryOptions)
  | syncResponse (premints : List PremintTypes)
  deriving DecidableEq, Repr

inductive ControllerCommands where
  | connectToPeer (address : String)
  | returnNetworkState
  | announceSelf
  | broadcast (message : PremintTypes)
  | returnNodeInfo
  /-- `Query(DBQuery::ListAll(_))`; a direct query hands out the pool and does nothing. -/
  | listAll
  | resolveOnchainMint (claim : InclusionClaim)
  | sync
  deriving DecidableEq, Repr

/-- What a broadcast command's reply channel can carry as an error. -/
inductive BroadcastError where
  | insert (error : InsertError)
  /-- "Error broadcasing premint" -/
  | swarm (report : Report)

/-- What goes back over a command's reply channel. -/
inductive Reply where
  | none
  | broadcast (result : Except BroadcastError Unit)
  | listAll (premints : List PremintTypes)

structure Controller (Text : Type) where
  store : PremintStorage Text
  rules : RulesEngine Text
  config : Config
  /-- Whether the swarm still holds the receiving end of its command channel. -/
  swarmOpen : Bool := true
  /-- The commands sent to the swarm, oldest first. -/
  swarmCommands : List SwarmCommand := []

/-! ## Checking a claim against the chain -/

/-- Whether the claim names a log of the claim's chain that puts this premint on chain. -/
def inclusionClaimCorrect [Alloy] (chains : Chains) (premint : PremintTypes)
    (claim : InclusionClaim) : Outcome (Except Report Bool) :=
  match chains.getRpc claim.chainId with
  | .error report => .ret (.error report)
  | .ok chain =>
      match chain.getTransactionReceipt claim.txHash with
      | .error report => .ret (.error report)
      | .ok none => .ret (.error (.msg "transaction not found"))
      | .ok (some tx) =>
          -- the claim's index is used as a position in the receipt's logs
          match tx.logs[claim.logIndex.toNat]? with
          | none => .ret (.error (.msg ("log index not found: " ++ claim.logIndex.toNat.repr)))
          | some log =>
              match premint.verifyClaim claim.chainId tx log claim with
              | .ret correct => .ret (.ok correct)
              | .panic => .panic

namespace Controller

variable {Text : Type} [Alloy] [Codec Text]

/-- `swarm_command_sender.send(command)` -/
def sendSwarm (c : Controller Text) (command : SwarmCommand) :
    Except Report Unit × Controller Text :=
  if c.swarmOpen then (.ok (), { c with swarmCommands := c.swarmCommands ++ [command] })
  else (.error (.msg "channel closed"), c)

def validateAndInsert (c : Controller Text) (m : Moment) (premint : PremintTypes) :
    Except InsertError Results × Controller Text :=
  let (result, store) := Mintpool.validateAndInsert c.rules m c.store premint
  (result, { c with store })

/-! ## Events -/

/-- Act on a peer's claim, as the inclusion mode says. -/
def handleEventOnchainClaim [Libp2p] (c : Controller Text) (m : Moment)
    (peerClaim : PeerInclusionClaim) : Outcome (Except Report Unit × Controller Text) :=
  match c.config.chainInclusionMode with
  | .check | .verify =>
      let claim := peerClaim.claim
      match c.store.getForIdAndKind claim.premintId ⟨claim.kind⟩ with
      | .error report =>
          .ret (.error (.msg ("Error getting premint for onchain claim: " ++ report.text)), c)
      | .ok premint =>
          match inclusionClaimCorrect m.chains premint claim with
          | .panic => .panic
          | .ret (.ok true) => .ret (.ok (), { c with store := c.store.markSeenOnChain claim })
          | .ret _ => .ret (.ok (), c)
  | .trust =>
      if c.config.trustedPeers.contains peerClaim.fromPeerId then
        .ret (.ok (), { c with store := c.store.markSeenOnChain peerClaim.claim })
      else .ret (.ok (), c)

/-- The answer to a `P2PEvent::SyncRequest`. -/
def answerSyncRequest (c : Controller Text) (query : QueryOptions) : List PremintTypes :=
  c.store.listAllWithOptions query

/-- `Controller::handle_event` -/
inductive HandleEvent [Libp2p] (c : Controller Text) : P2PEvent → Outcome (Controller Text) → Prop
  | networkState : HandleEvent c .networkState (.ret c)
  | premintReceived (m : Moment) (premint : PremintTypes) :
      HandleEvent c (.premintReceived premint) (.ret (c.validateAndInsert m premint).2)
  | mintSeenOnchain (m : Moment) (claim : PeerInclusionClaim)
      {result : Except Report Unit} {c' : Controller Text}
      (h : c.handleEventOnchainClaim m claim = .ret (result, c')) :
      HandleEvent c (.mintSeenOnchain claim) (.ret c')
  | mintSeenOnchainPanic (m : Moment) (claim : PeerInclusionClaim)
      (h : c.handleEventOnchainClaim m claim = .panic) :
      HandleEvent c (.mintSeenOnchain claim) .panic
  | syncRequest (query : QueryOptions) : HandleEvent c (.syncRequest query) (.ret c)
  | syncResponse (premints : List PremintTypes) (schedule : List (Nat × Moment))
      {b : Batch Text} (h : Batch.Schedule c.rules (Batch.start c.store premints) schedule b)
      (hdone : b.isDone = true) :
      HandleEvent c (.syncResponse premints) (.ret { c with store := b.shared })

/-! ## Commands -/

/-- `request_sync`, with its `expect` on a closed channel. -/
def requestSync (c : Controller Text) (m : Moment) : Outcome (Controller Text) :=
  let query : QueryOptions :=
    { «from» := some { m.clock with
        secs := m.clock.secs - 60 * 60 * c.config.syncLookbackHours } }
  match c.sendSwarm (.sync query) with
  | (.ok _, c') => .ret c'
  | (.error _, _) => .panic

/-- The reply, the result the run loop would log, and the controller afterwards. -/
def handleCommand (c : Controller Text) (m : Moment) (command : ControllerCommands) :
    Outcome (Reply × Except Report Unit × Controller Text) :=
  match command with
  | .connectToPeer address => .ret (.none, c.sendSwarm (.connectToPeer address))
  | .returnNetworkState => .ret (.none, c.sendSwarm .returnNetworkState)
  | .announceSelf => .ret (.none, c.sendSwarm .announceSelf)
  | .broadcast message =>
      match c.validateAndInsert m message with
      | (.ok _, c') =>
          match c'.sendSwarm (.broadcast message) with
          | (.error report, c'') => .ret (.broadcast (.error (.swarm report)), .ok (), c'')
          | (.ok _, c'') => .ret (.broadcast (.ok ()), .ok (), c'')
      | (.error error, c') => .ret (.broadcast (.error (.insert error)), .ok (), c')
  | .returnNodeInfo => .ret (.none, c.sendSwarm .returnNodeInfo)
  | .listAll => .ret (.listAll c.store.listAll, .ok (), c)
  | .resolveOnchainMint claim =>
      let c' := { c with store := c.store.markSeenOnChain claim }
      if c.config.chainInclusionMode = .check then
        .ret (.none, .ok (), (c'.sendSwarm (.sendOnchainMintFound claim)).2)
      else .ret (.none, .ok (), c')
  | .sync =>
      match c.requestSync m with
      | .ret c' => .ret (.none, .ok (), c')
      | .panic => .panic

/-! ## The run loop -/

/-- What the run loop picks up next. -/
inductive Input where
  | event (event : P2PEvent)
  | command (command : ControllerCommands)
  | syncTick

/-- One turn of `Controller::run_loop` that does not panic. -/
inductive Step [Libp2p] (c : Controller Text) : Input → Controller Text → Prop
  | event {event : P2PEvent} {c' : Controller Text} (h : HandleEvent c event (.ret c')) :
      Step c (.event event) c'
  | command (m : Moment) {command : ControllerCommands} {reply : Reply}
      {result : Except Report Unit} {c' : Controller Text}
      (h : c.handleCommand m command = .ret (reply, result, c')) : Step c (.command command) c'
  | syncTick (m : Moment) {c' : Controller Text} (h : c.requestSync m = .ret c') :
      Step c .syncTick c'

/-- A node as it is started: an empty store and the given rules. -/
def new (config : Config) (rules : RulesEngine Text) : Controller Text where
  store := .new config.pruneMintedPremints
  rules := rules
  config := config

/-- The node runs through these inputs. -/
abbrev Run [Libp2p] : Controller Text → List Input → Controller Text → Prop := Lib.Run Step

end Controller

end Mintpool
