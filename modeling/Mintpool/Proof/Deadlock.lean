import Mintpool.Proof.Crash
import Mintpool.Sample
import Mintpool.Services

/-!
# When the two tasks deadlock

A task that waits for room in the other's channel takes nothing from its own. So the swarm,
waiting to tell the controller something, keeps the controller's commands from being taken,
and the controller, waiting to pass a command on, keeps the swarm's events from being taken.
Once each waits for the other neither goes on, and nothing from outside changes that.

Handling an event sends nothing to the swarm, so the controller gets there through commands
and ticks only. And of the two tasks the one that starts to wait last closes the circle.
-/

namespace Mintpool.P2PServices

open Mintpool.Proof
open Lib (Channel)

/-! ## Waiting -/

section Waiting

variable {Text : Type}

/-- The swarm waits for the controller: for room among the events, or for the answer to a
request that is still among them. -/
def SwarmWaits (s : P2PServices Text) : Prop :=
  (∃ event, s.swarmTask = .send event ∧ s.events.isFull = true)
    ∨ (s.swarmTask = .recv none ∧ ∃ query, .syncRequest query ∈ s.events.items)

/-- The controller waits for the swarm. -/
def ControllerWaits (s : P2PServices Text) : Prop :=
  ∃ command, s.controllerTask = .send command ∧ s.swarmCommands.isFull = true

def Deadlocked (s : P2PServices Text) : Prop := s.SwarmWaits ∧ s.ControllerWaits

/-- Both tasks wait for something new to come in. -/
structure Quiet (s : P2PServices Text) : Prop where
  swarm : s.swarmTask = .select
  swarmCommands : s.swarmCommands.items = []
  controller : s.controllerTask = .select
  events : s.events.items = []
  externalCommands : s.externalCommands.items = []

/-- A task goes on with what is there already. -/
def Input.own : Input Text → Bool
  | .swarmCommand | .swarmSend | .swarmRecv | .event | .command _ | .controllerSend => true
  | _ => false

variable [Alloy] [Codec Text] [Libp2p] [Unicode]

def CanStep (s : P2PServices Text) : Prop :=
  ∃ (i : Input Text) (s' : P2PServices Text), i.own = true ∧ Step s i s'

/-- The tasks do not wait for each other, and one of them can go on unless both are idle. -/
def Live (s : P2PServices Text) : Prop := ¬ s.Deadlocked ∧ (s.CanStep ∨ s.Quiet)

/-! ## The steps that close the circle -/

/-- The swarm has something to tell the controller about this. -/
def tellsController (s : P2PServices Text) : Input Text → Bool
  | .message propagationSource message =>
      match handleGossipsubEvent s.premintNames propagationSource message with
      | .ok (.send _) => true
      | _ => false
  | .syncRequest _ | .syncResponse (.premints _) => true
  | _ => false

/-- The controller passes the command on to the swarm. -/
def passesOn (c : Controller Text) (m : Moment) : ControllerCommands → Bool
  | .connectToPeer _ | .returnNetworkState | .announceSelf | .returnNodeInfo | .sync => true
  | .broadcast message =>
      match (c.validateAndInsert m message).1 with
      | .ok _ => true
      | .error _ => false
  | .listAll => false
  | .resolveOnchainMint _ => c.config.chainInclusionMode = .check

/-- While one task waits for the other, the other does not start to wait for it. -/
def Avoids (s : P2PServices Text) : Input Text → Prop
  | .swarmSend => s.ControllerWaits → ∀ query, s.swarmTask ≠ .send (.syncRequest query)
  | .command m => s.SwarmWaits → s.swarmCommands.isFull = true →
      ∀ command ∈ s.externalCommands.items.head?, passesOn s.controller m command = false
  | .syncTick _ => s.SwarmWaits → s.swarmCommands.isFull = false
  | i => s.ControllerWaits → s.tellsController i = true → s.events.isFull = false

end Waiting

/-! ## What the controller sends -/

section Sends

variable {Text : Type} [Alloy] [Codec Text] {c c' : Controller Text} {m : Moment}

/-- **Handling an event sends nothing to the swarm.** -/
theorem handleEvent_sends_nothing [Libp2p] {event : P2PEvent}
    (h : Controller.HandleEvent c event (.ret c')) :
    c'.swarmCommands = c.swarmCommands ∧ c'.swarmOpen = c.swarmOpen := by
  cases h with
  | networkState => exact ⟨rfl, rfl⟩
  | premintReceived m premint => exact ⟨rfl, rfl⟩
  | mintSeenOnchain m claim h =>
      rcases handleEventOnchainClaim_writes h with rfl | rfl
      · exact ⟨rfl, rfl⟩
      · exact ⟨rfl, rfl⟩
  | syncRequest query => exact ⟨rfl, rfl⟩
  | syncResponse premints schedule h hdone => exact ⟨rfl, rfl⟩

/-- The controller has handled something and is in a send if `sends`; if not, it is done. -/
def Sends (sends : Bool) (outcome : Outcome (Controller Text)) : Prop :=
  ∃ c', outcome = .ret c' ∧ c'.swarmOpen = true
    ∧ if sends then ∃ command, ControllerTask.of c'.swarmCommands = .send command
      else ControllerTask.of c'.swarmCommands = .select

omit [Alloy] [Codec Text] in
theorem sends_sendSwarm (hopen : c.swarmOpen = true) (hidle : c.swarmCommands = [])
    (command : SwarmCommand) : Sends true (.ret (c.sendSwarm command).2) := by
  rw [sendSwarm_of_open hopen, hidle]
  exact ⟨_, rfl, hopen, command, rfl⟩

omit [Alloy] [Codec Text] in
theorem sends_nothing (hopen : c.swarmOpen = true) (hidle : c.swarmCommands = []) :
    Sends false (.ret c) := by
  refine ⟨c, rfl, hopen, ?_⟩
  rw [hidle]
  rfl

omit [Alloy] [Codec Text] in
theorem swarmOpen_of_sends {sends : Bool} {outcome : Outcome (Controller Text)}
    (h : Sends sends outcome) (c' : Controller Text) (hc' : outcome = .ret c') :
    c'.swarmOpen = true := by
  obtain ⟨c₁, hret, hopen, _⟩ := h
  rw [hret] at hc'
  cases hc'
  exact hopen

omit [Alloy] [Codec Text] in
theorem sends_requestSync (hopen : c.swarmOpen = true) (hidle : c.swarmCommands = [])
    (m : Moment) : Sends true (c.requestSync m) := by
  unfold Controller.requestSync
  dsimp only
  rw [sendSwarm_of_open hopen, hidle]
  exact ⟨_, rfl, hopen, _, rfl⟩

/-- **What a command sends to the swarm.** If it is passed on, one thing; if not, nothing. -/
theorem sends_command (hopen : c.swarmOpen = true) (hidle : c.swarmCommands = []) (m : Moment)
    (command : ControllerCommands) : Sends (passesOn c m command) (commandOutcome c m command) := by
  cases command with
  | connectToPeer address => exact sends_sendSwarm hopen hidle (.connectToPeer address)
  | returnNetworkState => exact sends_sendSwarm hopen hidle .returnNetworkState
  | announceSelf => exact sends_sendSwarm hopen hidle .announceSelf
  | returnNodeInfo => exact sends_sendSwarm hopen hidle .returnNodeInfo
  | listAll => exact sends_nothing hopen hidle
  | broadcast message =>
      have hopen₁ : (c.validateAndInsert m message).2.swarmOpen = true := hopen
      have hidle₁ : (c.validateAndInsert m message).2.swarmCommands = [] := hidle
      unfold commandOutcome Controller.handleCommand passesOn
      dsimp only
      revert hopen₁ hidle₁
      rcases c.validateAndInsert m message with ⟨result, c₁⟩
      intro hopen₁ hidle₁
      cases result with
      | ok evaluation =>
          -- an open channel takes it, so the error branch of the send is not reached
          have hsends := sends_sendSwarm hopen₁ hidle₁ (.broadcast message)
          dsimp only at hsends ⊢
          rw [sendSwarm_of_open hopen₁] at hsends ⊢
          exact hsends
      | error error => exact sends_nothing hopen₁ hidle₁
  | resolveOnchainMint claim =>
      unfold commandOutcome Controller.handleCommand passesOn
      dsimp only
      by_cases hmode : c.config.chainInclusionMode = .check
      · rw [if_pos hmode, decide_eq_true hmode]
        exact sends_sendSwarm (c := { c with store := c.store.markSeenOnChain claim }) hopen hidle _
      · rw [if_neg hmode, decide_eq_false hmode]
        exact sends_nothing (c := { c with store := c.store.markSeenOnChain claim }) hopen hidle
  | sync =>
      have hsends := sends_requestSync hopen hidle m
      unfold commandOutcome Controller.handleCommand
      dsimp only
      cases hreq : c.requestSync m with
      | ret c' => rw [hreq] at hsends; exact hsends
      | panic => rw [hreq] at hsends; exact hsends

end Sends

/-! ## What every step keeps -/

section Coherent

variable {Text : Type}

def isSyncRequest : P2PEvent → Bool
  | .syncRequest _ => true
  | _ => false

theorem isSyncRequest_iff {event : P2PEvent} :
    isSyncRequest event = true ↔ ∃ query, event = .syncRequest query := by
  cases event <;> simp [isSyncRequest]

/-- How many requests the controller has not answered. -/
def openRequests : SwarmTask → Nat
  | .recv none => 1
  | _ => 0

theorem openRequests_of_ne {task : SwarmTask} (h : task ≠ .recv none) : openRequests task = 0 := by
  unfold openRequests
  split
  · exact absurd rfl h
  · rfl

/-- The request that the swarm waits for is among the events, and there is no other. -/
structure Coherent (s : P2PServices Text) : Prop where
  swarmOpen : s.controller.swarmOpen = true
  asked : s.controllerTask ≠ .panicked →
    s.events.items.countP isSyncRequest = openRequests s.swarmTask

theorem coherent_start (capacities : Capacities) (config : Config) (rules : RulesEngine Text) :
    Coherent (startP2PServices capacities config rules) :=
  ⟨rfl, fun _ => rfl⟩

/-- The controller sends what it has sent to an open channel, so it goes on being open. -/
theorem coherent_handled {s : P2PServices Text} {o : Outcome (Controller Text)} (h : Coherent s)
    (hlive : s.controllerTask ≠ .panicked) (ho : ∀ c', o = .ret c' → c'.swarmOpen = true) :
    Coherent (handled s o) := by
  cases o with
  | ret c' => exact ⟨ho c' rfl, fun _ => h.asked hlive⟩
  | panic => exact ⟨h.swarmOpen, fun hne => absurd rfl hne⟩

variable {s s' : P2PServices Text}

/-- While the swarm waits for no answer, there is no request among the events. -/
theorem no_request (h : Coherent s) (hlive : s.controllerTask ≠ .panicked)
    (hne : s.swarmTask ≠ .recv none) : s.events.items.countP isSyncRequest = 0 := by
  rw [h.asked hlive, openRequests_of_ne hne]

/-- A swarm that waits for no answer goes on to something else. -/
theorem coherent_goOn {task : SwarmTask} {responses : List SyncResponse} (h : Coherent s)
    (hne : s.swarmTask ≠ .recv none) (htask : task ≠ .recv none) :
    Coherent { s with swarmTask := task, responses } :=
  ⟨h.swarmOpen, fun hlive => by
    rw [openRequests_of_ne htask]
    exact no_request (s := s) h hlive hne⟩

/-- The request is sent, and then the answer is waited for. -/
theorem coherent_sent {event : P2PEvent} {events : Channel P2PEvent} (h : Coherent s)
    (hswarm : s.swarmTask = .send event) (hsend : s.events.send event = some events) :
    Coherent { s with events, swarmTask := .afterSend event } := by
  refine ⟨h.swarmOpen, fun hlive => ?_⟩
  have hnone := no_request h hlive (by simp [hswarm])
  obtain ⟨_, hitems, _⟩ := Channel.send_cases hsend
  dsimp only
  rw [hitems, List.countP_append, hnone]
  cases event with
  | syncRequest query => rfl
  | networkState => rfl
  | premintReceived premint => rfl
  | mintSeenOnchain claim => rfl
  | syncResponse premints => rfl

section Answered

variable [Alloy] [Codec Text]

/-- The request is taken out, and answered; any other event leaves the swarm as it was. -/
theorem coherent_answered {event : P2PEvent} {events : Channel P2PEvent} (h : Coherent s)
    (hlive : s.controllerTask ≠ .panicked) (hrecv : s.events.recv = some (event, events)) :
    Coherent { s with events, swarmTask := s.swarmTask.answered s.controller event } := by
  refine ⟨h.swarmOpen, fun _ => ?_⟩
  have hcount := h.asked hlive
  rw [(Channel.recv_cases hrecv).1] at hcount
  dsimp only
  cases event with
  | syncRequest query =>
      rw [List.countP_cons_of_pos rfl] at hcount
      unfold SwarmTask.answered
      dsimp only
      split
      · rename_i htask
        rw [htask] at hcount
        exact Nat.succ.inj hcount
      · rename_i htask
        rw [openRequests_of_ne htask] at hcount
        omega
  | networkState => rwa [List.countP_cons_of_neg (by decide)] at hcount
  | premintReceived premint => rwa [List.countP_cons_of_neg (by exact fun h => nomatch h)] at hcount
  | mintSeenOnchain claim => rwa [List.countP_cons_of_neg (by exact fun h => nomatch h)] at hcount
  | syncResponse premints => rwa [List.countP_cons_of_neg (by exact fun h => nomatch h)] at hcount

end Answered

variable [Alloy] [Codec Text] [Libp2p] [Unicode] {i : Input Text}

omit [Alloy] in
theorem handleMessage_ne_recv (premintNames : List PremintName) (propagationSource : PeerId)
    (message : Message Text) (result : Option (List PremintTypes)) :
    SwarmTask.handleMessage premintNames propagationSource message ≠ .recv result := by
  unfold SwarmTask.handleMessage
  split
  · exact fun h => nomatch h
  · exact fun h => nomatch h

theorem coherent_step (h : Coherent s) (hs : Step s i s') : Coherent s' := by
  cases hs with
  | sendCommand command hlive hsend => exact ⟨h.swarmOpen, h.asked⟩
  | message propagationSource message hswarm =>
      exact coherent_goOn h (by simp [hswarm])
        (handleMessage_ne_recv _ _ _ _)
  | syncRequest query hswarm =>
      exact coherent_goOn h (by simp [hswarm]) (fun h => nomatch h)
  | syncResponse response hswarm =>
      refine coherent_goOn h (by simp [hswarm]) ?_
      cases response with
      | premints premints => exact fun h => nomatch h
      | error err => exact fun h => nomatch h
  | otherEvent hswarm => exact h
  | swarmCommand hswarm hrecv => exact ⟨h.swarmOpen, h.asked⟩
  | swarmCommandClosed hswarm hempty hclosed => exact h
  | swarmSend hswarm hlive hsend => exact coherent_sent h hswarm hsend
  | swarmSendClosed hswarm hclosed => exact ⟨h.swarmOpen, fun hlive => absurd hclosed hlive⟩
  | swarmRecv hswarm =>
      exact coherent_goOn h (by simp [hswarm]) (fun h => nomatch h)
  | swarmRecvClosed hswarm hclosed => exact ⟨h.swarmOpen, fun hlive => absurd hclosed hlive⟩
  | event hcontroller hrecv hevent =>
      -- the controller was there to take the event, and handling it sends nothing
      have hlive : s.controllerTask ≠ .panicked := by simp [hcontroller]
      refine coherent_handled (coherent_answered h hlive hrecv) hlive ?_
      intro c' hc'
      rw [hc'] at hevent
      exact (handleEvent_sends_nothing hevent).2.trans h.swarmOpen
  | command m hcontroller hrecv =>
      refine coherent_handled ⟨h.swarmOpen, h.asked⟩ (by simp [hcontroller]) ?_
      exact swarmOpen_of_sends (sends_command (c := idle s.controller) h.swarmOpen rfl m _)
  | syncTick m hcontroller =>
      refine coherent_handled h (by simp [hcontroller]) ?_
      exact swarmOpen_of_sends (sends_requestSync (c := idle s.controller) h.swarmOpen rfl m)
  | controllerSend hcontroller hsend =>
      exact ⟨h.swarmOpen, fun _ => h.asked (by simp [hcontroller])⟩

end Coherent

/-! ## The circle -/

section Circle

variable {Text : Type} {s : P2PServices Text}

/-- In its `select!` the swarm waits for nobody. -/
theorem not_deadlocked_of_swarm (h : s.swarmTask = .select) : ¬ s.Deadlocked := by
  intro ⟨hswarm, _⟩
  rcases hswarm with ⟨event, htask, _⟩ | ⟨htask, _⟩
  · rw [h] at htask; cases htask
  · rw [h] at htask; cases htask

/-- And the controller waits for nobody unless it sends. -/
theorem not_deadlocked_of_controller (h : ∀ command, s.controllerTask ≠ .send command) :
    ¬ s.Deadlocked := by
  intro ⟨_, command, htask, _⟩
  exact h command htask

/-- The swarm has turned to something and is in a send if `tells`; if not, it is done. -/
def Tells (tells : Bool) (task : SwarmTask) : Prop :=
  if tells then ∃ event, task = .send event else task = .select

/-- **The swarm has turned to something.** That closes the circle if it has to tell a waiting
controller about it and there is no room. -/
theorem not_deadlocked_swarm_iff {tells : Bool} {task : SwarmTask} (h : Tells tells task) :
    ¬ Deadlocked { s with swarmTask := task }
      ↔ (s.ControllerWaits → tells = true → s.events.isFull = false) := by
  cases tells with
  | true =>
      obtain ⟨event, rfl⟩ := h
      refine ⟨fun h hwaits _ => ?_, fun h hdead => ?_⟩
      · -- with both channels full neither of the two can go on
        rw [← Bool.not_eq_true]
        exact fun hfull => h ⟨.inl ⟨event, rfl, hfull⟩, hwaits⟩
      · -- there is room for the event, so the swarm does not wait
        obtain ⟨hswarm, hwaits⟩ := hdead
        have hroom := h hwaits rfl
        rcases hswarm with ⟨_, _, hfull⟩ | ⟨hrecv, _⟩
        · rw [hroom] at hfull; cases hfull
        · cases hrecv
  | false => exact ⟨fun _ _ h => (nomatch h), fun _ => not_deadlocked_of_swarm h⟩

/-- **The controller has handled something.** That closes the circle if it has to pass a command
on to a waiting swarm and there is no room. -/
theorem not_deadlocked_controller_iff {sends : Bool} {outcome : Outcome (Controller Text)}
    (h : Sends sends outcome) :
    ¬ Deadlocked (handled s outcome)
      ↔ (s.SwarmWaits → s.swarmCommands.isFull = true → sends = false) := by
  obtain ⟨c', rfl, _, hsends⟩ := h
  cases sends with
  | true =>
      obtain ⟨command, hcommand⟩ := hsends
      refine ⟨fun h hwaits hfull => absurd ⟨hwaits, command, hcommand, hfull⟩ h, fun h hdead => ?_⟩
      obtain ⟨hwaits, _, _, hfull⟩ := hdead
      cases h hwaits hfull
  | false =>
      have htask : (handled s (.ret c')).controllerTask = .select := hsends
      exact ⟨fun _ _ _ => rfl, fun _ => not_deadlocked_of_controller (by simp [htask])⟩

/-- **The swarm's send has gone through.** That closes the circle if it was a request, which a
waiting controller will not answer. -/
theorem not_deadlocked_sent_iff {event : P2PEvent} {events : Channel P2PEvent}
    (hsend : s.events.send event = some events) :
    ¬ Deadlocked { s with events, swarmTask := .afterSend event }
      ↔ (s.ControllerWaits → ∀ query, event ≠ .syncRequest query) := by
  have hitems := (Channel.send_cases hsend).2.1
  refine ⟨fun h hwaits query hevent => ?_, fun h hdead => ?_⟩
  · have hmem : .syncRequest query ∈ events.items := by rw [hitems, hevent]; simp
    rw [hevent] at h
    exact absurd ⟨.inr ⟨rfl, query, hmem⟩, hwaits⟩ h
  · obtain ⟨hswarm, hwaits⟩ := hdead
    have hnot := h hwaits
    -- after a send the swarm sends no second event, and only a request is answered
    cases event with
    | syncRequest query => exact hnot query rfl
    | networkState => exact not_deadlocked_of_swarm rfl ⟨hswarm, hwaits⟩
    | premintReceived premint => exact not_deadlocked_of_swarm rfl ⟨hswarm, hwaits⟩
    | mintSeenOnchain claim => exact not_deadlocked_of_swarm rfl ⟨hswarm, hwaits⟩
    | syncResponse premints => exact not_deadlocked_of_swarm rfl ⟨hswarm, hwaits⟩

variable [Codec Text] [Libp2p] [Unicode]

theorem tells_message (s : P2PServices Text) (propagationSource : PeerId)
    (message : Message Text) :
    Tells (s.tellsController (.message propagationSource message))
      (.handleMessage s.premintNames propagationSource message) := by
  unfold tellsController SwarmTask.handleMessage
  dsimp only
  cases handleGossipsubEvent s.premintNames propagationSource message with
  | error report => exact rfl
  | ok action =>
      cases action with
      | dial address => exact rfl
      | send event => exact ⟨event, rfl⟩
      | ignore => exact rfl

theorem tells_response (s : P2PServices Text) (response : SyncResponse) :
    Tells (s.tellsController (.syncResponse response)) (.handleResponse response) := by
  cases response with
  | premints premints => exact ⟨_, rfl⟩
  | error err => exact rfl

variable [Alloy] {s' : P2PServices Text} {i : Input Text}

/-- **A step leads out of the states without a deadlock exactly when it closes the circle.** -/
theorem not_deadlocked_step_iff (h : Coherent s) (hs : Step s i s') :
    ¬ s'.Deadlocked ↔ ¬ s.Deadlocked ∧ s.Avoids i := by
  cases hs with
  | sendCommand command hlive hsend =>
      exact ⟨fun h => ⟨h, fun _ htells => nomatch htells⟩, fun h => h.1⟩
  | message propagationSource message hswarm =>
      rw [and_iff_right (not_deadlocked_of_swarm hswarm)]
      exact not_deadlocked_swarm_iff (tells_message s propagationSource message)
  | syncRequest query hswarm =>
      rw [and_iff_right (not_deadlocked_of_swarm hswarm)]
      have htells : Tells true (.send (.syncRequest query)) := ⟨_, rfl⟩
      exact not_deadlocked_swarm_iff htells
  | syncResponse response hswarm =>
      rw [and_iff_right (not_deadlocked_of_swarm hswarm)]
      exact not_deadlocked_swarm_iff (tells_response s response)
  | otherEvent hswarm =>
      exact ⟨fun h => ⟨h, fun _ htells => nomatch htells⟩, fun h => h.1⟩
  | swarmCommand hswarm hrecv =>
      exact ⟨fun _ => ⟨not_deadlocked_of_swarm hswarm, fun _ htells => nomatch htells⟩,
        fun _ => not_deadlocked_of_swarm hswarm⟩
  | swarmCommandClosed hswarm hempty hclosed =>
      exact ⟨fun h => ⟨h, fun _ htells => nomatch htells⟩, fun h => h.1⟩
  | @swarmSend event events hswarm hlive hsend =>
      -- the swarm could send, so there was room; what counts is whether it waits for an answer now
      have hfree : ¬ s.Deadlocked := by
        intro ⟨hwaits, _⟩
        rcases hwaits with ⟨_, _, hfull⟩ | ⟨hrecv, _⟩
        · rw [(Channel.send_cases hsend).1] at hfull; cases hfull
        · rw [hswarm] at hrecv; cases hrecv
      rw [and_iff_right hfree, not_deadlocked_sent_iff hsend]
      have hevent : ∀ query, s.swarmTask ≠ .send (.syncRequest query)
          ↔ event ≠ .syncRequest query := by
        intro query
        rw [hswarm, ne_eq, SwarmTask.send.injEq]
      exact forall_congr' fun _ => forall_congr' fun query => (hevent query).symm
  | swarmSendClosed hswarm hclosed =>
      -- without a controller nobody waits for the swarm
      have hfree : ¬ s.Deadlocked := not_deadlocked_of_controller (by simp [hclosed])
      refine ⟨fun _ => ⟨hfree, fun ⟨_, hcontroller, _⟩ => ?_⟩, fun _ => not_deadlocked_of_swarm rfl⟩
      rw [hclosed] at hcontroller
      cases hcontroller
  | swarmRecv hswarm =>
      have hfree : ¬ s.Deadlocked := by
        intro ⟨hwaits, _⟩
        rcases hwaits with ⟨_, hsend, _⟩ | ⟨hrecv, _⟩
        · rw [hswarm] at hsend; cases hsend
        · rw [hswarm] at hrecv; cases hrecv
      exact ⟨fun _ => ⟨hfree, fun _ htells => nomatch htells⟩, fun _ => not_deadlocked_of_swarm rfl⟩
  | swarmRecvClosed hswarm hclosed =>
      have hfree : ¬ s.Deadlocked := not_deadlocked_of_controller (by simp [hclosed])
      exact ⟨fun _ => ⟨hfree, fun _ htells => nomatch htells⟩, fun _ => not_deadlocked_of_swarm rfl⟩
  | @event event events outcome hcontroller hrecv hevent =>
      have hfree : ¬ s.Deadlocked := not_deadlocked_of_controller (by simp [hcontroller])
      refine ⟨fun _ => ⟨hfree, fun _ htells => nomatch htells⟩, fun _ =>
        not_deadlocked_of_controller fun command hcommand => ?_⟩
      cases outcome with
      | ret c' =>
          -- handling an event leaves the controller with nothing to send
          have htask : ControllerTask.of c'.swarmCommands = .send command := hcommand
          rw [(handleEvent_sends_nothing hevent).1] at htask
          cases htask
      | panic => cases hcommand
  | @command m command externalCommands hcontroller hrecv =>
      have hfree : ¬ s.Deadlocked := not_deadlocked_of_controller (by simp [hcontroller])
      rw [and_iff_right hfree, not_deadlocked_controller_iff
        (sends_command (c := idle s.controller) h.swarmOpen rfl m command)]
      have hhead : s.externalCommands.items.head? = some command := by
        rw [(Channel.recv_cases hrecv).1]
        rfl
      -- the condition is about the command at the head of the channel, which is the one taken
      refine ⟨fun h hwaits hfull other hother => ?_, fun h hwaits hfull => ?_⟩
      · rw [hhead] at hother
        cases hother
        exact h hwaits hfull
      · exact h hwaits hfull command hhead
  | syncTick m hcontroller =>
      have hfree : ¬ s.Deadlocked := not_deadlocked_of_controller (by simp [hcontroller])
      rw [and_iff_right hfree, not_deadlocked_controller_iff
        (sends_requestSync (c := idle s.controller) h.swarmOpen rfl m)]
      refine forall_congr' fun _ => ⟨fun h => ?_, fun h hfull => ?_⟩
      · cases hfull : s.swarmCommands.isFull with
        | false => rfl
        | true => exact nomatch h hfull
      · rw [h] at hfull; cases hfull
  | controllerSend hcontroller hsend =>
      -- the controller could send, so it was not stuck, and now it waits for nothing
      have hfree : ¬ s.Deadlocked := by
        intro ⟨_, _, _, hfull⟩
        rw [(Channel.send_cases hsend).1] at hfull
        cases hfull
      exact ⟨fun _ => ⟨hfree, fun _ htells => nomatch htells⟩, fun _ =>
        not_deadlocked_of_controller fun _ h => nomatch h⟩

/-! ## Going on -/

/-- What to ask the outside world when any answer will do. -/
def anyMoment : Moment := Sample.offline

/-- With the controller gone, nothing keeps the swarm from going on. -/
theorem canStep_of_panicked (hclosed : s.controllerTask = .panicked) : s.CanStep := by
  cases hswarm : s.swarmTask with
  | select =>
      by_cases hempty : s.swarmCommands.recv = none
      · exact ⟨_, _, rfl, .swarmCommandClosed hswarm hempty hclosed⟩
      · obtain ⟨⟨command, swarmCommands⟩, hrecv⟩ := Option.ne_none_iff_exists'.mp hempty
        exact ⟨_, _, rfl, .swarmCommand hswarm hrecv⟩
  | send event => exact ⟨_, _, rfl, .swarmSendClosed hswarm hclosed⟩
  | recv result =>
      cases result with
      | none => exact ⟨_, _, rfl, .swarmRecvClosed hswarm hclosed⟩
      | some premints => exact ⟨_, _, rfl, .swarmRecv hswarm⟩

/-- In the middle of something, the swarm goes on unless it waits for the controller. -/
theorem canStep_of_swarm (h : Coherent s) (hlive : s.controllerTask ≠ .panicked)
    (hbusy : s.swarmTask ≠ .select) (hfree : ¬ s.SwarmWaits) : s.CanStep := by
  cases hswarm : s.swarmTask with
  | select => exact absurd hswarm hbusy
  | send event =>
      have hroom : s.events.isFull = false := by
        rw [← Bool.not_eq_true]
        exact fun hfull => hfree (.inl ⟨event, hswarm, hfull⟩)
      obtain ⟨events, hsend⟩ := Channel.exists_send hroom event
      exact ⟨_, _, rfl, .swarmSend hswarm hlive hsend⟩
  | recv result =>
      cases result with
      | none =>
          -- the request that is not answered is still there
          have hone := h.asked hlive
          rw [hswarm] at hone
          have hpos : 0 < s.events.items.countP isSyncRequest := by rw [hone]; decide
          obtain ⟨event, hmem, hevent⟩ := List.countP_pos_iff.mp hpos
          obtain ⟨query, rfl⟩ := isSyncRequest_iff.mp hevent
          exact absurd (.inr ⟨hswarm, query, hmem⟩) hfree
      | some premints => exact ⟨_, _, rfl, .swarmRecv hswarm⟩

/-- **Without a deadlock a task can go on, unless both wait for something new.** -/
theorem canStep_or_quiet (h : Coherent s) (hfree : ¬ s.Deadlocked) : s.CanStep ∨ s.Quiet := by
  cases hcontroller : s.controllerTask with
  | panicked => exact .inl (canStep_of_panicked hcontroller)
  | send command =>
      -- the controller has a command for the swarm
      left
      cases hfull : s.swarmCommands.isFull with
      | false =>
          obtain ⟨swarmCommands, hsend⟩ := Channel.exists_send hfull command
          exact ⟨_, _, rfl, .controllerSend hcontroller hsend⟩
      | true =>
          -- the channel is full: the swarm takes from it, or does something that ends its turn
          by_cases hswarm : s.swarmTask = .select
          · obtain ⟨_, _, hrecv⟩ := Channel.exists_recv_of_isFull hfull
            exact ⟨_, _, rfl, .swarmCommand hswarm hrecv⟩
          · exact canStep_of_swarm h (by simp [hcontroller]) hswarm
              fun hwaits => hfree ⟨hwaits, command, hcontroller, hfull⟩
  | select =>
      -- the controller takes an event or a command, if there is one
      by_cases hevents : s.events.items = []
      · by_cases hexternal : s.externalCommands.items = []
        · -- there is none, so the swarm does not wait for it either
          have hnot : ¬ s.SwarmWaits := by
            intro hwaits
            rcases hwaits with ⟨_, _, hfull⟩ | ⟨_, _, hmem⟩
            · rw [Channel.not_isFull_of_nil hevents] at hfull; cases hfull
            · rw [hevents] at hmem; cases hmem
          by_cases hswarm : s.swarmTask = .select
          · -- and the swarm takes a command, if there is one
            by_cases hcommands : s.swarmCommands.items = []
            · exact .inr ⟨hswarm, hcommands, hcontroller, hevents, hexternal⟩
            · obtain ⟨_, _, hrecv⟩ := Channel.exists_recv hcommands
              exact .inl ⟨_, _, rfl, .swarmCommand hswarm hrecv⟩
          · exact .inl (canStep_of_swarm h (by simp [hcontroller]) hswarm hnot)
        · obtain ⟨command, _, hrecv⟩ := Channel.exists_recv hexternal
          exact .inl ⟨_, _, rfl, .command anyMoment hcontroller hrecv⟩
      · obtain ⟨event, _, hrecv⟩ := Channel.exists_recv hevents
        obtain ⟨outcome, hevent⟩ := exists_handleEvent anyMoment (idle s.controller) event
        exact .inl ⟨_, _, rfl, .event hcontroller hrecv hevent⟩

/-- **In a deadlock neither task can go on.** -/
theorem not_canStep_of_deadlocked (h : s.Deadlocked) : ¬ s.CanStep := by
  obtain ⟨hwaits, command, hcontroller, hfull⟩ := h
  -- the swarm waits, so it neither selects nor has an answer
  have hswarm : ∀ premints, s.swarmTask ≠ .select ∧ s.swarmTask ≠ .recv (some premints) := by
    intro premints
    rcases hwaits with ⟨event, htask, _⟩ | ⟨htask, _⟩
    · simp [htask]
    · simp [htask]
  intro ⟨i, s', hown, hs⟩
  cases hs with
  | sendCommand command hlive hsend => cases hown
  | message propagationSource message hselect => cases hown
  | syncRequest query hselect => cases hown
  | syncResponse response hselect => cases hown
  | otherEvent hselect => cases hown
  | swarmCommand hselect hrecv => exact (hswarm []).1 hselect
  | swarmCommandClosed hselect hempty hclosed => exact (hswarm []).1 hselect
  | swarmSend htask hlive hsend =>
      -- it waits for room that there is not, or for an answer
      rcases hwaits with ⟨_, _, hevents⟩ | ⟨hrecv, _⟩
      · rw [(Channel.send_cases hsend).1] at hevents; cases hevents
      · rw [htask] at hrecv; cases hrecv
  | swarmSendClosed htask hclosed => rw [hcontroller] at hclosed; cases hclosed
  | swarmRecv htask => exact (hswarm _).2 htask
  | swarmRecvClosed htask hclosed => rw [hcontroller] at hclosed; cases hclosed
  | event hselect hrecv hevent => rw [hcontroller] at hselect; cases hselect
  | command m hselect hrecv => rw [hcontroller] at hselect; cases hselect
  | syncTick m hselect => rw [hcontroller] at hselect; cases hselect
  | controllerSend hselect hsend =>
      -- the channel is full, so the controller cannot send
      rw [(Channel.send_cases hsend).1] at hfull
      cases hfull

theorem live_iff (h : Coherent s) : s.Live ↔ ¬ s.Deadlocked :=
  ⟨fun hlive => hlive.1, fun hfree => ⟨hfree, canStep_or_quiet h hfree⟩⟩

/-- **A deadlock is for good.** -/
theorem deadlocked_run {is : List (Input Text)} (h : Coherent s) (hdead : s.Deadlocked)
    (hrun : Run s is s') : s'.Deadlocked := by
  have hboth := Lib.Run.invariant (P := fun s => Coherent s ∧ s.Deadlocked) ⟨h, hdead⟩
    (fun s i s' hs hstep => ⟨coherent_step hs.1 hstep, ?_⟩) hrun
  · exact hboth.2
  · by_contra hfree
    exact ((not_deadlocked_step_iff hs.1 hstep).mp hfree).1 hs.2

/--
**The two tasks stay live exactly as long as no step closes the circle**: neither task starts
to wait for the other while the other waits for it.
-/
theorem live_iff_avoids {capacities : Capacities} {config : Config} {rules : RulesEngine Text}
    {is : List (Input Text)} (hrun : Run (startP2PServices capacities config rules) is s) :
    s.Live ↔ Lib.Run (fun s i s' => Step s i s' ∧ Avoids s i)
      (startP2PServices capacities config rules) is s := by
  have hstart := coherent_start capacities config rules
  have hcoherent : Coherent s :=
    Lib.Run.invariant hstart (fun _ _ _ h hs => coherent_step h hs) hrun
  rw [live_iff hcoherent]
  exact Lib.Run.iff_restrict_of (I := Coherent) (P := fun s => ¬ s.Deadlocked)
    (fun _ _ _ h hs => coherent_step h hs)
    (fun _ _ _ h hs => not_deadlocked_step_iff h hs) hstart (not_deadlocked_of_swarm rfl) hrun

end Circle

/-! ## A node under load

While its swarm is busy, a node gets more commands to pass on than its channel has room for,
and a request for premints between the last two of them.
-/

section Load

variable {Text : Type}

/-- A command comes in, and the controller is about to pass it on. -/
def takeCommand : List (Input Text) := [.sendCommand .announceSelf, .command anyMoment]

/-- And has passed it on. -/
def passCommand : List (Input Text) := takeCommand ++ [.controllerSend]

/-- The swarm has asked the controller for another node. -/
def askController : List (Input Text) := [.syncRequest {}, .swarmSend]

def load (n : Nat) : List (Input Text) :=
  (List.replicate n passCommand).flatten ++ askController ++ takeCommand

/-- Nothing is under way but `n` commands for the swarm. -/
structure Loaded (s : P2PServices Text) (n : Nat) : Prop where
  swarmTask : s.swarmTask = .select
  controllerTask : s.controllerTask = .select
  events : s.events.items = []
  externalCommands : s.externalCommands.items = []
  swarmCommands : s.swarmCommands.items.length = n
  swarmOpen : s.controller.swarmOpen = true

variable [Alloy] [Codec Text] [Libp2p] [Unicode] {s : P2PServices Text} {n : Nat}

theorem run_takeCommand (hcontroller : s.controllerTask = .select)
    (hexternal : s.externalCommands.items = []) (hopen : s.controller.swarmOpen = true) :
    ∃ s' command, Run s takeCommand s' ∧ s'.controllerTask = .send command
      ∧ s'.controller.swarmOpen = true ∧ s'.externalCommands.items = []
      ∧ s'.swarmCommands = s.swarmCommands ∧ s'.events = s.events
      ∧ s'.swarmTask = s.swarmTask := by
  -- the command goes into the empty channel and comes out again
  obtain ⟨queued, hsend⟩ := Channel.exists_send (Channel.not_isFull_of_nil hexternal) .announceSelf
  have hqueued : queued.items = [.announceSelf] := by
    rw [(Channel.send_cases hsend).2.1, hexternal]; rfl
  obtain ⟨command, rest, hrecv⟩ := Channel.exists_recv (c := queued) (by simp [hqueued])
  have htaken : .announceSelf = command ∧ [] = rest.items := by
    have := (Channel.recv_cases hrecv).1
    rw [hqueued] at this
    exact List.cons.inj this
  obtain ⟨c', hret, hopen', sent, hsent⟩ : Sends true
      (commandOutcome (idle s.controller) anyMoment command) := by
    rw [← htaken.1]
    exact sends_command (c := idle s.controller) hopen rfl anyMoment .announceSelf
  have hstep : Step { s with externalCommands := queued } (.command anyMoment)
      (handled { s with externalCommands := rest } (.ret c')) := by
    rw [← hret]
    exact .command anyMoment hcontroller hrecv
  refine ⟨_, sent, .snoc (.snoc .nil (.sendCommand _ ?_ hsend)) hstep, hsent, hopen',
    htaken.2.symm, rfl, rfl, rfl⟩
  simp [hcontroller]

/-- With room for one more, one more command is passed on. -/
theorem run_passCommand (h : Loaded s n) (hroom : n < s.swarmCommands.capacity) :
    ∃ s', Run s passCommand s' ∧ Loaded s' (n + 1)
      ∧ s'.swarmCommands.capacity = s.swarmCommands.capacity := by
  obtain ⟨s₁, command, hrun, hcontroller, hopen, hexternal, hcommands, hevents, hswarm⟩ :=
    run_takeCommand h.controllerTask h.externalCommands h.swarmOpen
  have hnot : s₁.swarmCommands.isFull = false := by
    rw [hcommands, ← Bool.not_eq_true, Channel.isFull_iff, h.swarmCommands]
    omega
  obtain ⟨swarmCommands, hsend⟩ := Channel.exists_send hnot command
  obtain ⟨_, hitems, hcapacity⟩ := Channel.send_cases hsend
  refine ⟨_, .snoc hrun (.controllerSend hcontroller hsend), ?_, ?_⟩
  · refine ⟨hswarm.trans h.swarmTask, rfl, by rw [← h.events, ← hevents], hexternal, ?_, hopen⟩
    dsimp only
    rw [hitems, List.length_append, hcommands, h.swarmCommands]
    rfl
  · exact hcapacity.trans (by rw [hcommands])

theorem run_load {k : Nat} (h : Loaded s n) (hroom : n + k ≤ s.swarmCommands.capacity) :
    ∃ s', Run s (List.replicate k passCommand).flatten s' ∧ Loaded s' (n + k)
      ∧ s'.swarmCommands.capacity = s.swarmCommands.capacity := by
  induction k generalizing s n with
  | zero => exact ⟨s, .nil, h, rfl⟩
  | succ k ih =>
      obtain ⟨s₁, hrun₁, h₁, hcapacity₁⟩ := run_passCommand h (by omega)
      obtain ⟨s₂, hrun₂, h₂, hcapacity₂⟩ := ih h₁ (by omega)
      refine ⟨s₂, ?_, by rwa [Nat.add_comm k 1, ← Nat.add_assoc], hcapacity₂.trans hcapacity₁⟩
      rw [List.replicate_succ, List.flatten_cons]
      exact hrun₁.trans hrun₂

/-- **Every node can get there, whatever the capacities.** -/
theorem load_deadlocks (capacities : Capacities) (config : Config) (rules : RulesEngine Text) :
    ∃ s, Run (startP2PServices capacities config rules) (load capacities.swarmCommands) s
      ∧ s.Deadlocked := by
  have hstart : Loaded (startP2PServices capacities config rules) 0 :=
    ⟨rfl, rfl, rfl, rfl, rfl, rfl⟩
  obtain ⟨s₁, hrun₁, h₁, hcapacity₁⟩ := run_load (k := capacities.swarmCommands) hstart
    (by rw [Nat.zero_add]; exact Nat.le_refl _)
  have hfull : s₁.swarmCommands.isFull = true := by
    rw [Channel.isFull_iff, h₁.swarmCommands, hcapacity₁, Nat.zero_add]
    rfl
  -- the swarm asks while its own channel is full
  obtain ⟨events, hsend⟩ := Channel.exists_send (Channel.not_isFull_of_nil h₁.events)
    (.syncRequest {})
  have hmem : .syncRequest {} ∈ events.items := by
    rw [(Channel.send_cases hsend).2.1]
    simp
  have htold : Step s₁ (.syncRequest {}) { s₁ with swarmTask := .send (.syncRequest {}) } :=
    .syncRequest {} h₁.swarmTask
  have hasked : Step { s₁ with swarmTask := .send (.syncRequest {}) } .swarmSend
      { s₁ with events, swarmTask := .recv none } :=
    .swarmSend (s := { s₁ with swarmTask := .send (.syncRequest {}) }) rfl
      (by simp [h₁.controllerTask]) hsend
  have hask : Run s₁ askController { s₁ with events, swarmTask := .recv none } :=
    .snoc (.snoc .nil htold) hasked
  -- and the controller takes the next command before that question
  obtain ⟨s₂, command, hrun₂, hcontroller, _, _, hcommands, hevents, hswarm⟩ :=
    run_takeCommand (s := { s₁ with events, swarmTask := .recv none }) h₁.controllerTask
      h₁.externalCommands h₁.swarmOpen
  refine ⟨s₂, (hrun₁.trans hask).trans hrun₂, .inr ⟨hswarm, {}, ?_⟩, command, hcontroller, ?_⟩
  · rw [hevents]; exact hmem
  · rw [hcommands]; exact hfull

end Load

/-! ## Two nodes -/

section Sample

attribute [local instance] Sample.alloy Sample.libp2p Sample.unicode

/-- **With the capacities of `start_p2p_services`, both tasks of a node can come to a halt.** -/
theorem busy_node_deadlocks :
    ∃ s : P2PServices Wire, Run (startP2PServices {} {} Sample.offlineRules) (load 1024) s
      ∧ s.Deadlocked ∧ ¬ s.CanStep ∧ ¬ s.Quiet := by
  obtain ⟨s, hrun, hdead⟩ := load_deadlocks {} {} Sample.offlineRules
  refine ⟨s, hrun, hdead, not_canStep_of_deadlocked hdead, fun hquiet => ?_⟩
  exact not_deadlocked_of_swarm hquiet.swarm hdead

/-- **If the question is answered first, a node with a full channel stays live.** -/
theorem answering_node_stays_live :
    ∃ s : P2PServices Wire,
      Run (startP2PServices { events := 1, swarmCommands := 1, externalCommands := 1 } {}
        Sample.offlineRules) (passCommand ++ askController ++ [.event, .swarmRecv]) s
      ∧ s.Live := by
  let start : P2PServices Wire := startP2PServices
    { events := 1, swarmCommands := 1, externalCommands := 1 } {} Sample.offlineRules
  have h₀ : Lib.Run (fun s i s' => Step s i s' ∧ Avoids s i) start [] start := .nil
  have h₁ := h₀.snoc ⟨.sendCommand .announceSelf (fun h => nomatch h) rfl, fun _ h => nomatch h⟩
  have h₂ := h₁.snoc ⟨.command anyMoment rfl rfl, fun _ hfull => absurd hfull (by decide)⟩
  have h₃ := h₂.snoc ⟨.controllerSend rfl rfl, fun _ h => nomatch h⟩
  have h₄ := h₃.snoc ⟨.syncRequest {} rfl, fun _ _ => by decide⟩
  have h₅ := h₄.snoc ⟨.swarmSend rfl (fun h => nomatch h) rfl, fun ⟨_, h, _⟩ => nomatch h⟩
  have h₆ := h₅.snoc ⟨.event rfl rfl (.syncRequest {}), fun _ h => nomatch h⟩
  have h₇ := h₆.snoc ⟨.swarmRecv rfl, fun _ h => nomatch h⟩
  have hrun := h₇.mono (fun h => h.1)
  exact ⟨_, hrun, (live_iff_avoids hrun).mpr h₇⟩

end Sample

end Mintpool.P2PServices
