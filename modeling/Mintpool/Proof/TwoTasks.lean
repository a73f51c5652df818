import Mathlib.Data.List.Forall2
import Mintpool.Proof.Deadlock

/-!
# Two tasks, one run loop

The controller by itself is a run loop: it picks up an input, handles it, and has sent its
command to the swarm when it picks up the next. In a node it shares the work with the swarm,
over channels that fill up and drop what is in them if it panics. This file shows that the
second picture refines the first. Whatever the two tasks do, the controller is where a run of
its loop has taken it, over events and commands in the order they came in, and its commands
reach the swarm in the order it sent them.

It follows that a node answers every request of another node once, in order, with what its
table had at one moment.
-/

namespace Mintpool.P2PServices

open Mintpool.Proof
open Lib (Channel)

/-! ## What goes in and what comes out -/

section History

variable {Text : Type}

/-- What the swarm is about to tell the controller. -/
def SwarmTask.sending : SwarmTask → List P2PEvent
  | .send event => [event]
  | _ => []

/-- What the controller is about to tell the swarm. -/
def ControllerTask.sending : ControllerTask → List SwarmCommand
  | .send command => [command]
  | _ => []

/-- What the swarm makes an event of. -/
def tells [Codec Text] [Libp2p] [Unicode] (premintNames : List PremintName) :
    Input Text → List P2PEvent
  | .message propagationSource message =>
      SwarmTask.sending (.handleMessage premintNames propagationSource message)
  | .syncRequest query => [.syncRequest query]
  | .syncResponse response => SwarmTask.sending (.handleResponse response)
  | _ => []

def submits : Input Text → List ControllerCommands
  | .sendCommand command => [command]
  | _ => []

/-- The command that the swarm takes, if there is one. -/
def takes (s : P2PServices Text) : Input Text → List SwarmCommand
  | .swarmCommand => s.swarmCommands.items.take 1
  | _ => []

/-- The commands on their way to the swarm, oldest first. -/
def underWay (s : P2PServices Text) : List SwarmCommand :=
  s.swarmCommands.items ++ ControllerTask.sending s.controllerTask

/-- The event that the controller handles. -/
def eventsOf : Controller.Input → List P2PEvent
  | .event event => [event]
  | _ => []

def commandsOf : Controller.Input → List ControllerCommands
  | .command command => [command]
  | _ => []

/-- The controller, with these commands sent. -/
def withSent (c : Controller Text) (sent : List SwarmCommand) : Controller Text :=
  { c with swarmCommands := sent }

end History

/-! ## Handling does not look at what has been sent -/

section Frame

variable {Text : Type} [Alloy] [Codec Text] {c c' : Controller Text}

theorem handleEventOnchainClaim_withSent [Libp2p] {m : Moment} {claim : PeerInclusionClaim}
    {result : Except Report Unit} {sent : List SwarmCommand}
    (h : (withSent c sent).handleEventOnchainClaim m claim = .ret (result, c'))
    (sent' : List SwarmCommand) :
    (withSent c sent').handleEventOnchainClaim m claim = .ret (result, withSent c' sent') := by
  by_cases hmode : c.config.chainInclusionMode = .trust
  · -- in trust mode only the sender counts
    rw [handleEventOnchainClaim_of_trust (c := withSent c sent) m claim hmode] at h
    rw [handleEventOnchainClaim_of_trust (c := withSent c sent') m claim hmode]
    by_cases htrusted : (withSent c sent).config.trustedPeers.contains claim.fromPeerId = true
    · have htrusted' : (withSent c sent').config.trustedPeers.contains claim.fromPeerId = true :=
        htrusted
      rw [if_pos htrusted] at h
      rw [if_pos htrusted']
      cases h
      rfl
    · -- an untrusted peer: nothing happens, whatever was sent before
      have htrusted' : ¬ (withSent c sent').config.trustedPeers.contains claim.fromPeerId = true :=
        htrusted
      rw [if_neg htrusted] at h
      rw [if_neg htrusted']
      cases h
      rfl
  · rw [handleEventOnchainClaim_of_ne_trust (c := withSent c sent) m claim hmode] at h
    rw [handleEventOnchainClaim_of_ne_trust (c := withSent c sent') m claim hmode]
    -- otherwise the table and the chain decide, and neither knows what was sent
    unfold checkClaim at h ⊢
    dsimp only [withSent] at h ⊢
    cases hget : c.store.getForIdAndKind claim.claim.premintId ⟨claim.claim.kind⟩ with
    | error report => rw [hget] at h; cases h; rfl
    | ok premint =>
        rw [hget] at h
        dsimp only at h ⊢
        cases hcorrect : inclusionClaimCorrect m.chains premint claim.claim with
        | panic => rw [hcorrect] at h; cases h
        | ret correct =>
            rw [hcorrect] at h
            cases correct with
            | error report => cases h; rfl
            | ok correct => cases correct <;> (cases h; rfl)

theorem handleEvent_withSent [Libp2p] {event : P2PEvent} {sent : List SwarmCommand}
    (h : Controller.HandleEvent (withSent c sent) event (.ret c')) (sent' : List SwarmCommand) :
    Controller.HandleEvent (withSent c sent') event (.ret (withSent c' sent')) := by
  cases h with
  | networkState => exact .networkState
  | premintReceived m premint => exact .premintReceived m premint
  | mintSeenOnchain m claim h =>
      exact .mintSeenOnchain m claim (handleEventOnchainClaim_withSent h sent')
  | syncRequest query => exact .syncRequest query
  | syncResponse premints schedule h hdone => exact .syncResponse premints schedule h hdone

/-- Handling something took the idle controller to `c'`, and one that has sent other commands
before goes through the same and sends the same after them. -/
structure Adds (outcome : Outcome (Controller Text))
    (step : List SwarmCommand → Controller Text → Prop) (c' : Controller Text) : Prop where
  ret : outcome = .ret c'
  isOpen : c'.swarmOpen = true
  sending : ControllerTask.sending (.of c'.swarmCommands) = c'.swarmCommands
  step : ∀ sent, step sent (withSent c' (sent ++ c'.swarmCommands))

omit [Alloy] [Codec Text] in
theorem sendSwarm_withSent (hopen : c.swarmOpen = true) (sent : List SwarmCommand)
    (command : SwarmCommand) :
    (withSent c sent).sendSwarm command = (.ok (), withSent c (sent ++ [command])) :=
  sendSwarm_of_open (c := withSent c sent) hopen command

omit [Alloy] [Codec Text] in
/-- Nothing is sent. -/
theorem adds_nothing {step : List SwarmCommand → Controller Text → Prop}
    (hopen : c.swarmOpen = true) (hstep : ∀ sent, step sent (withSent c sent)) :
    Adds (.ret (withSent c [])) step (withSent c []) where
  ret := rfl
  isOpen := hopen
  sending := rfl
  step sent := by
    rw [show (withSent c []).swarmCommands = [] from rfl, List.append_nil]
    exact hstep sent

omit [Alloy] [Codec Text] in
/-- One command is sent. -/
theorem adds_one {step : List SwarmCommand → Controller Text → Prop} {command : SwarmCommand}
    (hopen : c.swarmOpen = true) (hstep : ∀ sent, step sent (withSent c (sent ++ [command]))) :
    Adds (.ret (withSent c [command])) step (withSent c [command]) where
  ret := rfl
  isOpen := hopen
  sending := rfl
  step := hstep

omit [Alloy] [Codec Text] in
theorem adds_requestSync (hopen : c.swarmOpen = true) (m : Moment) :
    ∃ c', Adds ((idle c).requestSync m)
      (fun sent c'' => (withSent c sent).requestSync m = .ret c'') c' := by
  have hreq : ∀ sent, (withSent c sent).requestSync m = .ret (withSent c (sent ++ [.sync
      { «from» := some { m.clock with
        secs := m.clock.secs - 60 * 60 * c.config.syncLookbackHours } }])) := by
    intro sent
    unfold Controller.requestSync
    dsimp only
    rw [sendSwarm_withSent hopen]
    rfl
  rw [show idle c = withSent c [] from rfl, hreq]
  exact ⟨_, adds_one hopen hreq⟩

/-- A command that is passed on as it is. -/
theorem adds_forward (hopen : c.swarmOpen = true) (m : Moment) {command : ControllerCommands}
    {forwarded : SwarmCommand}
    (h : ∀ c : Controller Text, c.handleCommand m command = .ret (.none, c.sendSwarm forwarded)) :
    ∃ c', Adds (commandOutcome (idle c) m command) (fun sent c'' => ∃ reply result,
      (withSent c sent).handleCommand m command = .ret (reply, result, c'')) c' := by
  refine ⟨withSent c [forwarded], ?_⟩
  rw [commandOutcome, h, show idle c = withSent c [] from rfl, sendSwarm_withSent hopen]
  exact adds_one hopen fun sent => ⟨.none, .ok (), by rw [h, sendSwarm_withSent hopen]⟩

/-- **Whatever the command, it is handled in the same way, and sends the same.** -/
theorem adds_command (hopen : c.swarmOpen = true) (m : Moment) (command : ControllerCommands) :
    ∃ c', Adds (commandOutcome (idle c) m command) (fun sent c'' => ∃ reply result,
      (withSent c sent).handleCommand m command = .ret (reply, result, c'')) c' := by
  cases command with
  | connectToPeer address => exact adds_forward hopen m fun _ => rfl
  | returnNetworkState => exact adds_forward hopen m fun _ => rfl
  | announceSelf => exact adds_forward hopen m fun _ => rfl
  | returnNodeInfo => exact adds_forward hopen m fun _ => rfl
  | listAll => exact ⟨_, adds_nothing hopen fun sent => ⟨_, _, rfl⟩⟩
  | broadcast message =>
      -- what is stored, and whether it is, does not depend on what has been sent
      obtain ⟨c₁, result, hval, hopen₁⟩ : ∃ c₁ result, (∀ sent, (withSent c sent).validateAndInsert
          m message = (result, withSent c₁ sent)) ∧ c₁.swarmOpen = true :=
        ⟨(c.validateAndInsert m message).2, (c.validateAndInsert m message).1,
          fun sent => rfl, hopen⟩
      unfold commandOutcome Controller.handleCommand
      dsimp only
      rw [show idle c = withSent c [] from rfl, hval]
      simp only [hval]
      cases result with
      | ok evaluation =>
          dsimp only
          rw [sendSwarm_withSent hopen₁]
          exact ⟨_, adds_one hopen₁ fun sent => ⟨_, _, by rw [sendSwarm_withSent hopen₁]⟩⟩
      | error error => exact ⟨_, adds_nothing hopen₁ fun sent => ⟨_, _, rfl⟩⟩
  | resolveOnchainMint claim =>
      have hopen₁ : { c with store := c.store.markSeenOnChain claim }.swarmOpen = true := hopen
      by_cases hmode : c.config.chainInclusionMode = .check
      · -- a node that checks claims tells the others of it
        have hcheck : ∀ sent, (withSent c sent).handleCommand m (.resolveOnchainMint claim)
            = .ret (.none, .ok (), withSent { c with store := c.store.markSeenOnChain claim }
              (sent ++ [.sendOnchainMintFound claim])) := by
          intro sent
          unfold Controller.handleCommand
          dsimp only
          rw [if_pos (show (withSent c sent).config.chainInclusionMode = .check from hmode)]
          exact congrArg _ (congrArg _ (congrArg _ (congrArg Prod.snd
            (sendSwarm_withSent hopen₁ sent (.sendOnchainMintFound claim)))))
        rw [commandOutcome, show idle c = withSent c [] from rfl, hcheck]
        exact ⟨_, adds_one hopen₁ fun sent => ⟨_, _, hcheck sent⟩⟩
      · -- the other modes keep it to themselves
        have hother : ∀ sent, (withSent c sent).handleCommand m (.resolveOnchainMint claim)
            = .ret (.none, .ok (), withSent { c with store := c.store.markSeenOnChain claim }
              sent) := by
          intro sent
          unfold Controller.handleCommand
          dsimp only
          rw [if_neg (show ¬ (withSent c sent).config.chainInclusionMode = .check from hmode)]
          rfl
        rw [commandOutcome, show idle c = withSent c [] from rfl, hother]
        exact ⟨_, adds_nothing hopen₁ fun sent => ⟨_, _, hother sent⟩⟩
  | sync =>
      obtain ⟨c', hadds⟩ := adds_requestSync hopen m
      -- a sync command is the tick of the run loop
      refine ⟨c', ?_, hadds.isOpen, hadds.sending, fun sent => ⟨.none, .ok (), ?_⟩⟩
      · unfold commandOutcome Controller.handleCommand
        dsimp only
        rw [hadds.ret]
      · unfold Controller.handleCommand
        dsimp only
        rw [hadds.step sent]

end Frame

/-! ## What a step comes to -/

section Moved

variable {Text : Type} [Alloy] [Codec Text] [Libp2p] [Unicode] {s s' : P2PServices Text}
  {i : Input Text}

/-- A step of the node, for the run loop of the controller: it picks up these inputs, and no
event or command goes astray while it has not panicked. -/
structure Moved (s : P2PServices Text) (i : Input Text) (s' : P2PServices Text)
    (js : List Controller.Input) : Prop where
  names : s'.premintNames = s.premintNames
  isOpen : s'.controller.swarmOpen = true
  run : ∀ taken, Controller.Run (withSent s.controller (taken ++ s.underWay)) js
    (withSent s'.controller (taken ++ takes s i ++ s'.underWay))
  live : s'.controllerTask ≠ .panicked → s.controllerTask ≠ .panicked
  idle : s'.controllerTask = .panicked → js = []
  once : js.length ≤ 1
  events : s'.controllerTask ≠ .panicked →
    s.events.items ++ SwarmTask.sending s.swarmTask ++ tells s.premintNames i
      = js.flatMap eventsOf ++ s'.events.items ++ SwarmTask.sending s'.swarmTask
  commands : s'.controllerTask ≠ .panicked →
    s.externalCommands.items ++ submits i = js.flatMap commandsOf ++ s'.externalCommands.items

/-- The controller picks up nothing. -/
theorem moved_still (hopen : s.controller.swarmOpen = true)
    (hnames : s'.premintNames = s.premintNames) (hcontroller : s'.controller = s.controller)
    (hunder : s.underWay = takes s i ++ s'.underWay)
    (hlive : s'.controllerTask ≠ .panicked → s.controllerTask ≠ .panicked)
    (hevents : s'.controllerTask ≠ .panicked →
      s.events.items ++ SwarmTask.sending s.swarmTask ++ tells s.premintNames i
        = s'.events.items ++ SwarmTask.sending s'.swarmTask)
    (hcommands : s'.controllerTask ≠ .panicked →
      s.externalCommands.items ++ submits i = s'.externalCommands.items) : Moved s i s' [] where
  names := hnames
  isOpen := by rw [hcontroller]; exact hopen
  run taken := by
    rw [hcontroller, hunder, List.append_assoc]
    exact .nil
  live := hlive
  idle _ := rfl
  once := Nat.zero_le 1
  events := hevents
  commands := hcommands

/-- The swarm does something else than before, and says so. -/
theorem moved_swarm {task : SwarmTask} {responses : List SyncResponse}
    (hopen : s.controller.swarmOpen = true) (htakes : takes s i = []) (hsubmits : submits i = [])
    (hsending : s.controllerTask ≠ .panicked → SwarmTask.sending s.swarmTask
      ++ tells s.premintNames i = SwarmTask.sending task) :
    Moved s i { s with swarmTask := task, responses } [] := by
  refine moved_still hopen rfl rfl ?_ id (fun hlive => ?_) (fun _ => ?_)
  · rw [htakes]; rfl
  · rw [List.append_assoc, hsending hlive]
  · rw [hsubmits, List.append_nil]

/-- The controller picks up one thing, and is where that takes it. -/
theorem moved_handled {events : Channel P2PEvent} {externalCommands : Channel ControllerCommands}
    {task : SwarmTask} {outcome : Outcome (Controller Text)} {c' : Controller Text}
    {j : Controller.Input} (hcontroller : s.controllerTask = .select) (htakes : takes s i = [])
    (hadds : Adds outcome (fun sent => Controller.Step (withSent s.controller sent) j) c')
    (hevents : s.events.items ++ SwarmTask.sending s.swarmTask ++ tells s.premintNames i
      = eventsOf j ++ events.items ++ SwarmTask.sending task)
    (hcommands : s.externalCommands.items ++ submits i = commandsOf j ++ externalCommands.items) :
    Moved s i (handled { s with events, externalCommands, swarmTask := task } outcome) [j] := by
  rw [hadds.ret]
  have hunder : s.underWay = s.swarmCommands.items := by
    rw [underWay, hcontroller]
    exact List.append_nil _
  have hunder' : (handled { s with events, externalCommands, swarmTask := task }
      (.ret c')).underWay = s.swarmCommands.items ++ c'.swarmCommands :=
    congrArg _ hadds.sending
  refine ⟨rfl, hadds.isOpen, fun taken => ?_, fun _ => by simp [hcontroller], fun hpanicked => ?_,
    Nat.le_refl 1, fun _ => ?_, fun _ => ?_⟩
  · -- what it had sent before stays in front of what it sends now
    rw [hunder, hunder', htakes, List.append_nil, ← List.append_assoc]
    exact .single (hadds.step _)
  · -- it is left with a command to send or with none, so it has not panicked
    have hof : ControllerTask.of c'.swarmCommands = .panicked := hpanicked
    cases hsent : c'.swarmCommands with
    | nil => rw [hsent] at hof; cases hof
    | cons command sent => rw [hsent] at hof; cases hof
  · rw [List.flatMap_singleton]
    exact hevents
  · rw [List.flatMap_singleton]
    exact hcommands

omit [Libp2p] [Unicode] in
theorem sending_answered (task : SwarmTask) (c : Controller Text) (event : P2PEvent) :
    SwarmTask.sending (task.answered c event) = SwarmTask.sending task := by
  unfold SwarmTask.answered
  split
  · split
    · rename_i htask; rw [htask]; rfl
    · rfl
  · rfl

omit [Alloy] [Codec Text] [Libp2p] [Unicode] in
theorem sending_afterSend (event : P2PEvent) : SwarmTask.sending (.afterSend event) = [] := by
  cases event <;> rfl

omit [Unicode] in
/-- Handling an event adds nothing to what has been sent. -/
theorem adds_event {c c' : Controller Text} {event : P2PEvent} (hopen : c.swarmOpen = true)
    (h : Controller.HandleEvent (idle c) event (.ret c')) :
    Adds (.ret c') (fun sent => Controller.Step (withSent c sent) (.event event)) c' := by
  obtain ⟨hsent, hopen'⟩ := handleEvent_sends_nothing h
  have hnone : c'.swarmCommands = [] := hsent
  refine ⟨rfl, hopen'.trans hopen, by rw [hnone]; rfl, fun sent => ?_⟩
  rw [hnone, List.append_nil]
  exact .event (handleEvent_withSent h sent)

/-- The controller panics at an event, and what its channels held is gone. -/
theorem moved_panic {events : Channel P2PEvent} {task : SwarmTask}
    (hopen : s.controller.swarmOpen = true) (hcontroller : s.controllerTask = .select)
    (htakes : takes s i = []) :
    Moved s i (handled { s with events, swarmTask := task } .panic) [] := by
  refine moved_still hopen rfl rfl ?_ (fun hlive => absurd rfl hlive)
    (fun hlive => absurd rfl hlive) (fun hlive => absurd rfl hlive)
  rw [htakes, underWay, hcontroller]
  rfl

/-- **Every step of the two tasks is a step of the run loop, or none.** -/
theorem moved_step (hopen : s.controller.swarmOpen = true) (hs : Step s i s') :
    ∃ js, Moved s i s' js := by
  cases hs with
  | sendCommand command hlive hsend =>
      -- the command waits in the channel for the controller
      refine ⟨[], moved_still hopen rfl rfl rfl id (fun _ => ?_) (fun _ => ?_)⟩
      · exact List.append_nil _
      · exact (Channel.send_cases hsend).2.1.symm
  | message propagationSource message hswarm =>
      exact ⟨[], moved_swarm hopen rfl rfl fun _ => by rw [hswarm]; rfl⟩
  | syncRequest query hswarm =>
      exact ⟨[], moved_swarm hopen rfl rfl fun _ => by rw [hswarm]; rfl⟩
  | syncResponse response hswarm =>
      exact ⟨[], moved_swarm hopen rfl rfl fun _ => by rw [hswarm]; rfl⟩
  | otherEvent hswarm =>
      exact ⟨[], moved_swarm hopen rfl rfl fun _ => List.append_nil _⟩
  | swarmCommand hswarm hrecv =>
      obtain ⟨hitems, _⟩ := Channel.recv_cases hrecv
      refine ⟨[], moved_still hopen rfl rfl ?_ id (fun _ => ?_) (fun _ => ?_)⟩
      · -- the command moves from the channel to what the swarm has taken
        rw [underWay, takes, hitems]; rfl
      · exact List.append_nil _
      · exact List.append_nil _
  | swarmCommandClosed hswarm hempty hclosed =>
      -- the channel is empty and no one sends any more
      have hnone : s.swarmCommands.items = [] := by
        by_contra hne
        obtain ⟨_, _, hrecv⟩ := Channel.exists_recv hne
        rw [hempty] at hrecv
        cases hrecv
      refine ⟨[], moved_swarm hopen ?_ rfl fun _ => List.append_nil _⟩
      rw [takes, hnone]; rfl
  | swarmSend hswarm hlive hsend =>
      refine ⟨[], moved_still hopen rfl rfl rfl id (fun _ => ?_) (fun _ => ?_)⟩
      · -- the event moves from the swarm's hands into the channel
        dsimp only
        rw [hswarm, (Channel.send_cases hsend).2.1, sending_afterSend]
        rfl
      · exact List.append_nil _
  | swarmSendClosed hswarm hclosed =>
      exact ⟨[], moved_swarm hopen rfl rfl fun hlive => absurd hclosed hlive⟩
  | swarmRecv hswarm =>
      exact ⟨[], moved_swarm hopen rfl rfl fun _ => by rw [hswarm]; rfl⟩
  | swarmRecvClosed hswarm hclosed =>
      exact ⟨[], moved_swarm hopen rfl rfl fun hlive => absurd hclosed hlive⟩
  | @event event events outcome hcontroller hrecv hevent =>
      -- the controller takes an event: this is the step of the run loop
      obtain ⟨hitems, _⟩ := Channel.recv_cases hrecv
      cases outcome with
      | panic => exact ⟨[], moved_panic hopen hcontroller rfl⟩
      | ret c' =>
          refine ⟨_, moved_handled hcontroller rfl (adds_event hopen hevent) ?_ ?_⟩
          · rw [sending_answered, hitems]
            exact List.append_nil _
          · exact List.append_nil _
  | @command m command externalCommands hcontroller hrecv =>
      obtain ⟨c', hadds⟩ := adds_command (c := s.controller) hopen m command
      obtain ⟨hitems, _⟩ := Channel.recv_cases hrecv
      have hsteps : Adds (commandOutcome (idle s.controller) m command)
          (fun sent => Controller.Step (withSent s.controller sent) (.command command)) c' := by
        -- the reply goes to whoever sent the command, and leaves nothing in the channels
        refine ⟨hadds.ret, hadds.isOpen, hadds.sending, fun sent => ?_⟩
        obtain ⟨reply, result, hhandle⟩ := hadds.step sent
        exact .command m hhandle
      refine ⟨_, moved_handled hcontroller rfl hsteps ?_ ?_⟩
      · exact List.append_nil _
      · rw [hitems]
        exact List.append_nil _
  | syncTick m hcontroller =>
      obtain ⟨c', hadds⟩ := adds_requestSync (c := s.controller) hopen m
      have hsteps : Adds ((idle s.controller).requestSync m)
          (fun sent => Controller.Step (withSent s.controller sent) .syncTick) c' :=
        ⟨hadds.ret, hadds.isOpen, hadds.sending, fun sent => .syncTick m (hadds.step sent)⟩
      refine ⟨_, moved_handled hcontroller rfl hsteps ?_ ?_⟩
      · exact List.append_nil _
      · exact List.append_nil _
  | controllerSend hcontroller hsend =>
      refine ⟨[], moved_still hopen rfl rfl ?_ (fun _ => by simp [hcontroller]) (fun _ => ?_)
        (fun _ => ?_)⟩
      · -- the command was sent already for the run loop, and reaches the channel only now
        rw [underWay, underWay, hcontroller]
        dsimp only
        rw [(Channel.send_cases hsend).2.1]
        exact (List.append_nil _).symm
      · exact List.append_nil _
      · exact List.append_nil _

end Moved

/-! ## Whole runs -/

section Runs

variable {Text : Type} [Alloy] [Codec Text] [Libp2p] [Unicode]

/-- The node has come to `s`, and its swarm has taken the commands `taken`; the controller by
itself has come to `c`. -/
structure Follows (premintNames : List PremintName) (is : List (Input Text))
    (s : P2PServices Text) (taken : List SwarmCommand) (js : List Controller.Input)
    (c : Controller Text) : Prop where
  names : s.premintNames = premintNames
  isOpen : s.controller.swarmOpen = true
  /-- It is where the controller of the node is, and has sent what the swarm has taken or will. -/
  controller : c = withSent s.controller (taken ++ s.underWay)
  /-- It has handled the events that the node took in, from the first one on. -/
  eventsPrefix : js.flatMap eventsOf <+: is.flatMap (tells premintNames)
  commandsPrefix : js.flatMap commandsOf <+: is.flatMap submits
  /-- And the others are still there, unless the controller panicked. -/
  events : s.controllerTask ≠ .panicked → is.flatMap (tells premintNames)
    = js.flatMap eventsOf ++ s.events.items ++ SwarmTask.sending s.swarmTask
  commands : s.controllerTask ≠ .panicked →
    is.flatMap submits = js.flatMap commandsOf ++ s.externalCommands.items

omit [Alloy] in
theorem follows_start (capacities : Capacities) (config : Config) (rules : RulesEngine Text) :
    Follows config.premintNames [] (startP2PServices capacities config rules) [] []
      (.new config rules) where
  names := rfl
  isOpen := rfl
  controller := rfl
  eventsPrefix := List.prefix_rfl
  commandsPrefix := List.prefix_rfl
  events _ := rfl
  commands _ := rfl

variable {premintNames : List PremintName} {is : List (Input Text)} {s s' : P2PServices Text}
  {taken : List SwarmCommand} {js : List Controller.Input} {c : Controller Text} {i : Input Text}

theorem follows_step (h : Follows premintNames is s taken js c) (hs : Step s i s') :
    ∃ ks c', Moved s i s' ks ∧ Controller.Run c ks c' ∧
      Follows premintNames (is ++ [i]) s' (taken ++ takes s i) (js ++ ks) c' := by
  obtain ⟨ks, hmoved⟩ := moved_step h.isOpen hs
  have hrun := hmoved.run taken
  rw [← h.controller] at hrun
  have hevents : s'.controllerTask ≠ .panicked → (is ++ [i]).flatMap (tells premintNames)
      = (js ++ ks).flatMap eventsOf ++ s'.events.items ++ SwarmTask.sending s'.swarmTask := by
    intro hlive
    have hmoved' := hmoved.events hlive
    rw [h.names] at hmoved'
    -- the new events go to the end of those that are still to be handled
    rw [List.flatMap_append, List.flatMap_singleton, h.events (hmoved.live hlive),
      List.flatMap_append, List.append_assoc, List.append_assoc, ← List.append_assoc s.events.items,
      hmoved', List.append_assoc, List.append_assoc, List.append_assoc]
  have hcommands : s'.controllerTask ≠ .panicked → (is ++ [i]).flatMap submits
      = (js ++ ks).flatMap commandsOf ++ s'.externalCommands.items := by
    intro hlive
    rw [List.flatMap_append, List.flatMap_singleton, h.commands (hmoved.live hlive),
      List.flatMap_append, List.append_assoc, hmoved.commands hlive, List.append_assoc]
  refine ⟨ks, _, hmoved, hrun, hmoved.names.trans h.names, hmoved.isOpen, rfl, ?_, ?_, hevents,
    hcommands⟩
  · -- what a panicked controller did not handle is lost, so only the prefix is left
    by_cases hlive : s'.controllerTask = .panicked
    · rw [hmoved.idle hlive, List.append_nil, List.flatMap_append]
      exact h.eventsPrefix.trans (List.prefix_append _ _)
    · rw [hevents hlive, List.append_assoc]
      exact List.prefix_append _ _
  · by_cases hlive : s'.controllerTask = .panicked
    · rw [hmoved.idle hlive, List.append_nil, List.flatMap_append]
      exact h.commandsPrefix.trans (List.prefix_append _ _)
    · rw [hcommands hlive]
      exact List.prefix_append _ _

/-! ## Requests and their answers -/

/-- The request of another node. -/
def asks : Input Text → List QueryOptions
  | .syncRequest query => [query]
  | _ => []

/-- An event that asks the controller for premints. -/
def queriesOf : P2PEvent → List QueryOptions
  | .syncRequest query => [query]
  | _ => []

/-- The requests that the controller has taken. -/
def requestsIn (js : List Controller.Input) : List QueryOptions :=
  (js.flatMap eventsOf).flatMap queriesOf

/-- On its way from `start` to `c` the controller took the request after just these requests, and
the response is what its table had then. Without a controller it is an error. -/
def Answers (start : Controller Text) (js : List Controller.Input) (c : Controller Text)
    (panicked : Prop) (before : List QueryOptions) (query : QueryOptions) : SyncResponse → Prop
  | .premints premints => ∃ done c' rest, js = done ++ .event (.syncRequest query) :: rest
      ∧ requestsIn done = before ∧ Controller.Run start done c'
      ∧ Controller.Run c' (.event (.syncRequest query) :: rest) c
      ∧ premints = c'.answerSyncRequest query
  | .error _ => panicked

/-- These are the responses to these requests, in their order. -/
inductive Answered (start : Controller Text) (js : List Controller.Input) (c : Controller Text)
    (panicked : Prop) : List QueryOptions → List SyncResponse → Prop
  | nil : Answered start js c panicked [] []
  | snoc {answered : List QueryOptions} {responses : List SyncResponse} {query : QueryOptions}
      {response : SyncResponse} (h : Answered start js c panicked answered responses)
      (hanswer : Answers start js c panicked answered query response) :
      Answered start js c panicked (answered ++ [query]) (responses ++ [response])

/-- The request that the swarm is at, after these. -/
def InHand (start : Controller Text) (js : List Controller.Input) (c : Controller Text)
    (answered : List QueryOptions) : SwarmTask → List QueryOptions → Prop
  | .send (.syncRequest query), current => current = [query]
  | .recv none, current => ∃ query, current = [query]
  | .recv (some premints), current => ∃ query, current = [query]
      ∧ Answers start js c False answered query (.premints premints)
  | _, current => current = []

/-- And the event, if it is one that the controller has to handle first. -/
def awaited : SwarmTask → List QueryOptions → List QueryOptions
  | .recv none, current => current
  | _, _ => []

/-- These requests have been answered, in order, and the swarm is at the one after them. -/
structure Served (start : Controller Text) (is : List (Input Text)) (s : P2PServices Text)
    (js : List Controller.Input) (c : Controller Text) (answered current : List QueryOptions) :
    Prop where
  requests : is.flatMap asks = answered ++ current
  responses : Answered start js c (s.controllerTask = .panicked) answered s.responses
  inHand : InHand start js c answered s.swarmTask current
  queued : s.controllerTask ≠ .panicked →
    s.events.items.flatMap queriesOf = awaited s.swarmTask current

variable {start c' : Controller Text} {ks : List Controller.Input} {answered : List QueryOptions}
  {current : List QueryOptions}

omit [Unicode] in
theorem answers_mono {panicked panicked' : Prop} {before : List QueryOptions}
    (hrun : Controller.Run c ks c') (hpanicked : panicked → panicked') {query : QueryOptions}
    {response : SyncResponse} (h : Answers start js c panicked before query response) :
    Answers start (js ++ ks) c' panicked' before query response := by
  cases response with
  | premints premints =>
      obtain ⟨done, c₀, rest, rfl, hbefore, hdone, hrest, hpremints⟩ := h
      exact ⟨done, c₀, rest ++ ks, by rw [List.append_assoc]; rfl, hbefore, hdone,
        hrest.trans hrun, hpremints⟩
  | error err => exact hpanicked h

omit [Unicode] in
theorem answered_mono {panicked panicked' : Prop} {responses : List SyncResponse}
    (hrun : Controller.Run c ks c') (hpanicked : panicked → panicked')
    (h : Answered start js c panicked answered responses) :
    Answered start (js ++ ks) c' panicked' answered responses := by
  induction h with
  | nil => exact .nil
  | snoc _ hanswer ih => exact .snoc ih (answers_mono hrun hpanicked hanswer)

omit [Unicode] in
/-- The controller has picked up nothing. -/
theorem answered_imp {panicked panicked' : Prop} {responses : List SyncResponse}
    (hpanicked : panicked → panicked') (h : Answered start js c panicked answered responses) :
    Answered start js c panicked' answered responses := by
  rw [← List.append_nil js]
  exact answered_mono .nil hpanicked h

omit [Unicode] in
theorem answers_imp {panicked panicked' : Prop} {before : List QueryOptions} {query : QueryOptions}
    {response : SyncResponse} (hpanicked : panicked → panicked')
    (h : Answers start js c panicked before query response) :
    Answers start js c panicked' before query response := by
  rw [← List.append_nil js]
  exact answers_mono .nil hpanicked h

omit [Unicode] in
theorem inHand_mono (hrun : Controller.Run c ks c') {task : SwarmTask}
    (h : InHand start js c answered task current) :
    InHand start (js ++ ks) c' answered task current := by
  unfold InHand at h ⊢
  split
  · exact h
  · exact h
  · obtain ⟨query, hcurrent, hanswers⟩ := h
    exact ⟨query, hcurrent, answers_mono hrun id hanswers⟩
  · rename_i h₁ h₂ h₃
    split at h
    · exact absurd rfl (h₁ _)
    · exact absurd rfl h₂
    · exact absurd rfl (h₃ _)
    · exact h

omit [Unicode] in
theorem served_mono (hrun : Controller.Run c ks c') (h : Served start is s js c answered current) :
    Served start is s (js ++ ks) c' answered current where
  requests := h.requests
  responses := answered_mono hrun id h.responses
  inHand := inHand_mono hrun h.inHand
  queued := h.queued

omit [Unicode] in
/-- The swarm is where it was, and so are the requests. -/
theorem served_same (h : Served start is s js c answered current) (hasks : asks i = [])
    (htask : s'.swarmTask = s.swarmTask) (hresponses : s'.responses = s.responses)
    (hpanicked : s.controllerTask = .panicked → s'.controllerTask = .panicked)
    (hqueued : s'.controllerTask ≠ .panicked →
      s'.events.items.flatMap queriesOf = s.events.items.flatMap queriesOf) :
    Served start (is ++ [i]) s' js c answered current where
  requests := by
    rw [List.flatMap_append, List.flatMap_singleton, hasks, List.append_nil]
    exact h.requests
  responses := by
    rw [hresponses]
    exact answered_imp hpanicked h.responses
  inHand := by
    rw [htask]
    exact h.inHand
  queued hlive := by
    rw [hqueued hlive, htask]
    exact h.queued fun hdead => hlive (hpanicked hdead)

omit [Unicode] in
/-- The swarm is at no request and turns to something: to a request, or to something else. -/
theorem served_turns {task : SwarmTask} {next : List QueryOptions}
    (h : Served start is s js c answered current) (hselect : s.swarmTask = .select)
    (hasks : asks i = next) (hnext : InHand start js c answered task next)
    (hnone : awaited task next = []) :
    Served start (is ++ [i]) { s with swarmTask := task } js c answered next := by
  -- the swarm turns to something new only between two requests
  have hcurrent : current = [] := by
    have hinHand := h.inHand
    rw [hselect] at hinHand
    exact hinHand
  have hqueued := h.queued
  rw [hselect] at hqueued
  refine ⟨?_, h.responses, hnext, fun hlive => (hqueued hlive).trans hnone.symm⟩
  rw [List.flatMap_append, List.flatMap_singleton, hasks, h.requests, hcurrent, List.append_nil]

omit [Unicode] in
/-- The swarm has answered the request that it was at. -/
theorem served_answered {query : QueryOptions} {response : SyncResponse}
    (h : Served start is s js c answered current) (hasks : asks i = [])
    (hcurrent : current = [query])
    (hanswer : Answers start js c (s.controllerTask = .panicked) answered query response)
    (hqueued : s.controllerTask ≠ .panicked → s.events.items.flatMap queriesOf = []) :
    Served start (is ++ [i])
      { s with swarmTask := .select, responses := s.responses ++ [response] } js c
      (answered ++ [query]) [] where
  requests := by
    rw [List.flatMap_append, List.flatMap_singleton, hasks, h.requests, hcurrent, List.append_nil]
  responses := .snoc h.responses hanswer
  inHand := rfl
  queued := hqueued

omit [Alloy] in
/-- Gossip asks for nothing. -/
theorem not_syncRequest_of_message {names : List PremintName} {source : PeerId}
    {message : Message Text} {query : QueryOptions} :
    handleGossipsubEvent names source message ≠ .ok (.send (.syncRequest query)) := by
  intro hevent
  unfold handleGossipsubEvent at hevent
  split at hevent
  · dsimp only at hevent
    split at hevent <;> cases hevent
  · split at hevent
    · split at hevent <;> cases hevent
    · split at hevent <;> cases hevent

theorem inHand_handleMessage (premintNames : List PremintName)
    (propagationSource : PeerId) (message : Message Text) :
    InHand start js c answered (.handleMessage premintNames propagationSource message) [] := by
  unfold SwarmTask.handleMessage
  split
  · rename_i event hevent
    cases event with
    | syncRequest query => exact (not_syncRequest_of_message hevent).elim
    | networkState => rfl
    | premintReceived premint => rfl
    | mintSeenOnchain claim => rfl
    | syncResponse premints => rfl
  · rfl

omit [Alloy] in
theorem awaited_handleMessage (premintNames : List PremintName) (propagationSource : PeerId)
    (message : Message Text) :
    awaited (.handleMessage premintNames propagationSource message) [] = [] := by
  unfold awaited
  split <;> rfl

omit [Unicode] in
/-- The swarm's event has been sent. -/
theorem served_sent {event : P2PEvent} {events : Channel P2PEvent}
    (h : Served start is s js c answered current) (hswarm : s.swarmTask = .send event)
    (hasks : asks i = []) (hitems : events.items = s.events.items ++ [event]) :
    Served start (is ++ [i]) { s with events, swarmTask := .afterSend event } js c answered
      current := by
  have hinHand := h.inHand
  have hqueued := h.queued
  rw [hswarm] at hinHand hqueued
  refine ⟨?_, h.responses, ?_, fun hlive => ?_⟩
  · rw [List.flatMap_append, List.flatMap_singleton, hasks, List.append_nil]
    exact h.requests
  · -- if it was a request, the swarm waits for its answer now
    cases event with
    | syncRequest query => exact ⟨query, hinHand⟩
    | _ => exact hinHand
  · -- and it is the only one among the events
    dsimp only
    rw [hitems, List.flatMap_append, List.flatMap_singleton, hqueued hlive]
    cases event with
    | syncRequest query => exact hinHand.symm
    | _ => rfl

omit [Alloy] in
/-- What the swarm is told to ask is asked by another node. -/
theorem queries_tells (names : List PremintName) (i : Input Text) :
    (tells names i).flatMap queriesOf = asks i := by
  cases i with
  | message propagationSource message =>
      -- a message of gossip may become an event, but never a request
      show (SwarmTask.sending
        (.handleMessage names propagationSource message)).flatMap queriesOf = []
      unfold SwarmTask.handleMessage
      split
      · rename_i event hevent
        cases event with
        | syncRequest query => exact (not_syncRequest_of_message hevent).elim
        | _ => rfl
      · rfl
  | syncResponse response => cases response <;> rfl
  | _ => rfl

omit [Alloy] in
/-- The requests of other nodes are those that the controller has taken, and those on their way
to it. -/
theorem requests_follow (h : Follows premintNames is s taken js c)
    (hlive : s.controllerTask ≠ .panicked) : is.flatMap asks = requestsIn js
      ++ s.events.items.flatMap queriesOf
      ++ (SwarmTask.sending s.swarmTask).flatMap queriesOf := by
  have hasks : is.flatMap asks = (is.flatMap (tells premintNames)).flatMap queriesOf := by
    rw [List.flatMap_assoc]
    exact List.flatMap_congr fun i _ => (queries_tells premintNames i).symm
  rw [hasks, h.events hlive, List.flatMap_append, List.flatMap_append]
  rfl

/-- The controller has answered the request that the swarm waits for. -/
theorem served_request {query : QueryOptions} {events : Channel P2PEvent} {d : Controller Text}
    (h : Served start is s js c answered current) (hfollows : Follows premintNames is s taken js c)
    (hlive : s.controllerTask ≠ .panicked) (hasks : asks i = [])
    (hitems : s.events.items = .syncRequest query :: events.items)
    (hrun : Controller.Run start js c)
    (hpicked : Controller.Run c [.event (.syncRequest query)] c') :
    Served start (is ++ [i])
      (handled { s with
        events, swarmTask := s.swarmTask.answered s.controller (.syncRequest query) } (.ret d))
      (js ++ [.event (.syncRequest query)]) c' answered current := by
  have hqueued := h.queued hlive
  rw [hitems, List.flatMap_cons] at hqueued
  -- there is a request among the events, so it is the one that the swarm waits for
  have htask : s.swarmTask = .recv none := by
    by_contra hne
    have hnone : awaited s.swarmTask current = [] := by
      unfold awaited
      split
      · rename_i heq; exact absurd heq hne
      · rfl
    rw [hnone] at hqueued
    cases hqueued
  have hinHand := h.inHand
  rw [htask] at hinHand hqueued
  obtain ⟨query', hcurrent⟩ := hinHand
  have hboth : query :: events.items.flatMap queriesOf = [query'] := hqueued.trans hcurrent
  obtain ⟨rfl, hrest⟩ := List.cons.inj hboth
  -- and the controller has taken all those before it
  have hbefore : requestsIn js = answered := by
    have hcounted := requests_follow hfollows hlive
    rw [h.requests, hitems, htask, List.flatMap_cons, hrest, hcurrent] at hcounted
    change answered ++ [query] = requestsIn js ++ [query] ++ [] at hcounted
    rw [List.append_nil] at hcounted
    exact (List.append_cancel_right hcounted).symm
  refine ⟨?_, ?_, ?_, fun _ => ?_⟩
  · rw [List.flatMap_append, List.flatMap_singleton, hasks, List.append_nil]
    exact h.requests
  · exact answered_mono hpicked (fun hdead => absurd hdead hlive) h.responses
  · show InHand start _ _ _ (s.swarmTask.answered s.controller (.syncRequest query)) current
    rw [htask, SwarmTask.answered, if_pos rfl]
    refine ⟨query, hcurrent, js, c, [], rfl, hbefore, hrun, hpicked, ?_⟩
    rw [Controller.answerSyncRequest, Controller.answerSyncRequest, hfollows.controller]
    rfl
  · show events.items.flatMap queriesOf
      = awaited (s.swarmTask.answered s.controller (.syncRequest query)) current
    rw [htask, SwarmTask.answered, if_pos rfl]
    exact hrest

omit [Unicode] in
/-- Another event leaves the requests alone. -/
theorem served_event {event : P2PEvent} {events : Channel P2PEvent}
    {outcome : Outcome (Controller Text)} (h : Served start is s js c answered current)
    (hlive : s.controllerTask ≠ .panicked) (hasks : asks i = [])
    (hitems : s.events.items = event :: events.items) (hother : queriesOf event = []) :
    Served start (is ++ [i])
      (handled { s with events, swarmTask := s.swarmTask.answered s.controller event } outcome)
      js c answered current := by
  have htask : s.swarmTask.answered s.controller event = s.swarmTask := by
    cases event with
    | syncRequest query => cases hother
    | _ => rfl
  rw [htask]
  cases outcome with
  | ret c' =>
      refine served_same h hasks rfl rfl (fun hdead => absurd hdead hlive) fun _ => ?_
      rw [hitems, List.flatMap_cons, hother]
      rfl
  | panic => exact served_same h hasks rfl rfl (fun _ => rfl) fun hnot => absurd rfl hnot

/-- The inputs that a step picks up are what its event says. -/
theorem picked_event {event : P2PEvent} {events : Channel P2PEvent} {c' : Controller Text}
    {task : SwarmTask} {ks : List Controller.Input}
    (hitems : s.events.items = event :: events.items)
    (hsending : SwarmTask.sending task = SwarmTask.sending s.swarmTask)
    (hlive : ControllerTask.of c'.swarmCommands ≠ .panicked)
    (h : Moved s .event (handled { s with events, swarmTask := task } (.ret c')) ks) :
    ks = [.event event] := by
  have hevents := h.events hlive
  change s.events.items ++ SwarmTask.sending s.swarmTask ++ []
    = ks.flatMap eventsOf ++ events.items ++ SwarmTask.sending task at hevents
  rw [List.append_nil, hsending, hitems] at hevents
  have hpicked : [event] = ks.flatMap eventsOf :=
    List.append_cancel_right (List.append_cancel_right hevents)
  have hone := h.once
  cases ks with
  | nil => cases hpicked
  | cons j ks =>
      obtain rfl : ks = [] := List.length_eq_zero_iff.mp (by
        rw [List.length_cons] at hone
        omega)
      -- the controller took exactly one input, and it is no command and no tick
      rw [List.flatMap_singleton] at hpicked
      cases j with
      | event event' => cases hpicked; rfl
      | command command => cases hpicked
      | syncTick => cases hpicked

omit [Unicode] in
/-- An event that cannot be sent is lost, and nobody waits for an answer to it. -/
theorem served_lost {event : P2PEvent} (h : Served start is s js c answered current)
    (hswarm : s.swarmTask = .send event) (hasks : asks i = []) (hother : queriesOf event = []) :
    Served start (is ++ [i]) { s with
      swarmTask := .select, responses := s.responses ++ makeSyncResponseError event } js c answered
      current := by
  have hinHand := h.inHand
  have hqueued := h.queued
  have hnone : makeSyncResponseError event = [] := by
    cases event with
    | syncRequest query => cases hother
    | _ => rfl
  rw [hswarm] at hinHand hqueued
  rw [hnone, List.append_nil]
  refine ⟨?_, h.responses, ?_, hqueued⟩
  · rw [List.flatMap_append, List.flatMap_singleton, hasks, List.append_nil]
    exact h.requests
  · cases event with
    | syncRequest query => cases hother
    | _ => exact hinHand

omit [Unicode] in
/-- What the controller handles that is no event leaves the requests alone. -/
theorem served_handled {externalCommands : Channel ControllerCommands}
    {outcome : Outcome (Controller Text)} (h : Served start is s js c answered current)
    (hlive : s.controllerTask ≠ .panicked) (hasks : asks i = []) :
    Served start (is ++ [i]) (handled { s with externalCommands } outcome) js c answered
      current := by
  cases outcome with
  | ret c' => exact served_same h hasks rfl rfl (fun hdead => absurd hdead hlive) fun _ => rfl
  | panic => exact served_same h hasks rfl rfl (fun _ => rfl) fun hnot => absurd rfl hnot

/-- **A step answers the request that the swarm is at, or goes on with it.** -/
theorem served_step (h : Served start is s js c answered current)
    (hfollows : Follows premintNames is s taken js c) (hrun : Controller.Run start js c)
    (hs : Step s i s') (hmoved : Moved s i s' ks) (hpicked : Controller.Run c ks c') :
    ∃ answered' current', Served start (is ++ [i]) s' (js ++ ks) c' answered' current' := by
  have hmono : ∀ {answered' current'}, Served start (is ++ [i]) s' js c answered' current' →
      ∃ answered' current', Served start (is ++ [i]) s' (js ++ ks) c' answered' current' :=
    fun h => ⟨_, _, served_mono hpicked h⟩
  cases hs with
  | sendCommand command hlive hsend => exact hmono (served_same h rfl rfl rfl id fun _ => rfl)
  | message propagationSource message hswarm =>
      exact hmono (served_turns h hswarm rfl (inHand_handleMessage _ _ _)
        (awaited_handleMessage _ _ _))
  | syncRequest query hswarm => exact hmono (served_turns h hswarm rfl rfl rfl)
  | syncResponse response hswarm =>
      cases response with
      | premints premints => exact hmono (served_turns h hswarm rfl rfl rfl)
      | error err => exact hmono (served_turns h hswarm rfl rfl rfl)
  | otherEvent hswarm => exact hmono (served_same h rfl rfl rfl id fun _ => rfl)
  | swarmCommand hswarm hrecv => exact hmono (served_same h rfl rfl rfl id fun _ => rfl)
  | swarmCommandClosed hswarm hempty hclosed =>
      exact hmono (served_same h rfl rfl rfl id fun _ => rfl)
  | swarmSend hswarm hlive hsend =>
      exact hmono (served_sent h hswarm rfl (Channel.send_cases hsend).2.1)
  | @swarmSendClosed event hswarm hclosed =>
      -- the controller is gone: a request is answered with an error at once
      have hinHand := h.inHand
      rw [hswarm] at hinHand
      cases event with
      | syncRequest query =>
          exact hmono (served_answered h rfl hinHand hclosed fun hlive => absurd hclosed hlive)
      | _ => exact hmono (served_lost h hswarm rfl rfl)
  | swarmRecv hswarm =>
      -- the controller has left its answer, and it is sent back
      have hinHand := h.inHand
      have hqueued := h.queued
      rw [hswarm] at hinHand hqueued
      obtain ⟨query, hcurrent, hanswers⟩ := hinHand
      exact hmono (served_answered h rfl hcurrent (answers_imp False.elim hanswers) hqueued)
  | swarmRecvClosed hswarm hclosed =>
      -- it was gone before it answered
      have hinHand := h.inHand
      rw [hswarm] at hinHand
      obtain ⟨query, hcurrent⟩ := hinHand
      exact hmono (served_answered h rfl hcurrent hclosed fun hlive => absurd hclosed hlive)
  | @event event events outcome hcontroller hrecv hevent =>
      have hlive : s.controllerTask ≠ .panicked := by simp [hcontroller]
      have hitems := (Channel.recv_cases hrecv).1
      -- only a request makes the controller answer
      cases event with
      | syncRequest query =>
          cases hevent
          have hselect : ControllerTask.of (idle s.controller).swarmCommands = .select := rfl
          obtain rfl := picked_event hitems (sending_answered _ _ _) (by simp [hselect]) hmoved
          exact ⟨_, _, served_request h hfollows hlive rfl hitems hrun hpicked⟩
      | _ => exact hmono (served_event h hlive rfl hitems rfl)
  | command m hcontroller hrecv => exact hmono (served_handled h (by simp [hcontroller]) rfl)
  | syncTick m hcontroller =>
      exact hmono (served_handled h (by simp [hcontroller]) rfl)
  | controllerSend hcontroller hsend =>
      exact hmono (served_same h rfl rfl rfl
        (fun hdead => by rw [hcontroller] at hdead; cases hdead) fun _ => rfl)

omit [Unicode] in
theorem served_start (capacities : Capacities) (config : Config) (rules : RulesEngine Text) :
    Served (.new config rules) [] (startP2PServices capacities config rules) []
      (.new config rules) [] [] :=
  ⟨rfl, .nil, rfl, fun _ => rfl⟩

/-- The run loop that the node follows, and the requests that it has served on the way. -/
theorem tandem_run {capacities : Capacities} {config : Config} {rules : RulesEngine Text}
    (h : Run (startP2PServices capacities config rules) is s) :
    ∃ taken, Lib.Run (Lib.Recorded Step takes) (startP2PServices capacities config rules, [])
        is (s, taken)
      ∧ ∃ js c, Controller.Run (.new config rules) js c
        ∧ Follows config.premintNames is s taken js c
        ∧ ∃ answered current, Served (.new config rules) is s js c answered current := by
  obtain ⟨taken, hrecorded⟩ := h.recorded takes
  refine ⟨taken, hrecorded, ?_⟩
  refine Lib.Run.refines (R := fun is (x : P2PServices Text × List SwarmCommand) js c =>
      Follows config.premintNames is x.1 x.2 js c
        ∧ ∃ answered current, Served (.new config rules) is x.1 js c answered current)
    ⟨follows_start capacities config rules, [], [], served_start capacities config rules⟩ ?_
    hrecorded
  rintro is ⟨s₁, taken₁⟩ i ⟨s₂, taken₂⟩ js c hrun ⟨hfollows, answered, current, hserved⟩
    ⟨hstep, rfl⟩
  -- one step of both tasks, and the run loop goes on by what it picked up
  obtain ⟨ks, c', hmoved, hrun', hfollows'⟩ := follows_step hfollows hstep
  exact ⟨ks, c', hrun', hfollows', served_step hserved hfollows hrun hstep hmoved hrun'⟩

/--
**The two tasks of a node do what the run loop of its controller does.** Whatever the order in
which they take turns, wait for each other and get room, and however many commands come from
outside: the controller is where a run of its loop takes it that handles the events and the
commands in the order they came in, each of them once. What has not been handled is still in a
channel or about to be sent, unless the controller panicked. And what the controller sent, the
swarm takes once and in order.
-/
theorem services_refine_controller {capacities : Capacities} {config : Config}
    {rules : RulesEngine Text} (h : Run (startP2PServices capacities config rules) is s) :
    ∃ taken js c,
      Lib.Run (Lib.Recorded Step takes) (startP2PServices capacities config rules, [])
        is (s, taken)
      ∧ Controller.Run (.new config rules) js c
      ∧ Follows config.premintNames is s taken js c := by
  obtain ⟨taken, hrecorded, js, c, hrun, hfollows, _⟩ := tandem_run h
  exact ⟨taken, js, c, hrecorded, hrun, hfollows⟩

/--
**Every request of another node is answered once, in the order they came in.** The run loop that
the node follows took the request after those that were answered before it, and the answer is what
its table had at that moment; or it is an error, and the controller has panicked. The swarm never
has more than one request that it has not answered, and between events it has none.
-/
theorem requests_answered_in_order {capacities : Capacities} {config : Config}
    {rules : RulesEngine Text} (h : Run (startP2PServices capacities config rules) is s) :
    ∃ taken js c answered current,
      Lib.Run (Lib.Recorded Step takes) (startP2PServices capacities config rules, [])
        is (s, taken)
      ∧ Controller.Run (.new config rules) js c
      ∧ Follows config.premintNames is s taken js c
      ∧ is.flatMap asks = answered ++ current
      ∧ Answered (.new config rules) js c (s.controllerTask = .panicked) answered s.responses
      ∧ current.length ≤ 1 ∧ (s.swarmTask = .select → current = []) := by
  obtain ⟨taken, hrecorded, js, c, hrun, hfollows, answered, current, hserved⟩ := tandem_run h
  refine ⟨taken, js, c, answered, current, hrecorded, hrun, hfollows, hserved.requests,
    hserved.responses, ?_, fun hselect => ?_⟩
  · have hinHand := hserved.inHand
    unfold InHand at hinHand
    split at hinHand
    · rw [hinHand]; exact Nat.le_refl 1
    · obtain ⟨query, rfl⟩ := hinHand; exact Nat.le_refl 1
    · obtain ⟨query, rfl, _⟩ := hinHand; exact Nat.le_refl 1
    · rw [hinHand]; exact Nat.zero_le 1
  · have hinHand := hserved.inHand
    rw [hselect] at hinHand
    exact hinHand

end Runs

/-! ## A node that passes a command on and answers a request -/

section Sample

attribute [local instance] Sample.alloy Sample.libp2p Sample.unicode

/-- The node of these runs, with room for one item in each channel. -/
def smallNode : P2PServices Wire :=
  startP2PServices { events := 1, swarmCommands := 1, externalCommands := 1 } {}
    Sample.offlineRules

def answering : List (Input Wire) := passCommand ++ askController ++ [.event, .swarmRecv]

theorem run_answering : ∃ s, Run smallNode answering s := by
  have h₀ : Run smallNode [] smallNode := .nil
  have h₁ := h₀.snoc (.sendCommand .announceSelf (fun h => nomatch h) rfl)
  have h₂ := h₁.snoc (.command anyMoment rfl rfl)
  have h₃ := h₂.snoc (.controllerSend rfl rfl)
  have h₄ := h₃.snoc (.syncRequest {} rfl)
  have h₅ := h₄.snoc (.swarmSend rfl (fun h => nomatch h) rfl)
  have h₆ := h₅.snoc (.event rfl rfl (.syncRequest {}))
  exact ⟨_, h₆.snoc (.swarmRecv rfl)⟩

theorem answering_node_refines :
    ∃ s taken js c, Run smallNode answering s ∧ Controller.Run (.new {} Sample.offlineRules) js c
      ∧ Follows (Config.premintNames {}) answering s taken js c := by
  obtain ⟨s, hrun⟩ := run_answering
  obtain ⟨taken, js, c, _, hrun', hfollows⟩ := services_refine_controller hrun
  exact ⟨s, taken, js, c, hrun, hrun', hfollows⟩

theorem answering_node_answers :
    ∃ s taken js c answered current, Run smallNode answering s
      ∧ Controller.Run (.new {} Sample.offlineRules) js c
      ∧ Follows (Config.premintNames {}) answering s taken js c
      ∧ [{}] = answered ++ current
      ∧ Answered (.new {} Sample.offlineRules) js c (s.controllerTask = .panicked) answered
        s.responses := by
  obtain ⟨s, hrun⟩ := run_answering
  obtain ⟨taken, js, c, answered, current, _, hrun', hfollows, hasked, hanswers, _⟩ :=
    requests_answered_in_order hrun
  exact ⟨s, taken, js, c, answered, current, hrun, hrun', hfollows, hasked, hanswers⟩

end Sample

end Mintpool.P2PServices
