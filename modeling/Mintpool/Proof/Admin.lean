import Mintpool.Proof.Api
import Mintpool.Proof.Deadlock

/-!
# Who opens the admin routes

A peer is dialled and a sync is requested by admin requests, which have to show the secret. The
check compares the secret with the header as text, and with the empty text where the header is
no text, so it is the secret itself that decides which headers are let through.
-/

namespace Mintpool.Api

open Mintpool.Proof

/-! ## The secret and the header -/

section Header

variable [Http] {apiSecret : Option String} {authorization : Option (List UInt8)}

/-- The header is this text, in visible ASCII. -/
def Spells (value : List UInt8) (text : String) : Prop :=
  value.all isVisibleAscii = true ∧ text.toList = value.map fun b => Char.ofNat b.toNat

/-- The header shows the secret. An empty secret is shown by anything that is no text, too. -/
def Shows (apiSecret : Option String) (authorization : Option (List UInt8)) : Prop :=
  ∃ secret value, apiSecret = some secret ∧ authorization = some value
    ∧ (Spells value secret ∨ secret = "" ∧ value.all isVisibleAscii = false)

theorem toStr_eq_iff [LawfulHttp] {value : List UInt8} {secret : String} :
    (Http.toStr value).getD "" = secret
      ↔ Spells value secret ∨ secret = "" ∧ value.all isVisibleAscii = false := by
  rw [LawfulHttp.toStr_eq]
  unfold Spells
  cases hvisible : value.all isVisibleAscii with
  | false =>
      simp only [Bool.false_eq_true, if_false, Option.getD_none, false_and, false_or, and_true]
      exact eq_comm
  | true =>
      simp only [if_true, Option.getD_some, true_and, Bool.true_eq_false, and_false, or_false]
      refine ⟨fun h => ?_, fun h => ?_⟩
      · rw [← h, String.toList_ofList]
      · rw [← h, String.ofList_toList]

/-- **Exactly the headers that show the secret are let through.** -/
theorem authMiddleware_eq_none_iff [LawfulHttp] :
    authMiddleware apiSecret authorization = none ↔ Shows apiSecret authorization := by
  unfold authMiddleware Shows
  cases apiSecret with
  | none => simp
  | some secret =>
      cases authorization with
      | none => simp
      | some value =>
          have heq := @toStr_eq_iff _ _ value secret
          by_cases hshown : (Http.toStr value).getD "" = secret
          · simpa [hshown] using heq.mp hshown
          · have hnot := fun h => hshown (heq.mpr h)
            simpa [hshown] using hnot

end Header

/-! ## What is told to the swarm -/

section Guarded

variable {Text : Type} [Alloy] [Codec Text] {s s' : Api Text} {c c' : Controller Text}
  {command : ControllerCommands} {sent : SwarmCommand}

/-- The commands that only admin requests are for, and what becomes of them. -/
inductive Guards : ControllerCommands → SwarmCommand → Prop
  | connectToPeer (address : String) : Guards (.connectToPeer address) (.connectToPeer address)
  | sync (query : QueryOptions) : Guards .sync (.sync query)

omit [Alloy] in
/-- **A command tells the swarm nothing that is guarded by another.** -/
theorem guard_of_sentFor {m : Moment} {guard : ControllerCommands} (hguard : Guards guard sent)
    (h : SentFor c m command sent) : command = guard := by
  cases hguard with
  | connectToPeer address => exact h
  | sync query => exact h.1

omit [Alloy] [Codec Text] in
/-- Nor does what is sent along the way. -/
theorem mem_of_guarded {guard : ControllerCommands} (hguard : Guards guard sent)
    {other : SwarmCommand} (hother : ∀ guard, ¬ Guards guard other)
    (h : sent ∈ (c.sendSwarm other).2.swarmCommands) : sent ∈ c.swarmCommands := by
  rcases sendSwarm_cases c other with hlast | hsame
  · rw [hlast] at h
    rcases List.mem_append.mp h with h | h
    · exact h
    · cases List.mem_singleton.mp h
      exact absurd hguard (hother guard)
  · exact hsame ▸ h

end Guarded

section Run

variable {Text : Type} [Alloy] [Codec Text] [Libp2p] [MultiaddrText] [Http] {s s' : Api Text}
  {i : Input} {id : Nat} {command : ControllerCommands} {sent : SwarmCommand}

/-- The controller takes a command, from the handler of a request or from elsewhere, and tells the
swarm this because of it. -/
def Takes (sender : Option Nat) (command : ControllerCommands) (sent : SwarmCommand) (s : Api Text)
    (i : Input) (s' : Api Text) : Prop :=
  (∃ m, i = .command m ∧ SentFor s.controller m command sent)
    ∧ (∃ commands, s.commands.recv = some ((sender, command), commands))
    ∧ s'.controller.swarmCommands = s.controller.swarmCommands ++ [sent]

/-- A sync is due, and the swarm is told to ask for what is not too old at this moment. -/
def Ticks (sent : SwarmCommand) (s : Api Text) (i : Input) (s' : Api Text) : Prop :=
  ∃ m, i = .syncTick m ∧ sent = .sync (syncQuery s.controller m)
    ∧ s'.controller.swarmCommands = s.controller.swarmCommands ++ [sent]

/-- The swarm has been told something that is guarded. -/
def Told (s : Api Text) (sent : SwarmCommand) : Prop :=
  sent ∈ s.controller.swarmCommands ∧ ∃ guard, Guards guard sent

/-- This is why. -/
def Leads (sent : SwarmCommand) (s : Api Text) (i : Input) (s' : Api Text) : Prop :=
  Ticks sent s i s' ∨ ∃ sender command, Guards command sent ∧ Takes sender command sent s i s'

omit [Libp2p] [MultiaddrText] [Http] in
theorem told_of_command {m : Moment} {sender : Option Nat} {guard : ControllerCommands}
    (hguard : Guards guard sent)
    (h : sent ∈ (s.handleCommand m sender command).controller.swarmCommands) :
    sent ∈ s.controller.swarmCommands
      ∨ (s.handleCommand m sender command).controller.swarmCommands
          = s.controller.swarmCommands ++ [sent] ∧ SentFor s.controller m command sent := by
  unfold handleCommand at h ⊢
  split at h
  · -- the premint is only stored for now
    rename_i message
    have hins : (s.controller.validateAndInsert m message).2.swarmCommands
        = s.controller.swarmCommands := rfl
    split at h <;>
    · rename_i heq
      rw [heq] at hins
      exact .inl (hins ▸ h)
  · have hsend : sent ∈ (s.controller.sendSwarm .returnNetworkState).2.swarmCommands
        ∨ sent ∈ s.controller.swarmCommands := by
      split at h
      · rename_i heq
        exact .inl (by rw [heq]; exact h)
      · exact .inr h
    rcases hsend with hsend | hsend
    · exact .inl (mem_of_guarded hguard (fun _ h => by cases h) hsend)
    · exact .inl hsend
  · unfold forward at h ⊢
    split at h
    · rename_i heq
      exact mem_forwards (command_forwards heq) h
    · exact .inl h

theorem told_step (hs : Step s i s') (h : Told s' sent) : Told s sent ∨ Leads sent s i s' := by
  obtain ⟨hmem, guard, hguard⟩ := h
  have hbefore : sent ∈ s.controller.swarmCommands → Told s sent := fun h => ⟨h, guard, hguard⟩
  cases hs with
  | arrive | respond | send | sendClosed | countTotal | countActive | timeout | sendCommand =>
      exact .inl (hbefore hmem)
  | syncResponse | insert | inserted | networkState | swarmEnds => exact .inl (hbefore hmem)
  | @command m sender command commands hselect hrecv =>
      -- a command is taken: what it made the swarm do is the last in its queue
      rcases told_of_command (s := { s with commands }) hguard hmem with h | ⟨hlast, hfor⟩
      · exact .inl (hbefore h)
      · obtain rfl := guard_of_sentFor hguard hfor
        exact .inr (.inr ⟨sender, _, hguard, ⟨m, rfl, hfor⟩, ⟨commands, hrecv⟩, hlast⟩)
  | @broadcast message sender hbroadcasting =>
      -- a broadcast is not guarded, so it was sent before
      have hsent : sent ∈ (s.controller.sendSwarm (.broadcast message)).2.swarmCommands := by
        unfold broadcast at hmem
        split at hmem <;>
        · rename_i heq
          rw [heq]
          exact hmem
      exact .inl (hbefore (mem_of_guarded hguard (fun _ h => by cases h) hsent))
  | @event event outcome hselect hsync hevent =>
      cases outcome with
      | ret c =>
          rw [show (s.handled (.ret c)).controller = c from rfl,
            (P2PServices.handleEvent_sends_nothing hevent).1] at hmem
          exact .inl (hbefore hmem)
      | panic => exact .inl (hbefore hmem)
  | syncTick m hselect =>
      -- the ticker sends one sync and nothing else
      cases houtcome : s.controller.requestSync m with
      | ret c =>
          have hlast : c.swarmCommands
              = s.controller.swarmCommands ++ [.sync (syncQuery s.controller m)] := by
            rw [requestSync_sent houtcome]
          rw [houtcome, show (s.handled (.ret c)).controller = c from rfl, hlast] at hmem
          rcases List.mem_append.mp hmem with h | h
          · exact .inl (hbefore h)
          · obtain rfl := List.mem_singleton.mp h
            exact .inr (.inl ⟨m, rfl, rfl, hlast⟩)
      | panic =>
          rw [houtcome] at hmem
          exact .inl (hbefore hmem)

/-! ## Over a run -/

variable {config : Config} {rules : RulesEngine Text} {apiSecret : Option String}
  {is : List Input}

/-- The command is in the channel, and for nobody who waits. -/
def Queued (s : Api Text) (command : ControllerCommands) : Prop :=
  (none, command) ∈ s.commands.items

theorem queued_step (hs : Step s i s') (h : Queued s' command) :
    Queued s command ∨ i = .sendCommand command := by
  cases hs with
  | arrive | respond | sendClosed | countTotal | countActive | timeout => exact .inl h
  | syncResponse | insert | inserted | networkState | swarmEnds => exact .inl h
  | send n hcalled hbegin hopen hsend =>
      rcases Lib.Channel.mem_send hsend h with h | h
      · exact .inl h
      · -- a handler's command has somebody who waits for it
        cases h
  | sendCommand command₀ hopen hsend =>
      rcases Lib.Channel.mem_send hsend h with h | h
      · exact .inl h
      · -- this is how one gets in that nobody waits for
        cases h
        exact .inr rfl
  | @command m sender command₀ commands hselect hrecv =>
      -- taking one out puts none in
      have hleft := (handleCommand_cases (s := { s with commands }) m sender command₀ hselect).1 _ h
      refine .inl ?_
      unfold Queued
      rw [(Lib.Channel.recv_cases hrecv).1]
      exact List.mem_cons_of_mem _ hleft
  | broadcast hbroadcasting =>
      unfold broadcast at h
      split at h <;> exact .inl h
  | @event event outcome =>
      cases outcome with
      | ret c => exact .inl h
      | panic => cases h
  | syncTick m =>
      cases houtcome : s.controller.requestSync m with
      | ret c =>
          rw [houtcome] at h
          exact .inl h
      | panic =>
          rw [houtcome] at h
          cases h

/-- A command is sent, but not by a handler: by the terminal, by a checker of mints, or when the
node is started and connects to its boot nodes. -/
def Elsewhere (command : ControllerCommands) (_ : Api Text) (i : Input) (_ : Api Text) : Prop :=
  i = .sendCommand command

/-- What is taken for nobody has been sent from elsewhere. -/
theorem sent_elsewhere (hrun : Run (start config rules apiSecret) is s) (h : Queued s command) :
    Lib.Once Step (Elsewhere command) (start config rules apiSecret) is s := by
  have hnone : ∀ command, ¬ Queued (start config rules apiSecret) command :=
    fun _ h => by cases h
  refine Lib.Run.cause hnone ?_ hrun h
  exact fun s i s' command hs h => queued_step hs h

theorem apiSecret_run (hrun : Run s is s') : s'.apiSecret = s.apiSecret :=
  Lib.Run.invariant (P := fun s' => s'.apiSecret = s.apiSecret) rfl
    (fun _ _ _ h hs => (apiSecret_step hs).trans h) hrun

omit [Alloy] [Codec Text] [Libp2p] [MultiaddrText] in
/-- A guarded command is sent only for who shows the secret. -/
theorem shows_of_sends [LawfulHttp] {request : Request} (hguard : Guards command sent)
    (h : Sends apiSecret request command) : Shows apiSecret request.authorization := by
  refine authMiddleware_eq_none_iff.mp (h.2 ?_)
  have hcommand := h.1
  generalize request.route = route at hcommand ⊢
  cases hguard <;> cases route <;> first | rfl | cases hcommand

/--
**Only the secret opens the admin routes.** Whenever the swarm has been told to dial or to sync:
the ticker ticked, and this is what it had the swarm ask for; or the command was sent by the
terminal, by a checker or on the way to the boot nodes, and the controller took it and told the
swarm this; or else a request for just that arrived and showed the secret, and the controller took
its command and told the swarm this. No tick lets the swarm dial.
-/
theorem guarded_commands_authorised [LawfulHttp] (hrun : Run (start config rules apiSecret) is s)
    (hmem : sent ∈ s.controller.swarmCommands) (hguard : Guards command sent) :
    (command = .sync ∧ Lib.Once Step (Ticks sent) (start config rules apiSecret) is s)
      ∨ Lib.InOrder Step (start config rules apiSecret)
        [Elsewhere command, Takes none command sent] is s
      ∨ ∃ id request, commandOf request.route = some command
        ∧ Shows apiSecret request.authorization
        ∧ Lib.InOrder Step (start config rules apiSecret)
          [Arrives id request, Takes (some id) command sent] is s := by
  have hnone : ∀ sent, ¬ Told (start config rules apiSecret) sent := fun _ h => by cases h.1
  have htold : Told s sent := ⟨hmem, command, hguard⟩
  have hleads : Lib.Once Step (Leads sent) (start config rules apiSecret) is s := by
    refine Lib.Run.cause hnone ?_ hrun htold
    exact fun s i s' sent hs h => told_step hs h
  obtain ⟨done, i, rest, s₁, s₂, rfl, hbefore, hs, hlead, hafter⟩ := hleads
  rcases hlead with htick | ⟨sender, guard, hguard', htakes⟩
  · -- a tick leads to a sync, never to a dial
    have hsync : command = .sync := by
      obtain ⟨_, _, rfl, _⟩ := htick
      cases hguard
      rfl
    exact .inl ⟨hsync, done, i, rest, s₁, s₂, rfl, hbefore, hs, htick, hafter⟩
  · have hsame : guard = command := by cases hguard <;> cases hguard' <;> rfl
    subst hsame
    obtain ⟨commands, hrecv⟩ := htakes.2.1
    have hhead : (sender, guard) ∈ s₁.commands.items := Lib.Channel.mem_recv hrecv
    cases sender with
    | none =>
        -- nobody waits for it, so it was sent from elsewhere
        have helsewhere := (sent_elsewhere hbefore hhead).after [] fun _ _ _ _ h _ _ => .nil h
        exact .inr (.inl (.snoc helsewhere hs htakes hafter))
    | some id =>
        -- the handler that waits for it has been called with a request that was let through
        have hconsistent := consistent_run hbefore (consistent_start config rules apiSecret)
        obtain ⟨request, state, hhandler, _, hsends⟩ := hconsistent.commands id guard hhead
        rw [apiSecret_run hbefore] at hsends
        have harrived := (arrived_before rfl hbefore hhandler).after [] fun _ _ _ _ h _ _ => .nil h
        exact .inr (.inr ⟨id, request, hsends.1, shows_of_sends hguard hsends,
          .snoc harrived hs htakes hafter⟩)

end Run

/-! ## A peer that is added -/

section Example

open Sample

attribute [local instance] Sample.alloy Sample.libp2p Swarm.relayText asciiHttp

/-- A node with a secret. -/
def secretApi : Api Wire := start {} offlineRules (some "s")

/-- A request that shows it. -/
def addPeer : Request := ⟨.adminAddPeer "/ip4/10.0.0.1", some [115]⟩

theorem run_addPeer : ∃ s, Run secretApi [.arrive 0 addPeer, .handle 0, .command offline] s
    ∧ .connectToPeer "/ip4/10.0.0.1" ∈ s.controller.swarmCommands := by
  have hshows : Shows (some "s") addPeer.authorization :=
    ⟨"s", [115], rfl, rfl, .inl ⟨by decide, by decide⟩⟩
  have hsends : Sends (some "s") addPeer (.connectToPeer "/ip4/10.0.0.1") :=
    ⟨rfl, fun _ => authMiddleware_eq_none_iff.mpr hshows⟩
  obtain ⟨commands, hsend⟩ := Lib.Channel.exists_send (c := secretApi.commands) rfl
    (some 0, .connectToPeer "/ip4/10.0.0.1")
  have hitems := (Lib.Channel.send_cases hsend).2.1
  obtain ⟨item, commands', hrecv⟩ := Lib.Channel.exists_recv (c := commands)
    (by rw [hitems]; exact List.cons_ne_nil _ _)
  have hitem := (Lib.Channel.recv_cases hrecv).1
  rw [hitems] at hitem
  obtain ⟨rfl, _⟩ := List.cons.inj hitem
  let s₁ := secretApi.setHandler 0 ⟨addPeer, .called⟩
  have h₁ : Step secretApi (.arrive 0 addPeer) s₁ := .arrive 0 addPeer rfl
  have h₂ := Step.send (s := s₁) 0 setHandler_self (begin_eq_send_iff.mpr hsends)
    (fun h => by cases h) hsend
  have h₃ := Step.command
    (s := { s₁.setHandler 0 ⟨addPeer, addPeer.route.afterSend⟩ with commands }) offline rfl hrecv
  exact ⟨_, ((Lib.Run.single h₁).snoc h₂).snoc h₃, List.mem_cons_self⟩

/-- **Its peer was added by a request with the secret.** -/
theorem addPeer_authorised : ∃ s id request,
    commandOf request.route = some (.connectToPeer "/ip4/10.0.0.1")
      ∧ Shows (some "s") request.authorization
      ∧ Lib.InOrder Step secretApi
        [Arrives id request,
          Takes (some id) (.connectToPeer "/ip4/10.0.0.1") (.connectToPeer "/ip4/10.0.0.1")]
        [.arrive 0 addPeer, .handle 0, .command offline] s := by
  obtain ⟨s, hrun, hmem⟩ := run_addPeer
  rcases guarded_commands_authorised hrun hmem (.connectToPeer _) with
    ⟨hsync, _⟩ | helsewhere | hrequest
  · cases hsync
  · -- nothing is sent from elsewhere
    have hsent : Lib.Once Step (Elsewhere (.connectToPeer "/ip4/10.0.0.1")) secretApi _ s :=
      helsewhere.once (by simp)
    obtain ⟨i, hi, _, _, rfl⟩ := hsent.input
    simp at hi
  · exact ⟨s, hrequest⟩

end Example

end Mintpool.Api
